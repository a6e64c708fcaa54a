import LinearModel.Proofs.Doubles
import LinearModel.Proofs.Repetition

/-!
# Origins of variables

Every variable of a built model comes from a declared variable, at an index with as many components
as that has domains. Nothing checks that a component is an element of its domain: an index may be
computed, and then leads anywhere. So may the index of a decision expression, which is not compared
with the domain declared for it. Where all these indices are iterators that run over the very
domains, the components are elements of the domains.

A reference to a decision expression writes its index out as a number, and a whole number may be
rounded by that. Elements of the domains of decision expressions must therefore be numbers that are
not rounded.
-/
namespace LinearModel

open Run Judgement Simulation LinearModel.Expr Progress

variable {K : Type}

/-! ## Indices that are iterators over their domains -/

/-- The iterators around an expression, the innermost first, each with the domain it runs over if it
runs over all of a declared one. -/
abbrev Scope := List (String × Option String)

/-- The domain that an iterator runs over, if it is a declared one. -/
def Iter.domain? (it : Iter K) : Option String :=
  match it.source with
  | .named symbol none => some symbol
  | _ => none

namespace Scope

/-- The domain that an index runs over, if it is an iterator over a declared one. -/
def domainOf (Γ : Scope) : Expr K → Option String
  | .name i => (Γ.find? (·.1 == i)).bind (·.2)
  | _ => none

/-- The scope inside further iterators. -/
def enter (Γ : Scope) (its : List (Iter K)) : Scope :=
  its.foldl (fun Γ it => (it.symbol, it.domain?) :: Γ) Γ

/-- The scope of the body of a decision expression. -/
def ofDexpr (d : DecisionExpression K) : Scope :=
  match d.index with
  | none => []
  | some i => [(i, d.domain)]

end Scope

/-- The domain that is declared for the index of a decision expression. -/
def indexDomain? (dexprs : Table String (DecisionExpression K)) (s : String) : Option String :=
  (dexprs.find? s).bind (·.domain)

section Iterates

variable (vars : Table String (Variable K)) (dexprs : Table String (DecisionExpression K))

/-- Whether every index of a variable or a decision expression, as far as terms show it, is an
iterator over the domain at its place. -/
def Expr.iterates : Scope → Expr K → Bool
  | Γ, .ivar s idx =>
    match vars.find? s with
    | none => true
    | some v => idx.map Γ.domainOf == v.domains.map some
  | Γ, .dexpr s (some e) => (indexDomain? dexprs s).all fun symbol => Γ.domainOf e == some symbol
  | Γ, .arith _ l r => l.iterates Γ && r.iterates Γ
  | Γ, .neg e => e.iterates Γ
  | Γ, .sum its body _ => body.iterates (Γ.enter its)
  | _, _ => true

mutual
/-- Whether the indices in the constraints of a rule are iterators over their domains. -/
def Rule.iterates : Scope → Rule K → Bool
  | Γ, .single c => c.lhs.iterates vars dexprs Γ && c.rhs.iterates vars dexprs Γ
  | Γ, .family _ its _ body => iteratesAll (Γ.enter its) body

/-- Whether the indices in all rules of a list are iterators over their domains. -/
def Rule.iteratesAll : Scope → List (Rule K) → Bool
  | _, [] => true
  | Γ, R :: Rs => R.iterates Γ && iteratesAll Γ Rs
end

/-- Whether the indices in a statement are iterators over their domains. -/
def Statement.iterates : Statement K → Bool
  | .rule R => R.iterates vars dexprs []
  | .goal g => g.body.iterates vars dexprs []
  | .declaration _ _ | .ignored _ => true

end Iterates

theorem Rule.iterates_of_mem {vars : Table String (Variable K)}
    {dexprs : Table String (DecisionExpression K)} {Γ : Scope} {Rs : List (Rule K)}
    (h : Rule.iteratesAll vars dexprs Γ Rs = true) {R : Rule K} (hR : R ∈ Rs) :
    R.iterates vars dexprs Γ = true := by
  induction hR with
  | head Rs =>
    simp only [Rule.iteratesAll, Bool.and_eq_true] at h
    exact h.1
  | tail R' _ ih =>
    simp only [Rule.iteratesAll, Bool.and_eq_true] at h
    exact ih h.2

/-- Whether the indices in the statements and the decision expressions of a problem are iterators
over their domains. -/
def Problem.iterates (p : Problem K) : Bool :=
  p.statements.all (·.iterates p.registry.vars p.registry.dexprs) &&
    p.registry.dexprs.values.all fun d =>
      d.body.iterates p.registry.vars p.registry.dexprs (.ofDexpr d)

variable [Scalar K] {t : Registry K}

/-! ## Elements -/

/-- A value is an element of a domain as it is resolved. Only a family of sets is resolved in an
environment with bindings, among them that of its outer index. -/
def Registry.HasElement (t : Registry K) (symbol : String) (v : Value K) : Prop :=
  ∃ env vs, (resolveDomain symbol env none).Repeats t vs ∧ v ∈ vs ∧
    (t.isFamily symbol = false → env = Env.empty)

/-- Every component of an index is an element of the domain at its place. -/
def Registry.Within (t : Registry K) (o : Origin K) : Prop :=
  ∀ v, t.vars.find? o.1 = some v →
    List.Forall₂ (fun symbol x => ∃ e, t.HasElement symbol e ∧ x = e.normalize) v.domains
      (o.2.getD [])

/-- Whether a value, as an element, is no whole number that scalars round. -/
def Value.isExact (v : Value K) : Bool :=
  match v.normalize with
  | .int i => Scalar.toInt? (Scalar.ofInt i : K) == some i
  | _ => true

/-- The domains of decision expressions have no elements that are rounded. -/
def Registry.IsExact (t : Registry K) : Prop :=
  ∀ s symbol v, indexDomain? t.dexprs s = some symbol → t.HasElement symbol v → v.isExact = true

/-- An exact element is the same after it was written into an expression. -/
theorem Value.normalize_of_isExact {u v w : Value K} (hv : v.isExact = true)
    (huv : u.normalize = v.normalize) {e : Expr K} (he : ofValue u = .ok e) {L : Lookup K}
    {env : Env K} {s s' : Store K} (h : (e.value L env).Returns s w s') :
    w.normalize = v.normalize := by
  have hint : ∀ {i : Int}, v.normalize = .int i →
      (real (Scalar.ofInt i : K)).normalize = .int i := by
    intro i hi
    have hround : Scalar.toInt? (Scalar.ofInt i : K) = some i := by simpa [isExact, hi] using hv
    simp only [normalize, hround]
  have hnum : ∀ x : K, e = .num x → w.normalize = (real x).normalize := by
    rintro x rfl
    rw [← (returns_pure.1 h).1, normalize_normalize]
  cases u with
  | int i =>
    cases hx : (Scalar.ofInt? i : Option K) with
    | none => simp [ofValue, scalarOfInt, hx, Except.map] at he
    | some x =>
      obtain rfl : Scalar.ofInt i = x := by
        simp only [Scalar.ofInt?] at hx
        split at hx
        · exact Option.some.inj hx
        · cases hx
      have he' : e = .num (Scalar.ofInt i) := by
        simpa [ofValue, scalarOfInt, hx, Except.map, eq_comm] using he
      rw [hnum _ he', hint huv.symm, ← huv]
      rfl
  | bool b =>
    cases he
    rw [hnum _ rfl, ← huv]
    cases b with
    | true => exact hint huv.symm
    | false => exact hint huv.symm
  | real x =>
    cases he
    rw [hnum x rfl, huv]
  | str s | record s vs =>
    cases he
    rw [← huv, ← (returns_pure.1 h).1]
  | _ => cases he

section Elements

variable (hself : ∀ {v w : Value K}, (v == w) = true → (w == w) = true)

include hself

/-- What is listed for a domain are its elements. -/
theorem elements_resolved (r : Registry K) (symbol : String) (env : Env K) :
    (r.lookup.elements symbol env none).EnsuresFrom keyed fun t vs =>
      r.KeptIn t → ∀ v ∈ vs, t.HasElement symbol v := by
  intro s vs s' hs h
  obtain ⟨hkept, hagain⟩ := (lookup_repeats hself _).elements symbol none rfl hs h
  refine ⟨hkept, fun t ht hrt v hv => ?_⟩
  -- the lookup of a later registry is the same
  have hresolve : ∀ {a : Env K}, (t.lookup.elements symbol a none).Repeats t vs →
      (resolveDomain symbol a none).Repeats t vs := fun ha w => by
    obtain ⟨s'', hs'', hkept'⟩ := ha w
    simp only [resolveDomain, Run.lookup, bind_assoc, pure_bind]
    exact ⟨s'', returns_bind.2 ⟨t, _, returns_registry.2 ⟨rfl, rfl⟩, hs''⟩, hkept'⟩
  rw [← hrt.lookup] at hresolve
  cases hfamily : t.isFamily symbol with
  | true => exact ⟨env, vs, hresolve (hagain ht), hv, by simp [hfamily]⟩
  | false =>
    have hplain := (hkept.trans ht).isFamily hfamily
    exact ⟨Env.empty, vs, hresolve (lookup_plain hself _ hs hplain h ht Env.empty), hv,
      fun _ => rfl⟩

/-- An iterator is bound to elements of the domain that it runs over. -/
theorem source_resolved (r : Registry K) (it : Iter K) (env : Env K) :
    (sourceElements r.lookup it.source env).EnsuresFrom keyed fun t vs => ∀ v ∈ vs,
      r.KeptIn t → ∀ symbol, it.domain? = some symbol → t.HasElement symbol v := by
  obtain ⟨s, src, filter⟩ := it
  cases src with
  | range a b =>
    exact (exprSource (lookup_advances hself _) _ rfl).mono fun t vs _ v _ _ symbol hsymbol => by
      simp [Iter.domain?, Iter.source] at hsymbol
  | named D outer =>
    cases outer with
    | some e =>
      exact (exprSource (lookup_advances hself _) _ rfl).mono fun t vs _ v _ _ symbol hsymbol => by
        simp [Iter.domain?, Iter.source] at hsymbol
    | none =>
      refine (elements_resolved hself r D env).mono fun t vs hvs v hv hrt symbol hsymbol => ?_
      obtain rfl : D = symbol := by simpa [Iter.domain?, Iter.source] using hsymbol
      exact hvs hrt v hv

end Elements

/-- The iterators of a scope are bound to elements of their domains, where a bound index may be an
element in its normal form. -/
structure Registry.Types (t : Registry K) (Γ : Scope) (env : Env K) : Prop where
  exact : t.IsExact
  frames : List.Forall₂ (fun d f => d.1 = f.1 ∧ ∀ symbol, d.2 = some symbol →
    ∃ e, t.HasElement symbol e ∧ f.2.normalize = e.normalize) Γ env.frames

namespace Registry.Types

variable {t : Registry K} {Γ : Scope} {env : Env K}

/-- An index that runs over a domain is an iterator that is bound to an element. -/
theorem get? (h : t.Types Γ env) {e : Expr K} {symbol : String} (he : Γ.domainOf e = some symbol) :
    ∃ i v, e = .name i ∧ env.get? i = some v ∧
      ∃ x, t.HasElement symbol x ∧ v.normalize = x.normalize := by
  cases e with
  | name i =>
    refine ⟨i, ?_⟩
    simp only [Scope.domainOf] at he
    obtain ⟨frames, values, active⟩ := env
    replace h := h.frames
    simp only [Env.get?] at h ⊢
    induction h with
    | nil => simp at he
    | @cons d f Γ frames hdf _ ih =>
      cases hkey : d.1 == i with
      | true =>
        have hkey' : (f.1 == i) = true := hdf.1 ▸ hkey
        simp only [List.find?_cons, hkey, Option.bind_some] at he
        simpa [List.find?_cons, hkey'] using hdf.2 symbol he
      | false =>
        have hkey' : (f.1 == i) = false := hdf.1 ▸ hkey
        simp only [List.find?_cons, hkey] at he
        simpa [List.find?_cons, hkey'] using ih he
  | _ => cases he

theorem enter {its : List (Iter K)} {inner : Env K} (h : t.Types Γ env)
    (hbinds : Env.BindsEach (fun it v => ∀ symbol, it.domain? = some symbol → t.HasElement symbol v)
      its env inner) : t.Types (Γ.enter its) inner := by
  induction hbinds generalizing Γ with
  | nil => exact h
  | cons hv _ ih =>
    exact ih ⟨h.exact, .cons ⟨rfl, fun symbol hsymbol => ⟨_, hv symbol hsymbol, rfl⟩⟩ h.frames⟩

end Registry.Types

/-! ## References within their domains -/

/-- What a computation of an index ensures holds of the index of the variable there. -/
theorem variableAt_index {G : Progress K} {P : Registry K → Index K → Prop} (s : String)
    {x : Run K (Index K)} (hx : x.EnsuresFrom G P) :
    (variableAt s x).EnsuresFrom G fun t p => P t p.2 := by
  refine EnsuresFrom.bind (P := fun _ _ => True) (Simulation.declaredVariable
    (R := Simulation.advancing G) s) fun v => hx.bind fun idx => ?_
  unfold singleVariable
  split
  · exact ensures_fail
  · refine ensures_registry fun r => ?_
    dsimp only
    split
    · exact ensures_fail
    · exact ensures_pure fun t _ _ h _ => h

theorem forall₂_of_common {α β γ : Type} {R : α → β → Prop} {S : α → γ → Prop} {T : β → γ → Prop}
    {as : List α} {bs : List β} {cs : List γ} (hR : List.Forall₂ R as bs)
    (hS : List.Forall₂ S as cs)
    (h : ∀ a b c, R a b → S a c → T b c) : List.Forall₂ T bs cs := by
  induction hR generalizing cs with
  | nil =>
    cases hS
    exact .nil
  | cons hab _ ih =>
    cases hS with
    | cons hac hS => exact .cons (h _ _ _ hab hac) (ih hS)

/-- An index that is a bound iterator has the value that this is bound to. -/
theorem elements_bound {G : Progress K} {L : Lookup K} (hL : (advancing G).Lookups L L)
    (env : Env K) (es : List (Expr K)) : (elements L es env).EnsuresFrom G fun _ xs =>
      List.Forall₂ (fun e x => ∀ i v, e = .name i → env.get? i = some v → x = v.normalize)
        es xs := by
  induction es with
  | nil =>
    exact ensures_pure fun _ => .nil
  | cons e es ih =>
    refine EnsuresFrom.bind (P := fun _ x => ∀ i v, e = .name i → env.get? i = some v → x = v) ?_
      fun x => ih.bind fun xs => ensures_pure fun t hxs hx => ?_
    · by_cases hbound : ∃ i v, e = .name i ∧ env.get? i = some v
      · obtain ⟨i, w, rfl, hw⟩ := hbound
        simp only [value, hw]
        exact ensures_pure fun t j v hj hv =>
          Option.some.inj (hw.symm.trans (by cases hj; exact hv))
      · exact (exprValue hL e rfl).mono fun _ _ _ i v he hv =>
          absurd ⟨i, v, he, hv⟩ hbound
    · exact .cons (fun i v he hv => by rw [hx i v he hv]) hxs

/-- References go to variables within their domains, where iterators and the indices of decision
expressions are bound to elements of the domains they run over. -/
def Judgement.within : Judgement K where
  names t _ o := t.Within o
  fits t env e := e.Scalars t.vars ∧ ∃ Γ, t.Types Γ env ∧ e.iterates t.vars t.dexprs Γ = true
  binds t := Env.BindsEach fun it v => ∀ symbol, it.domain? = some symbol → t.HasElement symbol v
  opens t s e := ∀ symbol, indexDomain? t.dexprs s = some symbol →
    ∃ u x, t.HasElement symbol x ∧ x.isExact = true ∧ u.normalize = x.normalize ∧ ofValue u = .ok e
  given t s v := ∀ symbol, indexDomain? t.dexprs s = some symbol →
    ∃ x, t.HasElement symbol x ∧ v.normalize = x.normalize

theorem Judgement.within_sound (hself : ∀ {v w : Value K}, (v == w) = true → (w == w) = true)
    (r : Registry K) : (within : Judgement K).Sound keyed r where
  lookups := lookup_advances hself _
  dexprs h := h.dexprs
  var := by
    rintro t env n b idx ⟨⟨rfl, rfl, v, hv, hdim⟩, -⟩ w hw
    obtain rfl : v = w := Option.some.inj (hv.symm.trans hw)
    rw [List.length_eq_zero_iff.1 hdim]
    exact .nil
  ivar s idx env := by
    refine (variableAt_index s (elements_bound (lookup_advances hself _) env idx)).mono
      fun t p hp _ hfits v hv => ?_
    obtain ⟨-, Γ, hΓ, hiter⟩ := hfits
    simp only [iterates, hv, beq_iff_eq] at hiter
    -- each domain is the one that the iterator at its place runs over
    have hdomains : List.Forall₂ (fun e symbol => Γ.domainOf e = some symbol) idx v.domains := by
      rw [← List.forall₂_eq_eq_eq, List.forall₂_map_left_iff, List.forall₂_map_right_iff] at hiter
      exact hiter
    refine forall₂_of_common hdomains hp fun e symbol x hsymbol hx => ?_
    obtain ⟨i, w, rfl, hw, y, hy, hwy⟩ := hΓ.get? hsymbol
    exact ⟨y, hy, (hx i w rfl hw).trans hwy⟩
  dexpr s e env := by
    by_cases hbound : ∃ i v, e = .name i ∧ env.get? i = some v
    · obtain ⟨i, v, rfl, hv⟩ := hbound
      simp only [substitute, hv]
      refine ensures_ofExcept fun e' he' t _ hfits symbol hsymbol => ?_
      obtain ⟨-, Γ, hΓ, hiter⟩ := hfits
      simp only [iterates, hsymbol, Option.all_some, beq_iff_eq] at hiter
      obtain ⟨_, w, ⟨⟩, hw, x, hx, hwx⟩ := hΓ.get? hiter
      obtain rfl := Option.some.inj (hv.symm.trans hw)
      exact ⟨v, x, hx, hΓ.exact s symbol x hsymbol hx, hwx, he'⟩
    · refine (exprSubstitute (lookup_advances hself _) trivial e rfl).mono
        fun t e' _ _ hfits symbol hsymbol => ?_
      obtain ⟨-, Γ, hΓ, hiter⟩ := hfits
      simp only [iterates, hsymbol, Option.all_some, beq_iff_eq] at hiter
      obtain ⟨i, v, hi, hv, _⟩ := hΓ.get? hiter
      exact absurd ⟨i, v, hi, hv⟩ hbound
  index s e env := by
    intro st v st' hst hv
    have hadvances : (e.value r.lookup env).Advances keyed :=
      exprValue (lookup_advances hself _) e rfl
    obtain ⟨hlater, -⟩ := hadvances hst hv
    refine ⟨hlater, fun t ht _ hopens symbol hsymbol => ?_⟩
    obtain ⟨u, x, hx, hexact, hux, he⟩ := hopens symbol hsymbol
    exact ⟨x, hx, by rw [Value.normalize_normalize, Value.normalize_of_isExact hexact hux he hv]⟩
  arith h := by
    obtain ⟨⟨hl, hr⟩, Γ, hΓ, hiter⟩ := h
    simp only [iterates, Bool.and_eq_true] at hiter
    exact ⟨⟨hl, Γ, hΓ, hiter.1⟩, hr, Γ, hΓ, hiter.2⟩
  neg h := h
  sum h hbinds := by
    obtain ⟨hbody, Γ, hΓ, hiter⟩ := h
    exact ⟨hbody, Γ.enter _, hΓ.enter hbinds, hiter⟩
  enumerate its c env hf := by
    refine (enumerate_binds (lookup_advances hself _) (source_resolved hself r) hf its c env).mono
      fun t xs hxs hrt x hx => ?_
    obtain ⟨inner, hinner, hQ⟩ := hxs x hx
    exact ⟨inner, hinner.mono fun it v hv => hv hrt, hQ⟩

/-! ## Problems -/

/-- Under the iterators around a constraint, its indices are iterators over their domains. -/
theorem Rule.At.iterates {R : Rule K} {env inner : Env K} {c : Constraint K}
    (h : R.At (Judgement.within.binds t) env c inner) {Γ : Scope} (hΓ : t.Types Γ env)
    (hR : R.iterates t.vars t.dexprs Γ = true) :
    ∃ Γ', t.Types Γ' inner ∧ (arith .sub c.lhs c.rhs).iterates t.vars t.dexprs Γ' = true := by
  induction h generalizing Γ with
  | single =>
    simp only [Rule.iterates] at hR
    exact ⟨Γ, hΓ, by simpa only [Expr.iterates] using hR⟩
  | family hits hr _ ih =>
    exact ih (hΓ.enter hits) (Rule.iterates_of_mem hR hr)

theorem Judgement.admits_within (ht : t.IsExact) {stmt : Statement K}
    (hscalars : stmt.Has (Scalars t.vars)) (hiter : stmt.iterates t.vars t.dexprs = true) :
    within.Admits t stmt := by
  have hempty : t.Types [] Env.empty := ⟨ht, .nil⟩
  cases stmt with
  | rule R => exact fun c inner hat => ⟨hscalars c hat.states, hat.iterates hempty hiter⟩
  | goal g => exact ⟨hscalars, [], hempty, hiter⟩
  | _ => trivial

theorem Judgement.bodies_within (ht : t.IsExact) (hscalars : t.BodiesDeclared)
    (hiter : ∀ d ∈ t.dexprs.values, d.body.iterates t.vars t.dexprs (.ofDexpr d) = true) :
    (within : Judgement K).Bodies t := by
  intro s d hd env
  have hbody := hiter d (List.mem_map_of_mem (Table.mem_of_find? hd))
  refine ⟨fun hindex => ⟨hscalars hd, [], ⟨ht, .nil⟩, ?_⟩, fun i v hindex hv =>
    ⟨hscalars hd, [(i, d.domain)], ⟨ht, .cons ⟨rfl, fun symbol hsymbol => hv symbol ?_⟩ .nil⟩, ?_⟩⟩
  · simpa only [Scope.ofDexpr, hindex] using hbody
  · simpa only [indexDomain?, hd, Option.bind_some] using hsymbol
  · simpa only [Scope.ofDexpr, hindex] using hbody

/-- Every variable of a built model comes from a declared variable with as many domains as its index
has components, and is named by its symbol and index. Where the statements and decision expressions
index variables and decision expressions by iterators over their domains, and those of decision
expressions have no elements that are rounded, the components are elements of the domains. -/
theorem origins_of_built {w w' : Workspace K} (hw : w.problem.Reached)
    (h : Work.build.Returns w () w') {n : String} {o : Origin K}
    (ho : (n, o) ∈ w'.problem.model.origins.toList) :
    w'.problem.registry.Names n o ∧
      ((∀ {v w : Value K}, (v == w) = true → (w == w) = true) → w.problem.iterates = true →
        w'.problem.registry.IsExact → w'.problem.registry.Within o) := by
  obtain ⟨hdeclared, qs, s', hqs, hregistry, hrefers, hnames⟩ := hw.isDeclared.build h
  have hmem := hrefers.origins _ ho
  refine ⟨hnames _ hmem, fun hself hiter hexact => ?_⟩
  have hkeyed : w.problem.registry.Keyed := hw.keyed hself
  obtain ⟨hkept, hwithin⟩ := Sound.referencesOf (within_sound hself) _ (by exact hkeyed) hqs
  obtain ⟨m, s₁, _, hw'⟩ := Work.returns_build h
  have hstatements : w'.problem.statements = w.problem.statements := by rw [hw']
  rw [hregistry] at hkept hwithin
  simp only [Problem.iterates, Bool.and_eq_true, List.all_eq_true] at hiter
  rw [← hkept.vars, ← hkept.dexprs] at hiter
  refine hwithin (.refl _) (bodies_within hexact hdeclared.bodies hiter.2) ?_ _ hmem
  intro stmt hstmt
  exact admits_within hexact (hdeclared.statements stmt (hstatements ▸ hstmt)) (hiter.1 stmt hstmt)

/-- The elements of a domain that is no family are those that it is resolved to. -/
theorem Registry.HasElement.mem {symbol : String} {v : Value K} (h : t.HasElement symbol v)
    (hplain : t.isFamily symbol = false) {warnings : List String} {vs : List (Value K)}
    {s' : Store K} (hvs : (resolveDomain symbol Env.empty none).Returns ⟨t, warnings⟩ vs s') :
    v ∈ vs := by
  obtain ⟨env, us, hus, hv, henv⟩ := h
  obtain rfl := henv hplain
  obtain ⟨_, hagain, -⟩ := hus warnings
  rwa [(hvs.unique hagain).1]

/-- Two variables that a sum, a family of decision expressions and one of constraints run over. -/
def boundedPair : Work Float Unit :=
  Work.addScript false "range I = 1..2; dvar float x[I]; dexpr float d[i in I] = 2*x[i];
    minimize sum(i in I) d[i]; forall(i in I) x[i] <= 1;"

theorem origins_of_built_boundedPair : ∃ w w' : Workspace Float, w.problem.Reached ∧
    Work.build.Returns w () w' ∧ w.problem.iterates = true ∧ w'.problem.registry.IsExact ∧
    ("x2", "x", some [.int 2]) ∈ w'.problem.model.origins.toList ∧
    w'.problem.registry.Names "x2" ("x", some [.int 2]) ∧
    w'.problem.registry.Within ("x", some [.int 2]) := by
  have hrun : ((do
      boundedPair
      let p ← Work.problem
      Work.build
      let q ← Work.problem
      let vs ← Work.ofRun (resolveDomain "I" Env.empty none)
      return (p.iterates && q.model.origins.toList.any (Reference.isAt "x2" "x" 2),
        q.registry.dexprs.values.all fun d => d.domain == some "I",
        !q.registry.isFamily "I" && vs.all (·.isExact)) :
        Work Float (Bool × Bool × Bool)).carry blankWorkspace).1.toOption =
          some (true, true, true) := by
    decide +kernel
  obtain ⟨w'', h⟩ := Work.returns_of_toOption hrun
  obtain ⟨_, w, hscript, h⟩ := Work.returns_bind.1 h
  replace h := Work.returns_problem_bind.1 h
  obtain ⟨_, w', hbuild, h⟩ := Work.returns_bind.1 h
  replace h := Work.returns_problem_bind.1 h
  obtain ⟨vs, _, hvs, h⟩ := Work.returns_bind.1 h
  have hfound := (Work.returns_pure.1 h).1
  simp only [Prod.mk.injEq, Bool.and_eq_true, Bool.not_eq_true', List.all_eq_true,
    beq_iff_eq] at hfound
  obtain ⟨⟨hiter, hany⟩, hdomains, hplain, hall⟩ := hfound
  have hq := mem_of_any_isAt hany
  have hw := Problem.Reached.script (.start none none none) hscript
  obtain ⟨s', hs', -⟩ := Work.returns_ofRun.1 hvs
  have hexact : w'.problem.registry.IsExact := by
    intro s symbol v hsymbol hv
    obtain ⟨d, hd, hdomain⟩ := Option.bind_eq_some_iff.1 hsymbol
    obtain rfl : "I" = symbol := by
      simpa [hdomain] using (hdomains d (List.mem_map_of_mem (Table.mem_of_find? hd))).symm
    exact hall v (hv.mem hplain hs')
  obtain ⟨hnames, hwithin⟩ := origins_of_built hw hbuild hq
  exact ⟨w, w', hw, hbuild, hiter, hexact, hq, hnames, hwithin Value.beq_self hiter hexact⟩

/-- A family of constraints whose last index leads beyond the domain of the variable. -/
def stepBeyond : Work Float Unit :=
  Work.addScript false "range I = 1..2; dvar float x[I]; forall(i in I) x[i+1] <= 1;"

/-- Whether a value is a whole number. -/
def Value.isWhole (i : Int) : Value K → Bool
  | .int j => j == i
  | _ => false

/-- In general, a variable of a built model need not lie in its domain. -/
theorem origin_outside_domain : ∃ w w' : Workspace Float, w.problem.Reached ∧
    Work.build.Returns w () w' ∧ ("x3", "x", some [.int 3]) ∈ w'.problem.model.origins.toList ∧
    ¬ w'.problem.registry.Within ("x", some [.int 3]) := by
  have hrun : ((do
      stepBeyond
      Work.build
      let q ← Work.problem
      let vs ← Work.ofRun (resolveDomain "I" Env.empty none)
      return (q.model.origins.toList.any (Reference.isAt "x3" "x" 3),
        (q.registry.vars.find? "x").map (·.domains), q.registry.isFamily "I",
        vs.any fun v => v.normalize.isWhole 3) :
          Work Float (Bool × Option (List String) × Bool × Bool)).carry
            blankWorkspace).1.toOption = some (true, some ["I"], false, false) := by
    decide +kernel
  obtain ⟨w'', h⟩ := Work.returns_of_toOption hrun
  obtain ⟨_, w, hscript, h⟩ := Work.returns_bind.1 h
  obtain ⟨_, w', hbuild, h⟩ := Work.returns_bind.1 h
  replace h := Work.returns_problem_bind.1 h
  obtain ⟨vs, _, hvs, h⟩ := Work.returns_bind.1 h
  obtain ⟨hany, hrest⟩ := Prod.mk.inj (Work.returns_pure.1 h).1
  obtain ⟨hdomains, hrest⟩ := Prod.mk.inj hrest
  obtain ⟨hplain, hnone⟩ := Prod.mk.inj hrest
  refine ⟨w, w', .script (.start none none none) hscript, hbuild, mem_of_any_isAt hany,
    fun hwithin => ?_⟩
  obtain ⟨v, hv, hvdomains⟩ := Option.map_eq_some_iff.1 hdomains
  have hall := hwithin v hv
  rw [hvdomains] at hall
  cases hall with
  | cons hfirst _ =>
    obtain ⟨e, he, hthree⟩ := hfirst
    obtain ⟨s', hs', _⟩ := Work.returns_ofRun.1 hvs
    have hno := List.any_eq_false.1 hnone e (he.mem hplain hs')
    simp [← hthree, Value.isWhole] at hno

end LinearModel
