import LinearModel.Proofs.BuiltModel
import LinearModel.Proofs.Workspace

/-!
# References to declared variables

Evaluation leaves the declared variables and decision expressions as they are. A reference is made
only after its variable was looked up and its index was counted, and a scalar variable is read only
where it is declared. So every reference of a model that is built from statements goes to a declared
variable, under the name that its index gives it.
-/
namespace LinearModel

open Run Simulation Registry Progress Judgement Expr Work

variable {K : Type} {α β : Type} {P : Table String (Variable K) → Expr K → Prop} {r t : Registry K}
  {G : Progress K} {stmt : Statement K} {p : Problem K}

/-! ## Evaluation leaves declarations -/

/-- An account of progress that does not mind what evaluation enters into the registry. -/
structure Progress.Absorbs [Scalar K] (G : Progress K) : Prop where
  stored : ∀ r (p : Parameter K), G.later r (r.putParameter p)
  range : ∀ r s (f : BoundRange K → BoundRange K), G.later r (r.changeRange s f)
  members : ∀ r s (f : ComputedSet K → ComputedSet K), G.later r (r.changeMembers s f)

namespace Progress.Absorbs

variable [Scalar K] {G : Progress K} {L : Lookup K}

theorem defineParameter (hG : G.Absorbs) (hL : (advancing G).Lookups L L)
    (p : Parameter K) (e : Expr K) : (defineParameter L p e).Advances G := by
  rw [defineParameter_eq, draftParameter_eq]
  refine Advances.andThen (Advances.andThen (advances_modifyRegistry fun r => hG.stored r _)
    fun _ => ?_) fun _ => advances_modifyRegistry fun r => ?_
  · refine Simulation.fillParameter hL (rfl : Env.empty = Env.empty) (.inl trivial)
      fun place v => ?_
    refine advances_registry fun r => ?_
    split
    · exact ensures_fail
    · exact (advances_ofExcept _).andThen fun p => advances_modifyRegistry fun r => hG.stored r p
  · unfold closeParameter
    split
    exacts [hG.stored r _, G.refl r]

theorem domainElements (hG : G.Absorbs) (hL : (advancing G).Lookups L L)
    (symbol : String) (env : Env K) (given : Option (Value K)) :
    (domainElements L symbol env given).Advances G := by
  have hallows : ∀ {A qs}, (advancing G).comparison.Allows A qs :=
    allows (.inl trivial)
  refine Comparison.domainElements (R := (advancing G).comparison) (M := L) (b := env)
    (fun h => by rw [h]) (fun _ _ => ?_) fun _ _ => ?_
  · exact Comparison.rangeElements hL.compared (meets (rfl : env.spawn = env.spawn))
      hallows (fun h => by rw [h]) fun f _ => advances_modifyRegistry fun r => hG.range r _ f
  · exact Comparison.memberElements hL.compared (memberScope_meets fun _ => rfl) hallows
      fun f _ => advances_modifyRegistry fun r => hG.members r _ f

/-- Looking things up is progress, as deep as it goes. -/
theorem lookups (hG : G.Absorbs) : ∀ n, (advancing G).Lookups (lookup n) (lookup n)
  | 0 => ⟨fun _ _ => ensures_fail, fun _ _ _ => ensures_fail, fun _ _ _ _ _ => ensures_fail⟩
  | n + 1 =>
    have hL := hG.lookups n
    ⟨fun _ idx => Comparison.parameterValue (R := (advancing G).comparison)
        (M := lookup n) idx (fun h => by rw [h]) fun _ _ _ => hG.defineParameter hL _ _,
      fun {env _} s given _ => hG.domainElements hL s env given,
      fun _ _ _ e h => exprNumber hL e h⟩

end Progress.Absorbs

theorem Progress.Absorbs.evaluateValue [Scalar K] (hG : G.Absorbs) (e : Expr K)
    (env : Env K) : (e.evaluateValue env).Advances G := by
  simp only [Expr.evaluateValue, Run.lookup, bind_assoc, pure_bind]
  exact advances_registry fun r => exprValue (hG.lookups _) e rfl

theorem Progress.Absorbs.resolveDomain [Scalar K] (hG : G.Absorbs) (symbol : String)
    (env : Env K) (given : Option (Value K)) : (resolveDomain symbol env given).Advances G := by
  simp only [LinearModel.resolveDomain, Run.lookup, bind_assoc, pure_bind]
  exact advances_registry fun r => (hG.lookups _).elements symbol given rfl

/-- The declared variables and decision expressions stay as they are. -/
def Progress.declared : Progress K where
  holds _ := True
  later r t := t.vars = r.vars ∧ t.dexprs = r.dexprs
  refl _ := ⟨rfl, rfl⟩
  trans h h' := ⟨h'.1.trans h.1, h'.2.trans h.2⟩
  kept _ _ := trivial

theorem Run.Advances.keeps {x : Run K α} (hx : x.Advances declared) :
    Run.Preserves (fun t => t.vars = r.vars ∧ t.dexprs = r.dexprs) x :=
  fun _ _ _ hs h => declared.trans hs (hx trivial h).1

theorem Progress.declared_absorbs [Scalar K] : (declared : Progress K).Absorbs where
  stored _ _ := ⟨rfl, rfl⟩
  range r s f := by
    unfold changeRange
    split <;> exact ⟨rfl, rfl⟩
  members r s f := by
    unfold changeMembers
    split <;> exact ⟨rfl, rfl⟩

/-! ## Names -/

/-- A reference to a declared variable: its index has one component for each index domain, its name
is the one of the variable at that index, and no scalar variable is called the same. -/
structure Registry.Names [Scalar K] (r : Registry K) (n : String) (o : Origin K) : Prop where
  declared : ∃ v, r.vars.find? o.1 = some v ∧ (o.2.getD []).length = v.dim
  named : n = Variable.nameAt o.1 (o.2.getD [])
  free : n ≠ o.1 → ∀ v, r.vars.find? n = some v → v.dim ≠ 0

/-- Iterators are bound one after the other, each to a value of which something holds. -/
inductive Env.BindsEach (P : Iter K → Value K → Prop) : List (Iter K) → Env K → Env K → Prop
  | nil {env : Env K} : BindsEach P [] env env
  | cons {it : Iter K} {its : List (Iter K)} {env inner : Env K} {v : Value K} (hv : P it v)
      (h : BindsEach P its (env.bind it.symbol v) inner) : BindsEach P (it :: its) env inner

theorem Env.BindsEach.mono {P P' : Iter K → Value K → Prop} (hP : ∀ it v, P it v → P' it v)
    {its : List (Iter K)} {env inner : Env K} (h : BindsEach P its env inner) :
    BindsEach P' its env inner := by
  induction h with
  | nil => exact .nil
  | cons hv _ ih => exact .cons (hP _ _ hv) ih

/-- An expression whose variables without an index, as far as its terms show them, are declared as
scalar variables. -/
def Expr.Scalars (vars : Table String (Variable K)) : Expr K → Prop
  | .var n b idx => n = b ∧ idx = none ∧ ∃ v, vars.find? b = some v ∧ v.dim = 0
  | .arith _ l r => l.Scalars vars ∧ r.Scalars vars
  | .neg e => e.Scalars vars
  | .sum _ body _ => body.Scalars vars
  | _ => True

section Names

variable [Scalar K]

theorem Variable.nameAt_nil (symbol : String) : Variable.nameAt symbol ([] : Index K) = symbol := by
  simp [Variable.nameAt]

/-- A scalar variable is named by its symbol. -/
theorem Registry.names_scalar {s : String} {v : Variable K} (hv : r.vars.find? s = some v)
    (hdim : v.dim = 0) : r.Names s (s, none) where
  declared := ⟨v, hv, hdim.symm⟩
  named := (Variable.nameAt_nil s).symm
  free h := absurd rfl h

/-- The variable at an index is referred to by its name there. -/
theorem variableAt_names (hG : ∀ {r t}, G.later r t → t.vars = r.vars)
    (s : String) {x : Run K (Index K)} (hx : x.Advances G) :
    (variableAt s x).EnsuresFrom G fun t p => t.Names p.1 (s, some p.2) := by
  refine EnsuresFrom.bind (P := fun t v => t.vars.find? s = some v) ?_ fun v => ?_
  · refine ensures_registry fun r => ?_
    cases hv : r.vars.find? s with
    | none => exact ensures_fail
    | some v => exact ensures_pure fun t _ ht => by rw [hG ht, hv]
  refine hx.bind fun idx => ?_
  unfold singleVariable
  split
  · exact ensures_fail
  · rename_i hdim
    refine ensures_registry fun r => ?_
    dsimp only
    split
    · exact ensures_fail
    · rename_i hfree
      refine ensures_pure fun t _ ht _ hv =>
        ⟨⟨v, hv, not_not.1 hdim⟩, rfl, fun hne w hw hzero => ?_⟩
      rw [hG ht] at hw
      simp [hw, hzero, hne] at hfree

section Enumeration

variable {L : Lookup K} (hL : (advancing G).Lookups L L)

include hL

/-- What is listed was found with each iterator bound to an element of its source. -/
theorem enumerate_binds {B : Registry K → Iter K → Value K → Prop}
    (hB : ∀ it env, (sourceElements L it.source env).EnsuresFrom G fun t vs => ∀ v ∈ vs, B t it v)
    {f : Env K → Run K α} {Q : Registry K → Env K → α → Prop}
    (hf : ∀ inner, (f inner).EnsuresFrom G fun t x => Q t inner x) (its : List (Iter K))
    (c : Option (Expr K)) (env : Env K) : (enumerate L its c env f).EnsuresFrom G fun t xs =>
      ∀ x ∈ xs, ∃ inner, Env.BindsEach (B t) its env inner ∧ Q t inner x := by
  have hvisit : ∀ {last : Env K → Run K (List α)},
      (∀ inner, (last inner).EnsuresFrom G fun t xs => ∀ x ∈ xs, Q t inner x) →
        ∀ (its : List (Iter K)) env, (Stage.visit (stages L its) last env).EnsuresFrom G fun t xs =>
          ∀ x ∈ xs, ∃ inner, Env.BindsEach (B t) its env inner ∧ Q t inner x := by
    intro last hlast its
    induction its with
    | nil => exact fun env => (hlast env).mono fun t xs hxs x hx => ⟨env, .nil, hxs x hx⟩
    | cons it its ih =>
      intro env
      simp only [stages, Stage.visit, stage_symbol, stage_elements, stage_admits]
      refine (hB it env).bind fun vs => ?_
      refine (ensures_mapM (P := fun v t xs => ∀ x ∈ xs, ∃ inner,
        Env.BindsEach (B t) its (env.bind it.symbol v) inner ∧ Q t inner x) vs fun v => ?_).bind
          fun found => ensures_pure fun t hfound hvs x hx => ?_
      · refine (exprHolds hL it.filter rfl).bind fun passes => ?_
        cases passes with
        | true => exact (ih _).mono fun _ _ h _ => h
        | false => exact ensures_pure fun t _ => by simp
      · obtain ⟨xs, hxs, hx⟩ := List.mem_flatten.1 hx
        obtain ⟨i, hi, rfl⟩ := List.mem_iff_getElem.1 hxs
        have hi' : i < vs.length := hfound.length_eq ▸ hi
        obtain ⟨inner, hinner, hQ⟩ := hfound.get hi' hi x hx
        exact ⟨inner, .cons (hvs _ (List.getElem_mem hi')) hinner, hQ⟩
  simp only [enumerate, Stage.enumerate]
  split
  · exact ensures_fail
  · refine hvisit (fun inner => ?_) its env
    refine (exprHolds hL c rfl).bind fun holds => ?_
    cases holds with
    | true =>
      refine (hf inner).bind fun x => ensures_pure fun t hx _ y hy => ?_
      obtain rfl := List.mem_singleton.1 hy
      exact hx
    | false => exact ensures_pure fun t _ => by simp

/-- Enumerating is progress, and what is listed was found under some bindings. -/
theorem enumerate_advances {f : Env K → Run K α} {Q : Registry K → Env K → α → Prop}
    (hf : ∀ inner, (f inner).EnsuresFrom G fun t x => Q t inner x) (its : List (Iter K))
    (c : Option (Expr K)) (env : Env K) :
    (enumerate L its c env f).EnsuresFrom G fun t xs => ∀ x ∈ xs, ∃ inner, True ∧ Q t inner x := by
  refine (enumerate_binds hL (B := fun _ _ _ => True) (fun it env => ?_) hf its c env).mono
    fun t xs h x hx => ?_
  · exact (exprSource hL it.source rfl).mono fun _ _ _ _ _ => trivial
  · obtain ⟨inner, -, hQ⟩ := h x hx
    exact ⟨inner, trivial, hQ⟩

end Enumeration

/-! ## Judgements that ask little of bindings -/

/-- Nothing is said of any reference. -/
def Judgement.any : Judgement K where
  names _ _ _ := True
  fits _ _ _ := True
  binds _ _ _ _ := True

theorem Judgement.any_sound (hL : (advancing G).Lookups r.lookup r.lookup)
    (hG : ∀ {r t}, G.later r t → t.dexprs = r.dexprs) : (any : Judgement K).Sound G r where
  lookups := hL
  dexprs := hG
  var _ := trivial
  ivar s idx env :=
    (Simulation.variableAt s (exprElements hL idx rfl)).mono fun _ _ _ _ _ => trivial
  dexpr s e env := (exprSubstitute hL trivial e rfl).mono fun _ _ _ _ _ => trivial
  index s e env := (exprValue hL e rfl).mono fun _ _ _ _ _ => trivial
  arith _ := ⟨trivial, trivial⟩
  neg _ := trivial
  sum _ _ := trivial
  enumerate its c env hf := (enumerate_advances hL hf its c env).mono fun t xs h _ => h

/-- References go to declared variables, whatever iterators are bound to. -/
def Judgement.declared : Judgement K where
  names := Names
  fits t _ e := e.Scalars t.vars
  binds _ _ _ _ := True

theorem Judgement.declared_sound (r : Registry K) :
    (declared : Judgement K).Sound Progress.declared r where
  lookups := declared_absorbs.lookups _
  dexprs h := h.2
  var := by
    rintro t env n b idx ⟨rfl, rfl, v, hv, hdim⟩
    exact names_scalar hv hdim
  ivar s idx env := by
    have hidx := exprElements (declared_absorbs.lookups (r.size + familyDepth)) idx
      (rfl : env = env)
    exact (variableAt_names (G := Progress.declared) (fun h => h.1) s hidx).mono fun _ _ h _ _ => h
  dexpr s e env :=
    (exprSubstitute (declared_absorbs.lookups _) trivial e rfl).mono fun _ _ _ _ _ => trivial
  index s e env := (exprValue (declared_absorbs.lookups _) e rfl).mono fun _ _ _ _ _ => trivial
  arith h := h
  neg h := h
  sum h _ := h
  enumerate its c env hf :=
    (enumerate_advances (declared_absorbs.lookups _) hf its c env).mono fun t xs h _ => h

end Names

/-! ## Problems -/

/-- What is declared in the first table is declared in the second. -/
def Table.Extends (t u : Table String α) : Prop := ∀ ⦃s a⦄, t.find? s = some a → u.find? s = some a

theorem Expr.Scalars.mono {vars vars' : Table String (Variable K)} (hvars : vars.Extends vars') :
    ∀ {e : Expr K}, e.Scalars vars → e.Scalars vars'
  | .var _ _ _, ⟨hn, hidx, v, hv, hdim⟩ => ⟨hn, hidx, v, hvars hv, hdim⟩
  | .arith _ _ _, h => ⟨h.1.mono hvars, h.2.mono hvars⟩
  | .neg e, h => Scalars.mono (e := e) hvars h
  | .sum _ body _, h => Scalars.mono (e := body) hvars h
  | .num _, _ | .str _, _ | .record _ _, _ | .name _, _ | .param _ _, _ | .ivar _ _, _
  | .dexpr _ _, _ | .rel _ _ _, _ | .logic _ _, _ | .field _ _, _ | .item _ _, _ => trivial

theorem Statement.Has.mono {P P' : Expr K → Prop} (hP : ∀ {e}, P e → P' e)
    (h : stmt.Has P) : stmt.Has P' := by
  cases stmt with
  | rule R => exact fun c hc => ⟨hP (h c hc).1, hP (h c hc).2⟩
  | goal g => exact hP h
  | _ => trivial

/-- A name is read as a scalar variable only where it is declared as one. -/
theorem Registry.forms_scalars [Scalar K] (r : Registry K) : r.Forms (Scalars r.vars) where
  num _ := trivial
  str _ := trivial
  name _ := trivial
  resolve {symbol idx e} _ h := by
    unfold Grammar.resolve at h
    split at h
    · rename_i v hv
      split at h
      · rename_i hdim
        cases h
        simp only [Bool.and_eq_true, decide_eq_true_eq] at hdim
        exact ⟨rfl, rfl, v, hv, hdim.1⟩
      · cases h
        trivial
    · split at h
      · split at h <;> cases h <;> trivial
      · split at h <;> cases h <;> trivial
  arith _ _ _ hl hr := ⟨hl, hr⟩
  neg he := he
  rel _ _ _ _ _ := trivial
  logic _ _ _ _ := trivial
  field _ _ := trivial
  item _ _ _ := trivial
  iter _ _ _ _ _ := trivial
  sum _ hbody _ := hbody

/-- A property of expressions, told by the declared variables, that the grammar forms and that
further declarations keep. -/
structure Expr.IsLasting [Scalar K] (P : Table String (Variable K) → Expr K → Prop) : Prop where
  forms : ∀ r : Registry K, r.Forms (P r.vars)
  mono : ∀ {vars vars' e}, vars.Extends vars' → P vars e → P vars' e

theorem Expr.isLasting_scalars [Scalar K] : IsLasting (Scalars (K := K)) :=
  ⟨forms_scalars, fun hvars => Scalars.mono hvars⟩

/-- The bodies of decision expressions have a property. -/
def Registry.BodiesHave (P : Table String (Variable K) → Expr K → Prop) (r : Registry K) : Prop :=
  ∀ ⦃s d⦄, r.dexprs.find? s = some d → P r.vars d.body

/-- The bodies of decision expressions read scalar variables only where they are declared. -/
abbrev Registry.BodiesDeclared (r : Registry K) : Prop := r.BodiesHave Scalars

theorem Registry.BodiesHave.of_same (hr : r.BodiesHave P) (hvars : t.vars = r.vars)
    (hdexprs : t.dexprs = r.dexprs) : t.BodiesHave P := by
  intro s d hd
  rw [hdexprs] at hd
  rw [hvars]
  exact hr hd

theorem Registry.declare_extends {e : Entity K} (h : r.declare e = .ok t) :
    r.vars.Extends t.vars := by
  unfold declare at h
  split at h
  · cases h
  · rename_i hdeclared
    cases h
    cases e with
    | decisionVariable v =>
      intro s w hw
      have hne : v.symbol ≠ s := by
        rintro rfl
        simp [isDeclared, Table.contains, Entity.symbol, hw] at hdeclared
      simpa [Registry.put, Table.find?_insert_of_ne _ _ hne] using hw
    | domain d => cases d <;> exact fun _ _ hw => hw
    | _ => exact fun _ _ hw => hw

theorem Registry.BodiesHave.declare [Scalar K]
    (hP : IsLasting P) {e : Entity K} (hr : r.BodiesHave P)
    (he : e.IsNew (P r.vars)) (h : r.declare e = .ok t) : t.BodiesHave P := by
  have hvars := declare_extends h
  have hold : ∀ {s d}, r.dexprs.find? s = some d → P t.vars d.body :=
    fun hd => hP.mono hvars (hr hd)
  unfold Registry.declare at h
  split at h
  · cases h
  · cases h
    cases e with
    | dexpr d =>
      intro s d' hd'
      exact Table.forall_insert (P := fun _ (d : DecisionExpression K) => P r.vars d.body)
        (fun hd => hr hd) he hd'
    | domain d => cases d <;> exact fun _ _ => hold
    | _ => exact fun _ _ => hold

/-- A problem whose statements and decision expressions have a property. -/
structure Problem.Has (P : Table String (Variable K) → Expr K → Prop) (p : Problem K) : Prop where
  bodies : p.registry.BodiesHave P
  statements : ∀ stmt ∈ p.statements, stmt.Has (P p.registry.vars)

theorem Problem.Has.of_same {p q : Problem K}
    (hp : p.Has P) (hvars : q.registry.vars = p.registry.vars)
    (hdexprs : q.registry.dexprs = p.registry.dexprs) (hstmts : q.statements = p.statements) :
    q.Has P where
  bodies := hp.bodies.of_same hvars hdexprs
  statements := by
    rw [hstmts, hvars]
    exact hp.statements

/-- A problem whose statements and decision expressions read scalar variables where they are
declared. -/
abbrev Problem.IsDeclared (p : Problem K) : Prop := p.Has Scalars

/-- What a rule states in some environment, it states. -/
theorem Rule.At.states {binds : List (Iter K) → Env K → Env K → Prop} {R : Rule K}
    {env inner : Env K} {c : Constraint K} (h : R.At binds env c inner) : R.States c := by
  induction h with
  | single => exact .single
  | family _ hr _ ih => exact .family hr ih

section Problems

variable [Scalar K]

/-- Reading a statement keeps earlier declarations, and gives a statement with every property that
lasts. -/
theorem parseStatement_has (hP : IsLasting P) {textual : Bool} {text : String} {s s' : Store K}
    (hs : s.registry.BodiesHave P) (h : (parseStatement textual text).Returns s stmt s') :
    s.registry.vars.Extends s'.registry.vars ∧ s'.registry.BodiesHave P ∧
      stmt.Has (P s'.registry.vars) := by
  have hInv : ReadsTo (K := K)
      (fun t => t.vars = s.registry.vars ∧ t.dexprs = s.registry.dexprs)
      (fun t => s.registry.vars.Extends t.vars ∧ t.BodiesHave P) (P s.registry.vars) := by
    refine ⟨⟨fun e => ?_, fun symbol => ?_⟩, ?_, ?_⟩
    · exact (declared_absorbs.evaluateValue e Env.empty).keeps
    · exact (declared_absorbs.resolveDomain symbol Env.empty none).keeps
    · rintro t ⟨hvars, hdexprs⟩
      exact ⟨fun b v hv => by rw [hvars, hv], hs.of_same hvars hdexprs⟩
    · rintro t e t' ⟨hvars, hdexprs⟩ he ht'
      rw [← hvars] at he
      exact ⟨hvars ▸ declare_extends ht', (hs.of_same hvars hdexprs).declare hP he ht'⟩
  obtain ⟨⟨hvars, hbodies⟩, hstmt⟩ :=
    parseStatement_leads hInv (hP.forms s.registry) rfl ⟨rfl, rfl⟩ h
  exact ⟨hvars, hbodies, hstmt.mono (hP.mono hvars)⟩

theorem Judgement.admits_declared (h : stmt.Has (Scalars t.vars)) : declared.Admits t stmt := by
  cases stmt with
  | rule R => exact fun c inner hat => h c hat.states
  | goal g => exact h
  | _ => trivial

/-- The references behind the model of a problem can be listed, the model refers to nothing else,
and every judgement that the statements and decision expressions allow holds of the references. -/
theorem Work.references_of_build {w w' : Workspace K} (h : build.Returns w () w') :
    ∃ qs s', (referencesOf w.problem.statements).Returns ⟨w.problem.registry, w.warnings⟩ qs s' ∧
      s'.registry = w'.problem.registry ∧ w'.problem.model.RefersTo qs ∧
      w'.problem.registry.vars = w.problem.registry.vars ∧
      w'.problem.registry.dexprs = w.problem.registry.dexprs ∧
      ∀ J : Judgement K, (∀ r, J.Sound declared r) → J.Bodies w'.problem.registry →
        (∀ stmt ∈ w'.problem.statements, J.Admits w'.problem.registry stmt) →
          ∀ q ∈ qs, J.names w'.problem.registry q.1 q.2 := by
  obtain ⟨m, s', hm, hw'⟩ := returns_build h
  obtain ⟨qs, s₁, hqs, hregistry, hrefers⟩ := Model.ofStatements_refersTo hm
  obtain ⟨⟨hvars, hdexprs⟩, -⟩ :=
    Sound.referencesOf declared_sound w.problem.statements trivial hqs
  have hregistry' : s₁.registry = w'.problem.registry := by rw [hw', hregistry]
  rw [hregistry'] at hvars hdexprs
  refine ⟨qs, s₁, hqs, hregistry', by rw [hw']; exact hrefers, hvars, hdexprs,
    fun J hJ hbodies hadmits => ?_⟩
  have hnames := (Sound.referencesOf hJ w.problem.statements trivial hqs).2
  rw [hregistry'] at hnames
  exact hnames ⟨rfl, rfl⟩ hbodies fun stmt hstmt => hadmits stmt (by rw [hw']; exact hstmt)

/-- A build keeps every property of the statements and decision expressions. -/
theorem Problem.Has.build {w w' : Workspace K} (hw : w.problem.Has P)
    (h : build.Returns w () w') : w'.problem.Has P := by
  obtain ⟨_, _, _, _, _, hvars, hdexprs, _⟩ := references_of_build h
  obtain ⟨m, s', _, hw'⟩ := returns_build h
  exact hw.of_same hvars hdexprs (by rw [hw'])

/-- The references behind the model of a problem can be listed, the model refers to nothing else,
and each reference names a declared variable. -/
theorem Problem.IsDeclared.build {w w' : Workspace K} (hw : w.problem.IsDeclared)
    (h : build.Returns w () w') :
    w'.problem.IsDeclared ∧ ∃ qs s', (referencesOf w.problem.statements).Returns
        ⟨w.problem.registry, w.warnings⟩ qs s' ∧ s'.registry = w'.problem.registry ∧
      w'.problem.model.RefersTo qs ∧ ∀ q ∈ qs, w'.problem.registry.Names q.1 q.2 := by
  have hdeclared : w'.problem.IsDeclared := Problem.Has.build hw h
  obtain ⟨qs, s₁, hqs, hregistry, hrefers, _, _, hnames⟩ := references_of_build h
  refine ⟨hdeclared, qs, s₁, hqs, hregistry, hrefers, hnames _ declared_sound ?_ ?_⟩
  · exact fun s d hd env => ⟨fun _ => hdeclared.bodies hd, fun _ _ _ _ => hdeclared.bodies hd⟩
  · exact fun stmt hstmt => admits_declared (hdeclared.statements stmt hstmt)

theorem Registry.renewed_declared (r : Registry K) :
    Renewed (fun t => t.vars = r.vars ∧ t.dexprs = r.dexprs)
      (fun t => t.vars = r.vars ∧ t.dexprs = r.dexprs) where
  stored _ _ h := h
  elements _ h := h
  records _ h := h
  forgotten h := h

/-- The statements and decision expressions of every problem that is reached have each property that
lasts. -/
theorem Problem.Reached.has (hP : IsLasting P) (h : p.Reached) : p.Has P := by
  induction h with
  | start name file description => exact ⟨fun _ _ hd => (nomatch hd), by simp [Problem.start]⟩
  | @added w w' textual text stmt _ h ih =>
    obtain ⟨s', hread, hregistry, hstmts⟩ := returns_addStatement h
    obtain ⟨hvars, hbodies, hstmt⟩ := parseStatement_has hP ih.bodies hread
    rw [← hregistry] at hvars hbodies hstmt
    refine ⟨hbodies, fun stmt' hstmt' => ?_⟩
    rw [hstmts, List.mem_append, List.mem_singleton] at hstmt'
    rcases hstmt' with hstmt' | rfl
    · exact (ih.statements stmt' hstmt').mono (hP.mono hvars)
    · exact hstmt
  | @data w w' x _ hx h ih =>
    obtain ⟨s', hs', rfl⟩ := returns_ofRun.1 h
    obtain ⟨⟨hvars, hdexprs⟩, _⟩ := hx.leads (renewed_declared w.problem.registry)
      ⟨rfl, rfl⟩ hs'
    exact ih.of_same hvars hdexprs rfl
  | @evaluated w w' e env v _ h ih =>
    obtain ⟨s', hs', rfl⟩ := returns_ofRun.1 h
    obtain ⟨⟨hvars, hdexprs⟩, _⟩ := declared_absorbs.evaluateValue e env trivial hs'
    exact ih.of_same hvars hdexprs rfl
  | built _ h ih => exact ih.build h

/-- An invariant of registries that holds at the start, and that every step on a problem keeps. A
build does to the registry what listing the references of the statements does. -/
structure Registry.Lasts (Inv : Registry K → Prop) : Prop where
  empty : Inv {}
  read : ∀ textual text, Run.Preserves Inv (parseStatement textual text)
  data : ∀ {x}, IsDataOperation x → Run.Preserves Inv x
  value : ∀ e env, Run.Preserves Inv (Expr.evaluateValue e env)
  references : ∀ stmts, Run.Preserves Inv (referencesOf stmts)

theorem Problem.Reached.keeps {Inv : Registry K → Prop} (hInv : Registry.Lasts Inv)
    (h : p.Reached) : Inv p.registry := by
  induction h with
  | start name file description => exact hInv.empty
  | added _ h ih =>
    obtain ⟨s', hread, hregistry, -⟩ := returns_addStatement h
    rw [hregistry]
    exact hInv.read _ _ ih hread
  | data _ hx h ih =>
    obtain ⟨s', hs', rfl⟩ := returns_ofRun.1 h
    exact hInv.data hx ih hs'
  | evaluated _ h ih =>
    obtain ⟨s', hs', rfl⟩ := returns_ofRun.1 h
    exact hInv.value _ _ ih hs'
  | built _ h ih =>
    obtain ⟨qs, s', hqs, hregistry, -⟩ := references_of_build h
    rw [← hregistry]
    exact hInv.references _ ih hqs

/-- Every problem that is reached reads scalar variables where they are declared. -/
theorem Problem.Reached.isDeclared (h : p.Reached) : p.IsDeclared :=
  h.has isLasting_scalars

end Problems

end LinearModel
