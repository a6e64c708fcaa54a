import LinearModel.Proofs.Expansion

/-!
# Occurrences of variables

The terms of an affine expression refer to single variables. Each reference comes from a place of
the expression, or of the body of a decision expression, where a variable stands with its index.
What holds of the variable at each of these places holds of every reference. This is shown once
here, for any property of references and for any account of how the registry changes on the way.
-/
namespace LinearModel

open Run Simulation Expr

variable {K : Type} {α β : Type}

/-- A reference to a single variable: its name, and the declaration and index it stands for. -/
abbrev Reference (K : Type) := String × Origin K

/-- The references in a list of terms. -/
def references (ts : List (Term K)) : List (Reference K) :=
  ts.filterMap fun
    | .occurrence n b idx _ => some (n, b, idx)
    | .constant _ => none

theorem references_append (ts us : List (Term K)) :
    references (ts ++ us) = references ts ++ references us := List.filterMap_append

/-- Whether a reference is that to the variable of a family at a whole number. -/
def Reference.isAt (n b : String) (i : Int) : Reference K → Bool
  | (n', b', some [.int j]) => n' == n && b' == b && j == i
  | _ => false

theorem mem_of_any_isAt {qs : List (Reference K)} {n b : String} {i : Int}
    (h : qs.any (Reference.isAt n b i) = true) : (n, b, some [.int i]) ∈ qs := by
  obtain ⟨q, hq, hat⟩ := List.any_eq_true.1 h
  unfold Reference.isAt at hat
  split at hat
  · simp only [Bool.and_eq_true, beq_iff_eq] at hat
    obtain ⟨⟨rfl, rfl⟩, rfl⟩ := hat
    exact hq
  · cases hat

/-- An expression without iterators whose variables, as far as its terms show them, have a property,
and whose decision expressions have indices with another one. -/
def Expr.Adds (P : String → Origin K → Prop) (O : String → Expr K → Prop) : Expr K → Prop
  | .var n b idx => P n (b, idx)
  | .ivar _ _ => False
  | .dexpr s (some e) => O s e
  | .arith _ l r => l.Adds P O ∧ r.Adds P O
  | .neg e => e.Adds P O
  | _ => True

namespace Expr

variable [Scalar K] {P : String → Origin K → Prop} {O : String → Expr K → Prop}

theorem adds_ofValue {v : Value K} {e : Expr K} (h : ofValue v = .ok e) : e.Adds P O := by
  cases v with
  | int i =>
    simp only [ofValue, Except.map] at h
    split at h
    · cases h
    · cases h
      trivial
  | record s vs | str s | bool b | real x => cases h; trivial
  | _ => cases h

theorem adds_chain {es : List (Expr K)} (h : ∀ e ∈ es, e.Adds P O) : (chain es).Adds P O := by
  have hfold : ∀ (es : List (Expr K)) {l : Expr K}, l.Adds P O → (∀ e ∈ es, e.Adds P O) →
      (es.foldl (.arith .add) l).Adds P O := by
    intro es
    induction es with
    | nil => exact fun hl _ => hl
    | cons e es ih =>
      intro l hl h
      rw [List.forall_mem_cons] at h
      exact ih ⟨hl, h.1⟩ h.2
  cases es with
  | nil => trivial
  | cons e es =>
    rw [List.forall_mem_cons] at h
    exact hfold es h.1 h.2

end Expr

/-! ## Reading from left to right -/

/-- What a computation returned some time before. -/
def Run.Returned (G : Progress K) (x : Run K α) (t : Registry K) (a : α) : Prop :=
  ∃ s s', G.holds s.registry ∧ x.Returns s a s' ∧ G.later s'.registry t

theorem Run.EnsuresFrom.returned {G : Progress K} {x : Run K α} {P : Registry K → α → Prop}
    (hx : x.EnsuresFrom G P) : x.EnsuresFrom G (x.Returned G) :=
  fun s _ s' hs hr => ⟨(hx hs hr).1, fun _ ht => ⟨s, s', hs, hr, ht⟩⟩

/-- The expressions inside one that is no variable, no decision expression and no arithmetic. -/
def Expr.inner? : Expr K → Option (List (Expr K))
  | .num _ | .str _ | .record _ _ | .name _ => some []
  | .param _ es | .logic _ es | .item _ es => some es
  | .rel _ l r => some [l, r]
  | .field e _ | .sum _ e _ => some [e]
  | .var _ _ _ | .ivar _ _ | .dexpr _ _ | .arith _ _ _ | .neg _ => none

section Reading

variable [Scalar K]

/-- The references that are met when expressions are read from left to right, each in its
environment. In place of a decision expression its body is read, with its index substituted. Outside
arithmetic no variable is met. -/
inductive Reads (G : Progress K) (L : Lookup K) (t : Registry K) :
    List (Env K × Expr K) → List (Reference K) → Prop
  | nil : Reads G L t [] []
  | var {a n b idx rest qs} (h : Reads G L t rest qs) :
    Reads G L t ((a, .var n b idx) :: rest) ((n, b, idx) :: qs)
  | ivar {a s idx n rest qs} (hn : (variableAt s (elements L idx a)).Returned G t n)
    (h : Reads G L t rest qs) :
    Reads G L t ((a, .ivar s idx) :: rest) ((n.1, s, some n.2) :: qs)
  | dexpr {a inside s idx body rest qs} (hin : a.enter s = .ok inside)
    (hbody : (unfoldDexpr L s idx inside).Returned G t body)
    (h : Reads G L t ((inside, body) :: rest) qs) : Reads G L t ((a, .dexpr s idx) :: rest) qs
  | arith {a op l r rest qs} (h : Reads G L t ((a, l) :: (a, r) :: rest) qs) :
    Reads G L t ((a, .arith op l r) :: rest) qs
  | neg {a e rest qs} (h : Reads G L t ((a, e) :: rest) qs) : Reads G L t ((a, .neg e) :: rest) qs
  | inner {a e es rest qs} (he : e.inner? = some es) (hes : Reads G L t (es.map (a, ·)) [])
    (h : Reads G L t rest qs) : Reads G L t ((a, e) :: rest) qs

/-- Reading some expressions meets some references first, whatever is left to be read. -/
def Passes (G : Progress K) (L : Lookup K) (t : Registry K) (es : List (Env K × Expr K))
    (ps : List (Reference K)) : Prop :=
  ∀ ⦃rest qs⦄, Reads G L t rest qs → Reads G L t (es ++ rest) (ps ++ qs)

variable {G : Progress K} {L : Lookup K} {t : Registry K} {a : Env K} {below : Descent K}

namespace Passes

theorem inner {e : Expr K} {es : List (Expr K)} (he : e.inner? = some es)
    (hes : Passes G L t (es.map (a, ·)) []) : Passes G L t [(a, e)] [] := by
  have hread := hes .nil
  rw [List.append_nil] at hread
  exact fun _ _ h => .inner he hread h

theorem arith {op : ArithOp} {l r : Expr K} {ps qs : List (Reference K)}
    (hl : Passes G L t [(a, l)] ps) (hr : Passes G L t [(a, r)] qs) :
    Passes G L t [(a, .arith op l r)] (ps ++ qs) := by
  intro rest us h
  rw [List.append_assoc]
  exact .arith (hl (hr h))

theorem dexpr {inside : Env K} {s : String} {idx : Option (Expr K)} {body : Expr K}
    {ps : List (Reference K)} (hin : a.enter s = .ok inside)
    (hbody : (unfoldDexpr L s idx inside).Returned G t body)
    (h : Passes G L t [(inside, body)] ps) : Passes G L t [(a, .dexpr s idx)] ps :=
  fun _ _ hrest => .dexpr hin hbody (h hrest)

end Passes

/-- A treatment of bodies that finds the references in them from left to right. -/
structure Descent.Reads (G : Progress K) (L : Lookup K) (below : Descent K) : Prop where
  isConstant : ∀ e a, (below.isConstant e a).EnsuresFrom G fun t c =>
    c = true → Passes G L t [(a, e)] []
  terms : ∀ e factor a, (below.terms e factor a).EnsuresFrom G fun t ts =>
    Passes G L t [(a, e)] (references ts)

mutual
/-- In an expression that is found constant no variable is met. -/
theorem isConstantLike_reads (hL : (advancing G).Lookups L L)
    (hbelow : below.Reads G L) : ∀ (e : Expr K) (a : Env K),
    (e.isConstantLike L below.isConstant a).EnsuresFrom G fun t c =>
      c = true → Passes G L t [(a, e)] []
  | .num _, a | .str _, a | .record _ _, a | .name _, a => by
    exact ensures_pure fun t _ => .inner rfl fun _ _ h => h
  | .var _ _ _, a | .ivar _ _, a => by
    exact ensures_pure fun t h => by cases h
  | .dexpr s idx, a => by
    refine EnsuresFrom.bind (P := fun _ inside => a.enter s = .ok inside)
      (ensures_ofExcept fun _ hin _ => hin) fun inside => ?_
    refine (Simulation.unfoldDexpr hL trivial s idx rfl).returned.bind fun body => ?_
    exact (hbelow.isConstant body inside).mono fun t c hc hbody hin h => .dexpr hin hbody (hc h)
  | .param _ es, a | .logic _ es, a | .item _ es, a => by
    exact (areConstantLike_read hL hbelow es a).mono fun t c hc h => .inner rfl (hc h)
  | .arith _ l r, a => by
    refine (isConstantLike_reads hL hbelow l a).bind fun b => ?_
    refine (isConstantLike_reads hL hbelow r a).bind fun c => ?_
    refine ensures_pure fun t hr hl h => ?_
    rw [Bool.and_eq_true] at h
    exact (hl h.1).arith (hr h.2)
  | .rel _ l r, a => by
    refine (isConstantLike_reads hL hbelow l a).bind fun b => ?_
    refine (isConstantLike_reads hL hbelow r a).bind fun c => ?_
    refine ensures_pure fun t hr hl h => ?_
    rw [Bool.and_eq_true] at h
    exact .inner rfl fun _ _ hrest => hl h.1 (hr h.2 hrest)
  | .neg e, a => by
    exact (isConstantLike_reads hL hbelow e a).mono fun t c hc h _ _ hrest => .neg (hc h hrest)
  | .field e _, a | .sum _ e _, a => by
    exact (isConstantLike_reads hL hbelow e a).mono fun t c hc h => .inner rfl (hc h)

theorem areConstantLike_read (hL : (advancing G).Lookups L L)
    (hbelow : below.Reads G L) : ∀ (es : List (Expr K)) (a : Env K),
    (areConstantLike L below.isConstant es a).EnsuresFrom G fun t c =>
      c = true → Passes G L t (es.map (a, ·)) []
  | [], a => by
    exact ensures_pure fun t _ _ _ h => h
  | e :: es, a => by
    refine (isConstantLike_reads hL hbelow e a).bind fun b => ?_
    refine (areConstantLike_read hL hbelow es a).bind fun c => ?_
    refine ensures_pure fun t hes he h _ _ hrest => ?_
    rw [Bool.and_eq_true] at h
    exact he h.1 (hes h.2 hrest)
end

theorem advances_scale (op : ArithOp) (f e : Expr K) : (scale op f e).Advances G :=
  ensures_registry fun _ => ensures_ofExcept fun _ _ _ _ _ => trivial

variable (hL : (advancing G).Lookups L L)

include hL

theorem advances_resolveConstant (e : Expr K) (a : Env K) : (e.resolveConstant L a).Advances G := by
  unfold resolveConstant
  split
  · exact (exprNumber hL e rfl).bind fun _ => ensures_pure fun _ _ => trivial
  · exact ensures_pure fun _ => trivial

/-- An expression that is constant is one term, and any other is left to be split. -/
theorem constantOr_reads (hbelow : below.Reads G L) (e factor : Expr K)
    {rest : Run K (List (Term K))}
    (hrest : rest.EnsuresFrom G fun t ts => Passes G L t [(a, e)] (references ts)) : (do
      if ← e.isConstantLike L below.isConstant a then
        return [Term.constant (← scale .mul factor (← e.resolveConstant L a))]
      else rest).EnsuresFrom G fun t ts => Passes G L t [(a, e)] (references ts) := by
  refine (isConstantLike_reads hL hbelow e a).bind fun c => ensures_if (fun hc => ?_) fun _ => ?_
  · refine (advances_resolveConstant hL e a).bind fun _ => (advances_scale _ _ _).bind fun _ => ?_
    exact ensures_pure fun t _ _ he => he hc
  · exact hrest.mono fun _ _ hts _ => hts

/-- The terms of an expression refer to the variables in it, from left to right. -/
theorem terms_read (hbelow : below.Reads G L) : ∀ (e factor : Expr K) (a : Env K),
    (e.terms L below factor a).EnsuresFrom G fun t ts => Passes G L t [(a, e)] (references ts)
  | .var n b idx, factor, a => by
    exact ensures_pure fun t _ _ h => .var h
  | .ivar s idx, factor, a => by
    refine (Simulation.variableAt s (Simulation.exprElements hL idx rfl)).returned.bind fun n => ?_
    exact ensures_pure fun t hn _ _ h => .ivar hn h
  | .dexpr s idx, factor, a => by
    refine EnsuresFrom.bind (P := fun _ inside => a.enter s = .ok inside)
      (ensures_ofExcept fun _ hin _ => hin) fun inside => ?_
    refine (Simulation.unfoldDexpr hL trivial s idx rfl).returned.bind fun body => ?_
    refine (hbelow.isConstant body inside).bind fun c => ensures_if (fun hc => ?_) fun _ => ?_
    · refine (Simulation.exprNumber hL _ rfl).bind fun x => (advances_scale _ _ _).bind fun _ => ?_
      exact ensures_pure fun t _ _ hconstant hbody hin => .dexpr hin hbody (hconstant hc)
    · exact (hbelow.terms body factor inside).mono fun t ts hts _ hbody hin => .dexpr hin hbody hts
  | .sum _ _ _, factor, a | .rel _ _ _, factor, a | .logic _ _, factor, a | .str _, factor, a
  | .record _ _, factor, a => by
    exact ensures_fail
  | .neg e, factor, a => by
    refine constantOr_reads hL hbelow _ factor ((advances_scale _ _ _).bind fun f => ?_)
    exact (terms_read hbelow e f a).mono fun t ts hts _ _ _ h => .neg (hts h)
  | .arith op l r, factor, a => by
    refine constantOr_reads hL hbelow _ factor ?_
    have hl := isConstantLike_reads hL hbelow l a
    have hr := isConstantLike_reads hL hbelow r a
    cases op with
    | add =>
      refine (terms_read hbelow l factor a).bind fun ls =>
        (terms_read hbelow r factor a).bind fun rs => ?_
      refine ensures_pure fun t hrs hls => ?_
      rw [references_append]
      exact hls.arith hrs
    | sub =>
      refine (terms_read hbelow l factor a).bind fun ls => (advances_scale _ _ _).bind fun f => ?_
      refine (terms_read hbelow r f a).bind fun rs => ensures_pure fun t hrs _ hls => ?_
      rw [references_append]
      exact hls.arith hrs
    | mul =>
      refine hl.bind fun c => ensures_if (fun hc => ?_) fun _ => ?_
      · refine (advances_resolveConstant hL l a).bind fun _ =>
          (advances_scale _ _ _).bind fun f => ?_
        exact (terms_read hbelow r f a).mono fun t ts hts _ _ hl => (hl hc).arith hts
      · refine hr.bind fun c => ensures_if (fun hc => ?_) fun _ => ensures_fail
        refine (advances_resolveConstant hL r a).bind fun _ =>
          (advances_scale _ _ _).bind fun f => ?_
        exact (terms_read hbelow l f a).mono fun t ts hts _ _ hr _ => by
          simpa using hts.arith (hr hc)
    | div =>
      refine hr.bind fun c => ensures_if (fun hc => ?_) fun _ => ensures_fail
      refine (advances_resolveConstant hL r a).bind fun _ => (advances_scale _ _ _).bind fun f => ?_
      exact (terms_read hbelow l f a).mono fun t ts hts _ _ hr => by simpa using hts.arith (hr hc)
  | .num _, factor, a | .name _, factor, a | .param _ _, factor, a | .field _ _, factor, a
  | .item _ _, factor, a => by
    exact constantOr_reads hL hbelow _ factor ensures_fail

theorem descent_reads : ∀ n, (descent L n).Reads G L
  | 0 => ⟨fun _ _ => ensures_fail, fun _ _ _ => ensures_fail⟩
  | n + 1 =>
    ⟨isConstantLike_reads hL (descent_reads n), terms_read hL (descent_reads n)⟩

end Reading

/-! ## Judgements on places and references -/

/-- What is said of references, of expressions in an environment, and of environments in which
iterators are bound. Of a decision expression it is said what stands for its index once bindings are
substituted, and what the index is then bound to. -/
structure Judgement (K : Type) where
  names : Registry K → String → Origin K → Prop
  fits : Registry K → Env K → Expr K → Prop
  binds : Registry K → List (Iter K) → Env K → Env K → Prop
  opens : Registry K → String → Expr K → Prop := fun _ _ _ => True
  given : Registry K → String → Value K → Prop := fun _ _ _ => True

namespace Judgement

/-- The body of every decision expression fits, whatever its index may be bound to. -/
def Bodies (J : Judgement K) (t : Registry K) : Prop :=
  ∀ ⦃s d⦄, t.dexprs.find? s = some d → ∀ env : Env K,
    (d.index = none → J.fits t env.spawn d.body) ∧
      ∀ i v, d.index = some i → J.given t s v → J.fits t (env.spawn.bind i v) d.body

/-- An expression without iterators is judged well. -/
abbrev Adds (J : Judgement K) (t : Registry K) (e : Expr K) : Prop := e.Adds (J.names t) (J.opens t)

/-- Every reference of a list is judged well. -/
def Refers (J : Judgement K) (t : Registry K) (ts : List (Term K)) : Prop :=
  ∀ q ∈ references ts, J.names t q.1 q.2

end Judgement

variable [Scalar K]

namespace Judgement

/-- A judgement that follows expressions down to their variables, where names are looked up through
a registry. -/
structure Sound (J : Judgement K) (G : Progress K) (r : Registry K) : Prop where
  lookups : (advancing G).Lookups r.lookup r.lookup
  dexprs : ∀ {r t}, G.later r t → t.dexprs = r.dexprs
  var : ∀ {t env n b idx}, J.fits t env (.var n b idx) → J.names t n (b, idx)
  ivar : ∀ s idx env, (variableAt s (elements r.lookup idx env)).EnsuresFrom G fun t p =>
    G.later r t → J.fits t env (.ivar s idx) → J.names t p.1 (s, some p.2)
  dexpr : ∀ s (e : Expr K) env, (e.substitute r.lookup env).EnsuresFrom G fun t e' =>
    G.later r t → J.fits t env (.dexpr s (some e)) → J.opens t s e'
  index : ∀ s (e : Expr K) env, (e.value r.lookup env).EnsuresFrom G fun t v =>
    G.later r t → J.opens t s e → J.given t s v.normalize
  arith : ∀ {t env op l r}, J.fits t env (.arith op l r) → J.fits t env l ∧ J.fits t env r
  neg : ∀ {t env e}, J.fits t env (.neg e) → J.fits t env e
  sum : ∀ {t env its body c inner}, J.fits t env (.sum its body c) → J.binds t its env inner →
    J.fits t inner body
  enumerate : ∀ {α : Type} {f : Env K → Run K α} {Q : Registry K → Env K → α → Prop} its c env,
    (∀ inner, (f inner).EnsuresFrom G fun t x => Q t inner x) →
    (enumerate r.lookup its c env f).EnsuresFrom G fun t xs => G.later r t →
      ∀ x ∈ xs, ∃ inner, J.binds t its env inner ∧ Q t inner x

namespace Sound

variable {J : Judgement K} {G : Progress K} {r : Registry K}

/-! ## Substitution -/

/-- The variables of an expression that fits are judged well once its bindings are substituted. -/
theorem substitute (hJ : J.Sound G r) : ∀ (e : Expr K) (env : Env K),
    (e.substitute r.lookup env).EnsuresFrom G fun t e' =>
      G.later r t → J.fits t env e → J.Adds t e'
  | .num x, env | .str s, env | .record s vs, env | .dexpr s none, env => by
    exact ensures_pure fun _ _ _ => trivial
  | .var n b idx, env => by
    exact ensures_pure fun t _ hfits => hJ.var hfits
  | .name s, env => by
    simp only [Expr.substitute]
    split
    · exact ensures_ofExcept fun e he t _ _ => adds_ofValue he
    · exact ensures_pure fun _ _ _ => trivial
  | .param s idx, env => by
    refine (exprSubstituteAll hJ.lookups trivial idx rfl).bind fun _ => ?_
    exact ensures_pure fun _ _ _ _ => trivial
  | .ivar s idx, env => by
    exact (hJ.ivar s idx env).bind fun p => ensures_pure fun t hp hrt hfits => hp hrt hfits
  | .dexpr s (some e), env => by
    exact (hJ.dexpr s e env).bind fun e' => ensures_pure fun t he' hrt hfits => he' hrt hfits
  | .arith op l r, env => by
    refine (hJ.substitute l env).bind fun l' => (hJ.substitute r env).bind fun r' => ?_
    refine ensures_pure fun t hr' hl' hrt hfits => ?_
    exact ⟨hl' hrt (hJ.arith hfits).1, hr' hrt (hJ.arith hfits).2⟩
  | .neg e, env => by
    refine (hJ.substitute e env).bind fun e' => ?_
    exact ensures_pure fun t he' hrt hfits => he' hrt (hJ.neg hfits)
  | .rel op l r, env => by
    refine (exprSubstitute hJ.lookups trivial l rfl).bind fun _ => ?_
    refine (exprSubstitute hJ.lookups trivial r rfl).bind fun _ => ?_
    exact ensures_pure fun _ _ _ _ _ => trivial
  | .logic op es, env => by
    refine (exprSubstituteAll hJ.lookups trivial es rfl).bind fun _ => ?_
    exact ensures_pure fun _ _ _ _ => trivial
  | .field e f, env => by
    refine (exprSubstitute hJ.lookups trivial e rfl).bind fun e' => ?_
    cases e' with
    | record s vs =>
      refine EnsuresFrom.bind (advances_ofExcept _) fun v => ?_
      exact ensures_ofExcept fun e he t _ _ _ _ => adds_ofValue he
    | _ => exact ensures_pure fun _ _ _ _ => trivial
  | .item set key, env => by
    refine (Simulation.exprSubstituteAll hJ.lookups trivial key rfl).bind fun key' => ?_
    refine (Simulation.recordAt set key'.length
      (Simulation.exprElements hJ.lookups key' rfl)).bind fun v => ?_
    cases v with
    | record s vs => exact ensures_pure fun _ _ _ _ _ => trivial
    | _ => exact ensures_fail
  | .sum its body none, env => by
    refine (hJ.enumerate its none env (hJ.substitute body)).bind fun es => ?_
    refine ensures_pure fun t hes hrt hfits => adds_chain fun e he => ?_
    obtain ⟨inner, hinner, hadds⟩ := hes hrt e he
    exact hadds hrt (hJ.sum hfits hinner)
  | .sum its body (some c), env => by
    refine (hJ.enumerate its (some c) env (hJ.substitute body)).bind fun es => ?_
    refine ensures_pure fun t hes hrt hfits => adds_chain fun e he => ?_
    obtain ⟨inner, hinner, hadds⟩ := hes hrt e he
    exact hadds hrt (hJ.sum hfits hinner)

/-- The body of a decision expression is looked into in an environment where at most its own index
is bound. -/
theorem dexprScope (hJ : J.Sound G r) (s : String) (idx : Option (Expr K)) (env : Env K) :
    (dexprScope s (idx.map fun e env => e.value r.lookup env) env).EnsuresFrom G fun t p =>
      G.later r t → J.Bodies t → (∀ e, idx = some e → J.opens t s e) → J.fits t p.2 p.1.body := by
  refine ensures_registry fun r' => ?_
  cases hd : r'.dexprs.find? s with
  | none => exact ensures_fail
  | some d =>
    have hfound : ∀ {t}, G.later r' t → t.dexprs.find? s = some d := fun ht => by
      rw [hJ.dexprs ht, hd]
    obtain ⟨symbol, type, body, _ | i, domain⟩ := d
    · cases idx with
      | none => exact ensures_pure fun t _ ht _ hbodies _ => (hbodies (hfound ht) env).1 rfl
      | some e => exact ensures_fail
    · cases idx with
      | none => exact ensures_fail
      | some e =>
        refine (hJ.index s e env).bind fun v => ensures_pure fun t hv _ ht hrt hbodies hopens => ?_
        exact (hbodies (hfound ht) env).2 i _ rfl (hv hrt (hopens e rfl))

theorem unfoldDexpr (hJ : J.Sound G r) (s : String) (idx : Option (Expr K)) (env : Env K) :
    (unfoldDexpr r.lookup s idx env).EnsuresFrom G fun t e' =>
      G.later r t → J.Bodies t → (∀ e, idx = some e → J.opens t s e) → J.Adds t e' := by
  refine (hJ.dexprScope s idx env).bind fun p => ?_
  exact (hJ.substitute p.1.body p.2).mono fun t e' he' hfits hrt hbodies hopens =>
    he' hrt (hfits hrt hbodies hopens)

/-! ## Terms -/

/-- The references that are met in reading expressions are judged well. -/
theorem reads (hJ : J.Sound G r) {t : Registry K} (hrt : G.later r t) (hbodies : J.Bodies t)
    {es : List (Env K × Expr K)} {qs : List (Reference K)} (h : Reads G r.lookup t es qs)
    (hes : ∀ e ∈ es, J.Adds t e.2) : ∀ q ∈ qs, J.names t q.1 q.2 := by
  induction h with
  | nil => simp
  | var _ ih =>
    rw [List.forall_mem_cons] at hes ⊢
    exact ⟨hes.1, ih hes.2⟩
  | ivar =>
    rw [List.forall_mem_cons] at hes
    exact hes.1.elim
  | dexpr _ hbody _ ih =>
    rw [List.forall_mem_cons] at hes
    obtain ⟨s, s', hs, hreturns, hlater⟩ := hbody
    have hadds := (hJ.unfoldDexpr _ _ _ hs hreturns).2 hlater hrt hbodies fun e he => by
      subst he
      exact hes.1
    exact ih (List.forall_mem_cons.2 ⟨hadds, hes.2⟩)
  | arith _ ih =>
    rw [List.forall_mem_cons] at hes
    exact ih (List.forall_mem_cons.2 ⟨hes.1.1, List.forall_mem_cons.2 ⟨hes.1.2, hes.2⟩⟩)
  | neg _ ih =>
    rw [List.forall_mem_cons] at hes
    exact ih (List.forall_mem_cons.2 hes)
  | inner _ _ _ _ ih => exact ih (List.forall_mem_cons.1 hes).2

/-- The terms of an expression that fits refer to variables that are judged well. -/
theorem affineTerms (hJ : ∀ r, J.Sound G r) (e : Expr K) (env : Env K) :
    (affineTerms e env).EnsuresFrom G fun t ts => J.Bodies t → J.fits t env e → J.Refers t ts := by
  simp only [LinearModel.affineTerms, Run.lookup, bind_assoc, pure_bind]
  refine ensures_registry fun r => ((hJ r).substitute e env).bind fun e' => ?_
  refine ensures_registry fun r' => ?_
  refine (terms_read (hJ r).lookups (descent_reads (hJ r).lookups _) e' _ env).mono
    fun t ts hts _ _ he' _ hrt hbodies hfits => ?_
  have hread : Reads G r.lookup t [(env, e')] (LinearModel.references ts) := by
    simpa using hts .nil
  exact (hJ r).reads hrt hbodies hread (List.forall_mem_singleton.2 (he' hrt hfits))

end Sound

end Judgement

/-! ## Statements -/

/-- The constraints of a rule, each in an environment that the iterators around it may lead to. -/
inductive Rule.At (binds : List (Iter K) → Env K → Env K → Prop) :
    Rule K → Env K → Constraint K → Env K → Prop
  | single {c : Constraint K} {env : Env K} : At binds (.single c) env c env
  | family {literal : String} {its : List (Iter K)} {condition : Option (Expr K)}
      {body : List (Rule K)} {env inner env' : Env K} {r : Rule K} {c : Constraint K}
      (hits : binds its env inner) (hr : r ∈ body) (h : At binds r inner c env') :
      At binds (.family literal its condition body) env c env'

/-- The references in the equation of a constraint under the bindings of an environment. -/
def Constraint.references (c : Constraint K) (env : Env K) : Run K (List (Reference K)) := do
  let _ ← c.nameIn env
  return LinearModel.references (← affineTerms (.arith .sub c.lhs c.rhs) env)

/-- The references in the equations or in the objective that a statement contributes. -/
def Statement.references : Statement K → Run K (List (Reference K))
  | .rule R => do return (← R.forEach Constraint.references Env.empty).flatten
  | .goal g => do return LinearModel.references (← affineTerms g.body Env.empty)
  | _ => return []

/-- The references in the objective and the equations of a list of statements. -/
def referencesOf (stmts : List (Statement K)) : Run K (List (Reference K)) := do
  return (← stmts.mapM Statement.references).flatten

namespace Judgement

variable {J : Judgement K} {G : Progress K}

/-- The sides of every constraint, or the objective, of a statement fit. -/
def Admits (J : Judgement K) (t : Registry K) : Statement K → Prop
  | .rule R => ∀ c inner, R.At (J.binds t) Env.empty c inner →
      J.fits t inner (.arith .sub c.lhs c.rhs)
  | .goal g => J.fits t Env.empty g.body
  | _ => True

namespace Sound

variable {f : Constraint K → Env K → Run K α} {Q : Registry K → Constraint K → Env K → α → Prop}

mutual
theorem forEach (hJ : ∀ r, J.Sound G r)
    (hf : ∀ c env, (f c env).EnsuresFrom G fun t x => Q t c env x) :
    ∀ (R : Rule K) (env : Env K), (R.forEach f env).EnsuresFrom G fun t xs =>
      ∀ x ∈ xs, ∃ c inner, R.At (J.binds t) env c inner ∧ Q t c inner x
  | .single c, env => by
    refine (hf c env).bind fun x => ensures_pure fun t hx y hy => ?_
    obtain rfl := List.mem_singleton.1 hy
    exact ⟨c, env, .single, hx⟩
  | .family literal its condition body, env => by
    simp only [Rule.forEach, Run.lookup, bind_assoc, pure_bind]
    refine ensures_registry fun r => ?_
    refine ((hJ r).enumerate its condition env fun inner => forEachOf hJ hf body inner).bind
      fun found => ensures_pure fun t hfound _ hrt x hx => ?_
    obtain ⟨xs, hxs, hx⟩ := List.mem_flatten.1 hx
    obtain ⟨inner, hinner, hall⟩ := hfound hrt xs hxs
    obtain ⟨R, hR, c, env', hat, hQ⟩ := hall x hx
    exact ⟨c, env', .family hinner hR hat, hQ⟩

theorem forEachOf (hJ : ∀ r, J.Sound G r)
    (hf : ∀ c env, (f c env).EnsuresFrom G fun t x => Q t c env x) :
    ∀ (Rs : List (Rule K)) (env : Env K), (Rule.forEachOf f Rs env).EnsuresFrom G fun t xs =>
      ∀ x ∈ xs, ∃ R ∈ Rs, ∃ c inner, R.At (J.binds t) env c inner ∧ Q t c inner x
  | [], env => by
    exact ensures_pure fun t => by simp
  | R :: Rs, env => by
    refine (forEach hJ hf R env).bind fun xs => (forEachOf hJ hf Rs env).bind fun ys => ?_
    refine ensures_pure fun t hys hxs x hx => ?_
    rcases List.mem_append.1 hx with hx | hx
    · exact ⟨R, List.mem_cons_self, hxs x hx⟩
    · obtain ⟨R', hR', h⟩ := hys x hx
      exact ⟨R', List.mem_cons_of_mem R hR', h⟩
end

theorem nameIn (hJ : ∀ r, J.Sound G r) (c : Constraint K) (env : Env K) :
    (c.nameIn env).Advances G := by
  unfold Constraint.nameIn
  split
  · exact ensures_pure fun _ => trivial
  · split
    · exact ensures_pure fun _ => trivial
    · simp only [Run.lookup, bind_assoc, pure_bind]
      refine ensures_registry fun r => ?_
      refine (exprElements (hJ r).lookups c.labelIndex rfl).bind fun idx => ?_
      exact ensures_pure fun _ _ _ _ => trivial

theorem references (hJ : ∀ r, J.Sound G r) (stmt : Statement K) :
    stmt.references.EnsuresFrom G fun t qs =>
      J.Bodies t → J.Admits t stmt → ∀ q ∈ qs, J.names t q.1 q.2 := by
  cases stmt with
  | rule R =>
    have hconstraint : ∀ (c : Constraint K) env, (c.references env).EnsuresFrom G fun t qs =>
        J.Bodies t → J.fits t env (.arith .sub c.lhs c.rhs) → ∀ q ∈ qs, J.names t q.1 q.2 :=
      fun c env => (nameIn hJ c env).bind fun _ => (affineTerms hJ _ env).bind fun ts =>
        ensures_pure fun t hts _ => hts
    refine (forEach hJ hconstraint R Env.empty).bind fun qss => ?_
    refine ensures_pure fun t hqss hbodies hadmits q hq => ?_
    obtain ⟨qs, hqs, hq⟩ := List.mem_flatten.1 hq
    obtain ⟨c, inner, hat, hnames⟩ := hqss qs hqs
    exact hnames hbodies (hadmits c inner hat) q hq
  | goal g =>
    exact (affineTerms hJ g.body Env.empty).bind fun ts => ensures_pure fun t hts => hts
  | declaration literal entity | ignored literal => exact ensures_pure fun t => by simp

/-- All references of statements that are admitted are judged well. -/
theorem referencesOf (hJ : ∀ r, J.Sound G r) (stmts : List (Statement K)) :
    (referencesOf stmts).EnsuresFrom G fun t qs => J.Bodies t →
      (∀ stmt ∈ stmts, J.Admits t stmt) → ∀ q ∈ qs, J.names t q.1 q.2 := by
  refine (ensures_mapM stmts (references hJ)).bind fun qss => ?_
  refine ensures_pure fun t hqss hbodies hadmits q hq => ?_
  obtain ⟨qs, hqs, hq⟩ := List.mem_flatten.1 hq
  obtain ⟨i, hi, rfl⟩ := List.mem_iff_getElem.1 hqs
  have hi' : i < stmts.length := hqss.length_eq ▸ hi
  exact hqss.get hi' hi hbodies (hadmits _ (List.getElem_mem hi')) q hq

end Sound

end Judgement

end LinearModel
