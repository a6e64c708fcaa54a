import LinearModel.Proofs.Comparison

/-!
# Simulations

A relation between computations that is kept by sequencing, and that relates everything that an
expression can mention, is carried by evaluation from lookups to expressions. Some relations hold of
computations on data only, which mention no decision variable and no decision expression.

This is the comparison of the evaluation of two expressions where everything may be mentioned, or
everything that is data. It is used for several relations later on.
-/
namespace LinearModel

open Run Expr

variable {K : Type} {α β : Type}

/-- Two registries declare the same, whatever values they hold. -/
structure Registry.SameDeclarations (r r' : Registry K) : Prop where
  vars : r.vars = r'.vars
  dexprs : r.dexprs = r'.dexprs
  tupleSets : r.tupleSets = r'.tupleSets
  params : ∀ s, r.params.contains s = r'.params.contains s

theorem Registry.SameDeclarations.refl (r : Registry K) : r.SameDeclarations r :=
  ⟨rfl, rfl, rfl, fun _ => rfl⟩

mutual
/-- Whether no decision variable and no decision expression is mentioned anywhere in an expression.
-/
def Expr.isData : Expr K → Bool
  | .num _ | .str _ | .record _ _ | .name _ => true
  | .var _ _ _ | .ivar _ _ | .dexpr _ _ => false
  | .param _ es | .logic _ es | .item _ es => Expr.areData es
  | .arith _ l r | .rel _ l r => l.isData && r.isData
  | .neg e | .field e _ => e.isData
  | .sum its body none => Iter.areData its && body.isData
  | .sum its body (some c) => Iter.areData its && body.isData && c.isData

/-- Whether no decision variable and no decision expression is mentioned in any of the expressions.
-/
def Expr.areData : List (Expr K) → Bool
  | [] => true
  | e :: es => e.isData && Expr.areData es

/-- Whether no decision variable and no decision expression is mentioned in any of the iterators. -/
def Iter.areData : List (Iter K) → Bool
  | [] => true
  | it :: its => it.isData && Iter.areData its

/-- Whether no decision variable and no decision expression is mentioned in an iterator. -/
def Iter.isData : Iter K → Bool
  | .mk _ src none => src.isData
  | .mk _ src (some f) => src.isData && f.isData

/-- Whether no decision variable and no decision expression is mentioned in a source. -/
def Source.isData : Source K → Bool
  | .named _ none => true
  | .named _ (some e) => e.isData
  | .range a b => a.isData && b.isData
end

/-! ## Relations that see equal environments -/

section EqualEnvironments

variable {a b : Env K}

theorem Env.get?_of_eq (h : a = b) (s : String) : a.get? s = b.get? s := by rw [h]

theorem Env.depth_of_eq (h : a = b) : a.depth = b.depth := by rw [h]

theorem Env.bind_of_eq (s : String) (v : Value K) (h : a = b) : a.bind s v = b.bind s v := by rw [h]

theorem Env.spawn_of_eq {p : Prop} (_ : p) {a b : Env K} (h : a = b) : a.spawn = b.spawn := by
  rw [h]

end EqualEnvironments

/-- A relation between computations. If it is not open, it says nothing of decision variables and
decision expressions. -/
structure Simulation (K : Type) [Scalar K] extends Relating K where
  isOpen : Prop
  failure : ∀ {α : Type} (c : Cause K), rel (fail c : Run K α) (fail c)
  vars : isOpen → ∀ {r r'}, like r r' → r.vars = r'.vars
  dexprs : isOpen → ∀ {r r'}, like r r' → r.dexprs = r'.dexprs
  spawn : isOpen → ∀ {a b : Env K}, sees a b → sees a.spawn b.spawn
  assigned : isOpen → ∀ {a b : Env K} (n : String), sees a b →
    rel (Run.ofExcept (a.variableValue n)) (Run.ofExcept (b.variableValue n))
  enter : isOpen → ∀ {α : Type} {a b : Env K} {f g : Env K → Run K α} (s : String), sees a b →
    (∀ {a' b'}, a.enter s = .ok a' → sees a' b' → rel (f a') (g b')) →
    rel (Run.ofExcept (a.enter s) >>= f) (Run.ofExcept (b.enter s) >>= g)

mutual
/-- Data mentions parameters and domains only. -/
theorem Expr.isData_mentions : ∀ (e : Expr K) (bound : List String), e.isData = true →
    ∀ q ∈ e.mentions bound, ∃ s, q.2 = .parameter s ∨ q.2 = .domain s
  | .num _, _, _ | .str _, _, _ | .record _ _, _, _ => by simp [mentions]
  | .name s, bound, _ => by
    simp only [mentions]
    split <;> simp
  | .param s es, bound, h => by
    simp only [mentions, List.forall_mem_cons]
    exact ⟨⟨s, .inl rfl⟩, Expr.areData_mentions es bound h⟩
  | .logic _ es, bound, h | .item _ es, bound, h => by
    exact Expr.areData_mentions es bound h
  | .arith _ l r, bound, h | .rel _ l r, bound, h => by
    simp only [isData, Bool.and_eq_true] at h
    simp only [mentions, List.forall_mem_append]
    exact ⟨Expr.isData_mentions l bound h.1, Expr.isData_mentions r bound h.2⟩
  | .neg e, bound, h | .field e _, bound, h => by
    exact Expr.isData_mentions e bound h
  | .sum its body none, bound, h => by
    simp only [isData, Bool.and_eq_true] at h
    simp only [mentions, List.forall_mem_append]
    exact ⟨Iter.areData_mentions its bound h.1, Expr.isData_mentions body _ h.2⟩
  | .sum its body (some c), bound, h => by
    simp only [isData, Bool.and_eq_true] at h
    simp only [mentions, List.forall_mem_append]
    exact ⟨⟨Iter.areData_mentions its bound h.1.1, Expr.isData_mentions body _ h.1.2⟩,
      Expr.isData_mentions c _ h.2⟩

theorem Expr.areData_mentions : ∀ (es : List (Expr K)) (bound : List String),
    areData es = true → ∀ q ∈ allMentions bound es, ∃ s, q.2 = .parameter s ∨ q.2 = .domain s
  | [], _, _ => by simp [allMentions]
  | e :: es, bound, h => by
    simp only [Expr.areData, Bool.and_eq_true] at h
    simp only [allMentions, List.forall_mem_append]
    exact ⟨Expr.isData_mentions e bound h.1, Expr.areData_mentions es bound h.2⟩

theorem Iter.areData_mentions : ∀ (its : List (Iter K)) (bound : List String),
    Iter.areData its = true →
      ∀ q ∈ Iter.allMentions bound its, ∃ s, q.2 = .parameter s ∨ q.2 = .domain s
  | [], _, _ => by simp [Iter.allMentions]
  | it :: its, bound, h => by
    simp only [Iter.areData, Bool.and_eq_true] at h
    simp only [Iter.allMentions, List.forall_mem_append]
    exact ⟨Iter.isData_mentions it bound h.1, Iter.areData_mentions its _ h.2⟩

theorem Iter.isData_mentions : ∀ (it : Iter K) (bound : List String), it.isData = true →
    ∀ q ∈ it.mentions bound, ∃ s, q.2 = .parameter s ∨ q.2 = .domain s
  | .mk s src none, bound, h => by
    exact Source.isData_mentions src bound h
  | .mk s src (some f), bound, h => by
    simp only [Iter.isData, Bool.and_eq_true] at h
    simp only [Iter.mentions, List.forall_mem_append]
    exact ⟨Source.isData_mentions src bound h.1, Expr.isData_mentions f _ h.2⟩

theorem Source.isData_mentions : ∀ (src : Source K) (bound : List String), src.isData = true →
    ∀ q ∈ src.mentions bound, ∃ s, q.2 = .parameter s ∨ q.2 = .domain s
  | .named s none, _, _ => by simp [Source.mentions]
  | .named s (some e), bound, h => by
    simp only [Source.mentions, List.forall_mem_cons]
    exact ⟨⟨s, .inr rfl⟩, Expr.isData_mentions e bound h⟩
  | .range a b, bound, h => by
    simp only [Source.isData, Bool.and_eq_true] at h
    simp only [Source.mentions, List.forall_mem_append]
    exact ⟨Expr.isData_mentions a bound h.1, Expr.isData_mentions b bound h.2⟩
end

variable [Scalar K]

/-- Computations on data that keep an invariant, whether they return or fail. -/
def Simulation.maintaining (Inv : Registry K → Prop) : Simulation K where
  rel x _ := Run.Maintains Inv x
  sees := Eq
  like r t := Inv r ∧ r = t
  isOpen := False
  ret := Run.maintains_pure
  seq hxy hfg := hxy.bind hfg
  failure := Run.maintains_fail
  warning := Run.maintains_warn
  declarations hfg := Run.Maintains.registry_bind fun r hr => hfg r r ⟨hr, rfl⟩
  params h s := .inl (by rw [h.2])
  tupleSets h s := .inl (by rw [h.2])
  vars := False.elim
  dexprs := False.elim
  binding := @Env.get?_of_eq K
  depth := @Env.depth_of_eq K
  bound := @Env.bind_of_eq K
  spawn := @Env.spawn_of_eq K False
  assigned := False.elim
  enter := False.elim

/-- Two lookups that are related in everything they look up. -/
structure Simulation.Lookups (R : Simulation K) (L M : Lookup K) : Prop where
  parameter : ∀ s idx, R.rel (L.parameter s idx) (M.parameter s idx)
  elements : ∀ {a b} s given, R.sees a b → R.rel (L.elements s a given) (M.elements s b given)
  body : R.isOpen → ∀ {a b} e, R.sees a b → R.rel (L.body e a) (M.body e b)

/-- Two stages that bind the same symbol and are related in their elements and filters. -/
structure Simulation.Stages (R : Simulation K) (s t : Stage K) : Prop where
  symbol : s.symbol = t.symbol
  elements : ∀ {a b}, R.sees a b → R.rel (s.elements a) (t.elements b)
  admits : ∀ {a b}, R.sees a b → R.rel (s.admits a) (t.admits b)

namespace Simulation

/-- What may be mentioned: data in any case, and everything if the relation is open. -/
def permits (R : Simulation K) : Mention → Prop
  | .parameter _ | .domain _ => True
  | .dvar _ | .dexpr _ => R.isOpen

/-- The comparison that a simulation makes. It does not matter what is looked into. -/
def comparison (R : Simulation K) : Comparison K where
  toRelating := R.toRelating
  permits _ := R.permits
  failure c _ := R.failure c
  vars ho _ _ hr := R.vars ho hr
  dexprs ho _ _ _ hr := by rw [R.dexprs ho hr]
  undeclared _ _ _ := R.failure _
  spawn ho _ _ := R.spawn ho
  assigned ho _ _ n := R.assigned ho n
  enter s hab ho h := R.enter ho s hab h

variable {R : Simulation K} {L M : Lookup K} {a b : Env K}

theorem Lookups.compared (hL : R.Lookups L M) : R.comparison.Lookups L M where
  parameter s idx _ := hL.parameter s idx
  elements s given hab _ := hL.elements s given hab
  body hab _ _ := hL.body hab.entered.choose_spec.2.2 _ hab.sees

theorem meets (hab : R.sees a b) : R.comparison.Meets a.active [] a b :=
  ⟨hab, rfl, a.binds_nil⟩

theorem permits_all (ho : R.isOpen) (m : Mention) : R.permits m := by
  cases m with
  | parameter s | domain s => trivial
  | dvar s | dexpr s => exact ho

theorem allows {A : List String} {qs : List Site}
    (h : R.isOpen ∨ ∀ q ∈ qs, ∃ s, q.2 = .parameter s ∨ q.2 = .domain s) :
    R.comparison.Allows A qs := by
  intro q hq
  obtain ho | hdata := h
  · exact permits_all ho q.2
  · obtain ⟨s, hs | hs⟩ := hdata q hq
    · exact hs ▸ trivial
    · exact hs ▸ trivial

theorem allowsExpr {A : List String} {e : Expr K} (he : R.isOpen ∨ e.isData = true) :
    R.comparison.Allows A (e.mentions []) :=
  allows (he.imp_right (e.isData_mentions []))

theorem allowsAll {A : List String} {es : List (Expr K)} (he : R.isOpen ∨ areData es = true) :
    R.comparison.Allows A (allMentions [] es) :=
  allows (he.imp_right (areData_mentions es []))

/-! ## Steps shared by all expressions -/

theorem ofExcept (x : Except (Cause K) α) : R.rel (Run.ofExcept x) (Run.ofExcept x) := by
  cases x with
  | ok a => exact R.ret a
  | error c => exact R.failure c

theorem mapM {f g : α → Run K β} (as : List α) (h : ∀ a, R.rel (f a) (g a)) :
    R.rel (as.mapM f) (as.mapM g) :=
  Comparison.mapM (R := R.comparison) as h

theorem rangeBound {x y : Run K (Value K)} (e : Expr K) (h : R.rel x y) :
    R.rel (LinearModel.rangeBound e x) (LinearModel.rangeBound e y) :=
  Comparison.rangeBound (R := R.comparison) e h

theorem declaredVariable (s : String) (ho : R.isOpen := by trivial) :
    R.rel (declaredVariable s) (declaredVariable s) :=
  Comparison.declaredVariable (R := R.comparison) (A := []) s ho

theorem singleVariable (s : String) (v : Variable K) (idx : Index K) (ho : R.isOpen := by trivial) :
    R.rel (singleVariable s v idx) (singleVariable s v idx) :=
  Comparison.singleVariable (R := R.comparison) (A := []) s v idx ho

theorem variableAt (s : String) {x y : Run K (Index K)} (h : R.rel x y)
    (ho : R.isOpen := by trivial) : R.rel (variableAt s x) (variableAt s y) :=
  Comparison.variableAt (R := R.comparison) (A := []) s h ho

theorem keyedSet (set : String) (n : Nat) : R.rel (keyedSet set n) (keyedSet set n) :=
  Comparison.keyedSet (R := R.comparison) set n

theorem recordOf (set : String) (d : TupleSet K) (key : Index K) :
    R.rel (recordOf set d key) (recordOf set d key) :=
  Comparison.recordOf (R := R.comparison) set d key

theorem recordAt (set : String) (n : Nat) {x y : Run K (Index K)} (h : R.rel x y) :
    R.rel (recordAt set n x) (recordAt set n y) :=
  Comparison.recordAt (R := R.comparison) set n h

/-! ## Expressions -/

/-- Related lookups give an expression related values. -/
theorem exprValue (hL : R.Lookups L M) (e : Expr K) (hab : R.sees a b)
    (he : R.isOpen ∨ e.isData = true := by exact .inl trivial) :
    R.rel (e.value L a) (e.value M b) :=
  Comparison.exprValue hL.compared e (meets hab) (allowsExpr he)

theorem exprElements (hL : R.Lookups L M) (es : List (Expr K)) (hab : R.sees a b)
    (he : R.isOpen ∨ areData es = true := by exact .inl trivial) :
    R.rel (elements L es a) (elements M es b) :=
  Comparison.exprElements hL.compared es (meets hab) (allowsAll he)

theorem exprFirstTruth (hL : R.Lookups L M) (es : List (Expr K)) (hab : R.sees a b)
    (he : R.isOpen ∨ areData es = true := by exact .inl trivial) :
    R.rel (firstTruth L es a) (firstTruth M es b) :=
  Comparison.exprFirstTruth hL.compared es (meets hab) (allowsAll he)

theorem exprAllTrue (hL : R.Lookups L M) (es : List (Expr K)) (hab : R.sees a b)
    (he : R.isOpen ∨ areData es = true := by exact .inl trivial) :
    R.rel (allTrue L es a) (allTrue M es b) :=
  Comparison.exprAllTrue hL.compared es (meets hab) (allowsAll he)

theorem exprAnyTrue (hL : R.Lookups L M) (es : List (Expr K)) (hab : R.sees a b)
    (he : R.isOpen ∨ areData es = true := by exact .inl trivial) :
    R.rel (anyTrue L es a) (anyTrue M es b) :=
  Comparison.exprAnyTrue hL.compared es (meets hab) (allowsAll he)

theorem exprSource (hL : R.Lookups L M) (src : Source K) (hab : R.sees a b)
    (he : R.isOpen ∨ src.isData = true := by exact .inl trivial) :
    R.rel (sourceElements L src a) (sourceElements M src b) :=
  Comparison.exprSource hL.compared src (meets hab) (allows (he.imp_right (src.isData_mentions [])))

theorem exprNumber (hL : R.Lookups L M) (e : Expr K) (hab : R.sees a b)
    (he : R.isOpen ∨ e.isData = true := by exact .inl trivial) :
    R.rel (e.number L a) (e.number M b) :=
  Comparison.exprNumber hL.compared e (meets hab) (allowsExpr he)

theorem exprHolds (hL : R.Lookups L M) (c : Option (Expr K)) (hab : R.sees a b)
    (hc : R.isOpen ∨ ∀ e ∈ c, e.isData = true := by exact .inl trivial) :
    R.rel (holds L c a) (holds M c b) :=
  Comparison.exprHolds hL.compared c (meets hab) fun e he =>
    allowsExpr (hc.imp_right fun h => h e he)

theorem exprStage (hL : R.Lookups L M) (it : Iter K) (he : R.isOpen ∨ it.isData = true) :
    R.Stages (stage L it) (stage M it) := by
  obtain ⟨s, src, _ | f⟩ := it
  · simp only [Iter.isData] at he
    exact ⟨rfl, fun hab => exprSource hL src hab he, fun _ => R.ret _⟩
  · simp only [Iter.isData, Bool.and_eq_true] at he
    exact ⟨rfl, fun hab => exprSource hL src hab (he.imp_right And.left),
      fun hab => exprHolds hL (some f) hab (he.imp_right fun h _ hf => Option.some.inj hf ▸ h.2)⟩

theorem exprStages (hL : R.Lookups L M) (its : List (Iter K))
    (he : R.isOpen ∨ Iter.areData its = true := by exact .inl trivial) :
    List.Forall₂ R.Stages (stages L its) (stages M its) := by
  induction its with
  | nil =>
    exact .nil
  | cons it its ih =>
    simp only [Iter.areData, Bool.and_eq_true] at he
    exact .cons (exprStage hL it (he.imp_right And.left)) (ih (he.imp_right And.right))

theorem combinations (hL : R.Lookups L M) (its : List (Iter K)) (c : Option (Expr K))
    {f g : Env K → Run K α} (hfg : ∀ {a b}, R.sees a b → R.rel (f a) (g b)) (hab : R.sees a b)
    (hits : R.isOpen ∨ Iter.areData its = true := by exact .inl trivial)
    (hc : R.isOpen ∨ ∀ e ∈ c, e.isData = true := by exact .inl trivial) :
    R.rel (LinearModel.enumerate L its c a f) (LinearModel.enumerate M its c b g) :=
  Comparison.combinations hL.compared its c (fun hinner => hfg hinner.sees) (meets hab)
    (allows (hits.imp_right (Iter.areData_mentions its [])))
    fun e he => allows (hc.imp_right fun h => e.isData_mentions _ (h e he))

/-! ## Substitution and classification -/

theorem exprSubstitute (hL : R.Lookups L M) (ho : R.isOpen) (e : Expr K) (hab : R.sees a b) :
    R.rel (e.substitute L a) (e.substitute M b) :=
  Comparison.exprSubstitute hL.compared (.inr fun _ => permits_all ho) e (meets hab)
    (allowsExpr (.inl ho))

theorem exprSubstituteAll (hL : R.Lookups L M) (ho : R.isOpen) (es : List (Expr K))
    (hab : R.sees a b) : R.rel (substituteAll L es a) (substituteAll M es b) :=
  Comparison.exprSubstituteAll hL.compared (.inr fun _ => permits_all ho) es (meets hab)
    (allowsAll (.inl ho))

theorem unfoldDexpr (hL : R.Lookups L M) (ho : R.isOpen) (s : String) (idx : Option (Expr K))
    (hab : R.sees a b) : R.rel (unfoldDexpr L s idx a) (unfoldDexpr M s idx b) := by
  simp only [LinearModel.unfoldDexpr, dexprScope, bind_assoc]
  refine R.declarations fun r r' hr => ?_
  rw [R.dexprs ho hr]
  rcases r'.dexprs.find? s with _ | ⟨symbol, type, body, _ | i, domain⟩
  · exact R.failure _
  · cases idx with
    | none => exact exprSubstitute hL ho body (R.spawn ho hab)
    | some e => exact R.failure _
  · cases idx with
    | none => exact R.failure _
    | some e =>
      simp only [Option.map_some, bind_assoc, pure_bind]
      exact R.seq (exprValue hL e hab (.inl ho)) fun v =>
        exprSubstitute hL ho body (R.bound _ _ (R.spawn ho hab))

theorem exprIsConstantLike (hL : R.Lookups L M) (ho : R.isOpen) {p q : Expr K → Env K → Run K Bool}
    (hpq : ∀ e {a b}, R.sees a b → R.rel (p e a) (q e b)) (e : Expr K) (hab : R.sees a b) :
    R.rel (e.isConstantLike L p a) (e.isConstantLike M q b) :=
  Comparison.exprIsConstantLike
    { lookups := hL.compared
      reliable := .inr fun _ => permits_all ho
      bodies := fun _ _ _ => allowsExpr (.inl ho)
      params := fun _ _ => trivial
      below := fun e _ _ _ hab _ _ => hpq e hab.sees }
    e (meets hab) (allowsExpr (.inl ho))

end Simulation

end LinearModel
