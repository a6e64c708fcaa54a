import LinearModel.Proofs.Mentions
import LinearModel.Proofs.PlainFailure
import LinearModel.Expansion

/-!
# Comparisons

Evaluation reaches the registry in three ways: through a lookup, through the declarations, and
through the values of decision variables. A relation between computations that is kept by
sequencing, and that relates each of these ways to itself, therefore relates the evaluation of an
expression through one lookup to its evaluation through another.

Not everything need be related: a comparison says what may be mentioned, and while which decision
expressions are looked into. Only an expression that keeps to this is compared. All arguments that
follow the evaluation of expressions rest on the induction that is made here.
-/
namespace LinearModel

open Run Expr

variable {K : Type} {α β : Type} {s : String}

theorem Env.enter_eq_ok {a a' : Env K} :
    a.enter s = .ok a' ↔ s ∉ a.active ∧ { a with active := a.active ++ [s] } = a' := by
  unfold Env.enter
  split <;> simp_all

/-- A relation between computations that is kept by sequencing, and those between the environments
and registries they run in. Where the second registry declares more than the first, failing first
must be related to everything. -/
structure Relating (K : Type) where
  rel : ∀ {α : Type}, Run K α → Run K α → Prop
  sees : Env K → Env K → Prop
  like : Registry K → Registry K → Prop
  ret : ∀ {α : Type} (a : α), rel (pure a) (pure a)
  seq : ∀ {α β : Type} {x y : Run K α} {f g : α → Run K β},
    rel x y → (∀ a, rel (f a) (g a)) → rel (x >>= f) (y >>= g)
  warning : ∀ w, rel (warn w) (warn w)
  declarations : ∀ {α : Type} {f g : Registry K → Run K α},
    (∀ r r', like r r' → rel (f r) (g r')) → rel (registry >>= f) (registry >>= g)
  params : ∀ {r r'}, like r r' → ∀ s, r.params.contains s = r'.params.contains s ∨
    r.params.contains s = false ∧ ∀ {α : Type} (c : Cause K) (y : Run K α), rel (fail c) y
  tupleSets : ∀ {r r'}, like r r' → ∀ s, r.tupleSets.find? s = r'.tupleSets.find? s ∨
    r.tupleSets.find? s = none ∧ ∀ {α : Type} (c : Cause K) (y : Run K α), rel (fail c) y
  binding : ∀ {a b : Env K}, sees a b → ∀ s, a.get? s = b.get? s
  depth : ∀ {a b : Env K}, sees a b → a.depth = b.depth
  bound : ∀ {a b : Env K} (s : String) (v : Value K), sees a b → sees (a.bind s v) (b.bind s v)

/-- A relation between computations, and what may be mentioned while some decision expressions are
looked into. -/
structure Comparison (K : Type) [Scalar K] extends Relating K where
  permits : List String → Mention → Prop
  failure : ∀ {α : Type} (c : Cause K), c.isPlain = true → rel (fail c : Run K α) (fail c)
  vars : ∀ {A s}, permits A (.dvar s) → ∀ {r r'}, like r r' → r.vars = r'.vars
  dexprs : ∀ {A s}, permits A (.dexpr s) → s ∉ A → ∀ {r r'}, like r r' →
    r.dexprs.find? s = r'.dexprs.find? s
  undeclared : ∀ {A s}, permits A (.dexpr s) → s ∉ A → ∀ {α : Type},
    rel (fail (.dexprNotDeclared s) : Run K α) (fail (.dexprNotDeclared s))
  spawn : ∀ {A s}, permits A (.dexpr s) → ∀ {a b : Env K}, sees a b → sees a.spawn b.spawn
  assigned : ∀ {A s}, permits A (.dvar s) → ∀ {a b : Env K} (n : String), sees a b →
    rel (Run.ofExcept (a.variableValue n)) (Run.ofExcept (b.variableValue n))
  enter : ∀ {α : Type} {a b : Env K} {f g : Env K → Run K α} (s : String), sees a b →
    permits a.active (.dexpr s) →
    (∀ {a' b'}, a.enter s = .ok a' → sees a' b' → rel (f a') (g b')) →
    rel (Run.ofExcept (a.enter s) >>= f) (Run.ofExcept (b.enter s) >>= g)

variable [Scalar K] {qs : List Site}

namespace Comparison

variable {R : Comparison K} {L M : Lookup K} {a b : Env K} {A bound : List String}

/-- Everything in a list may be mentioned where it stands, while some decision expressions are
looked into. -/
def Allows (R : Comparison K) (A : List String) (qs : List Site) : Prop :=
  ∀ q ∈ qs, R.permits (A ++ q.1) q.2

@[simp] theorem allows_cons {m : Mention} :
    R.Allows A (([], m) :: qs) ↔ R.permits A m ∧ R.Allows A qs := by
  simp [Allows]

@[simp] theorem allows_append {ps : List Site} :
    R.Allows A (ps ++ qs) ↔ R.Allows A ps ∧ R.Allows A qs :=
  List.forall_mem_append

@[simp] theorem allows_inside :
    R.Allows A (qs.map fun q => (s :: q.1, q.2)) ↔ R.Allows (A ++ [s]) qs := by
  simp only [Allows, List.forall_mem_map, List.append_assoc, List.cons_append, List.nil_append]

/-- Where all parameters may be mentioned, it does not matter which names are bound. -/
theorem Allows.rebound {e : Expr K} (h : R.Allows A (e.mentions bound))
    (hparams : ∀ A s, R.permits A (.parameter s)) (bound' : List String) :
    R.Allows A (e.mentions bound') := by
  intro q hq
  obtain hq | ⟨s, hs⟩ := e.mentions_rebound bound bound' q hq
  · exact h q hq
  · rw [hs]
    exact hparams _ s

/-- What a decision expression sees inside, and where it came from. -/
structure Inside (R : Comparison K) (s : String) (a b : Env K) : Prop where
  sees : R.sees a b
  entered : ∃ A, a.active = A ++ [s] ∧ s ∉ A ∧ R.permits A (.dexpr s)

theorem Inside.bind (h : R.Inside s a b) (i : String) (v : Value K) :
    R.Inside s (a.bind i v) (b.bind i v) :=
  ⟨R.bound i v h.sees, h.entered⟩

theorem Inside.spawn (h : R.Inside s a b) : R.Inside s a.spawn b.spawn := by
  obtain ⟨A, hA, hs, hp⟩ := h.entered
  exact ⟨R.spawn hp h.sees, A, hA, hs, hp⟩

/-- Looking into a decision expression. Its name is the last that is looked into then, and all names
stay bound. -/
theorem entering {f g : Env K → Run K α} (s : String) (hab : R.sees a b)
    (hp : R.permits a.active (.dexpr s))
    (h : ∀ {a' b'}, a'.active = a.active ++ [s] → a'.frames = a.frames → R.Inside s a' b' →
      R.rel (f a') (g b')) :
    R.rel (Run.ofExcept (a.enter s) >>= f) (Run.ofExcept (b.enter s) >>= g) := by
  refine R.enter s hab hp fun henter hinside => ?_
  obtain ⟨hs, rfl⟩ := Env.enter_eq_ok.1 henter
  exact h rfl rfl ⟨hinside, a.active, rfl, hs, hp⟩

end Comparison

/-- Two lookups that are related in everything that may be mentioned. -/
structure Comparison.Lookups (R : Comparison K) (L M : Lookup K) : Prop where
  parameter : ∀ {A} s idx, R.permits A (.parameter s) →
    R.rel (L.parameter s idx) (M.parameter s idx)
  elements : ∀ {a b : Env K} s given, R.sees a b → R.permits a.active (.domain s) →
    R.rel (L.elements s a given) (M.elements s b given)
  body : ∀ {a b : Env K} {s d r r'}, R.Inside s a b → R.like r r' → r.dexprs.find? s = some d →
    R.rel (L.body d.body a) (M.body d.body b)

/-- Environments that are seen alike, while some decision expressions are looked into and some names
are bound. -/
structure Comparison.Meets (R : Comparison K) (A bound : List String) (a b : Env K) : Prop where
  sees : R.sees a b
  active : a.active = A
  binds : a.Binds bound

/-- Two stages that bind the same symbol and are related in their elements and filters. -/
structure Comparison.Stages (R : Comparison K) (A bound : List String) (s t : Stage K) : Prop where
  symbol : s.symbol = t.symbol
  elements : ∀ {a b}, R.Meets A bound a b → R.rel (s.elements a) (t.elements b)
  admits : ∀ {a b}, R.Meets A (s.symbol :: bound) a b → R.rel (s.admits a) (t.admits b)

/-- Two lists of stages that are related one by one, each where those before it are bound. -/
inductive Comparison.StageLists (R : Comparison K) (A : List String) :
    List String → List (Stage K) → List (Stage K) → Prop
  | nil {bound} : StageLists R A bound [] []
  | cons {bound s t ss ts} (hst : R.Stages A bound s t)
    (h : StageLists R A (s.symbol :: bound) ss ts) : StageLists R A bound (s :: ss) (t :: ts)

namespace Comparison

variable {R : Comparison K} {L M : Lookup K} {a b : Env K} {A bound : List String}

/-! ## Steps shared by all expressions -/

theorem ofExcept {x : Except (Cause K) α} (hx : Plain x) :
    R.rel (Run.ofExcept x) (Run.ofExcept x) := by
  cases x with
  | ok a => exact R.ret a
  | error c => exact R.failure c (hx c rfl)

theorem mapM {f g : α → Run K β} (as : List α) (h : ∀ a, R.rel (f a) (g a)) :
    R.rel (as.mapM f) (as.mapM g) := by
  induction as with
  | nil => exact R.ret []
  | cons a as ih =>
    simp only [List.mapM_cons]
    exact R.seq (h a) fun b => R.seq ih fun bs => R.ret _

theorem asNumber {x y : Run K (Value K)} (e : Expr K) (h : R.rel x y) :
    R.rel (e.asNumber x) (e.asNumber y) := by
  have hvalue : R.rel (x >>= e.readNumber) (y >>= e.readNumber) := by
    refine R.seq h fun v => ?_
    cases v with
    | real x => exact R.ret x
    | int i => exact ofExcept (.scalarOfInt i)
    | bool b => exact R.ret _
    | _ => exact R.failure _ rfl
  cases e with
  | num x => exact R.ret x
  | item set key => exact R.failure _ rfl
  | _ => exact hvalue

theorem rangeBound {x y : Run K (Value K)} (e : Expr K) (h : R.rel x y) :
    R.rel (LinearModel.rangeBound e x) (LinearModel.rangeBound e y) := by
  refine R.seq (asNumber e h) fun x => ?_
  cases Scalar.toInt? x with
  | some i => exact R.ret i
  | none => exact R.failure _ rfl

theorem truth {x y : Run K (Value K)} (e : Expr K) (h : R.rel x y) :
    R.rel (do return Scalar.isTrue (← e.asNumber x)) (do return Scalar.isTrue (← e.asNumber y)) :=
  R.seq (asNumber e h) fun _ => R.ret _

/-- A decision expression that is being looked into, with its index if it is given one. -/
theorem dexprScope {v w : Option (Env K → Run K (Value K))}
    {F G : DecisionExpression K × Env K → Run K α} (hab : R.Inside s a b)
    (hvw : Option.Rel (fun v w => R.rel (v a) (w b)) v w)
    (hF : ∀ {d a' b' r r'}, R.like r r' → r.dexprs.find? s = some d → a'.active = a.active →
      R.Inside s a' b' → R.rel (F (d, a')) (G (d, b'))) :
    R.rel (dexprScope s v a >>= F) (dexprScope s w b >>= G) := by
  obtain ⟨A, _, hs, hp⟩ := hab.entered
  simp only [LinearModel.dexprScope, bind_assoc]
  refine R.declarations fun r r' hr => ?_
  rw [← R.dexprs hp hs hr]
  cases hd : r.dexprs.find? s with
  | none => exact R.undeclared hp hs
  | some d =>
    obtain ⟨symbol, type, body, _ | i, domain⟩ := d
    · cases hvw with
      | none => exact hF hr hd rfl hab.spawn
      | some hvw => exact R.failure _ rfl
    · cases hvw with
      | none => exact R.failure _ rfl
      | some hvw =>
        simp only [bind_assoc, pure_bind]
        exact R.seq hvw fun x => hF hr hd rfl (hab.spawn.bind _ _)

theorem declaredVariable (s : String) (hp : R.permits A (.dvar s)) :
    R.rel (declaredVariable s) (declaredVariable s) := by
  refine R.declarations fun r r' hr => ?_
  rw [R.vars hp hr]
  rcases r'.vars.find? s with _ | v
  · exact R.failure _ rfl
  · exact R.ret _

theorem singleVariable (s : String) (v : Variable K) (idx : Index K)
    (hp : R.permits A (.dvar s)) : R.rel (singleVariable s v idx) (singleVariable s v idx) := by
  simp only [LinearModel.singleVariable]
  split
  · exact R.failure _ rfl
  · refine R.declarations fun r r' hr => ?_
    rw [R.vars hp hr]
    split
    · exact R.failure _ rfl
    · exact R.ret _

theorem variableAt (s : String) {x y : Run K (Index K)} (h : R.rel x y)
    (hp : R.permits A (.dvar s)) : R.rel (variableAt s x) (variableAt s y) :=
  R.seq (declaredVariable s hp) fun v => R.seq h fun idx => singleVariable s v idx hp

theorem keyedSet (set : String) (n : Nat) : R.rel (keyedSet set n) (keyedSet set n) := by
  refine R.declarations fun r r' hr => ?_
  obtain hsame | ⟨hnone, hfirst⟩ := R.tupleSets hr set
  · rw [hsame]
    rcases r'.tupleSets.find? set with _ | d
    · exact R.failure _ rfl
    · dsimp only
      split
      · exact R.failure _ rfl
      · exact R.ret _
  · rw [hnone]
    exact hfirst _ _

theorem recordOf (set : String) (d : TupleSet K) (key : Index K) :
    R.rel (recordOf set d key) (recordOf set d key) := by
  simp only [LinearModel.recordOf]
  rcases d.findByKey key with _ | ⟨v, _ | ⟨u, vs⟩⟩
  · exact R.failure _ rfl
  · exact R.ret _
  · exact R.seq (R.warning _) fun _ => R.ret _

theorem recordAt (set : String) (n : Nat) {x y : Run K (Index K)} (h : R.rel x y) :
    R.rel (recordAt set n x) (recordAt set n y) :=
  R.seq (keyedSet set n) fun d => R.seq h fun key => recordOf set d key

/-! ## Enumeration -/

theorem Meets.bind (h : R.Meets A bound a b) (s : String) (v : Value K) :
    R.Meets A (s :: bound) (a.bind s v) (b.bind s v) :=
  ⟨R.bound s v h.sees, h.active, h.binds.bind s v⟩

theorem Meets.of_subset {bound' : List String} (h : R.Meets A bound a b) (hsub : bound' ⊆ bound) :
    R.Meets A bound' a b :=
  { h with binds := h.binds.of_subset hsub }

theorem StageLists.length_eq {ss ts : List (Stage K)} (h : R.StageLists A bound ss ts) :
    ss.length = ts.length := by
  induction h with
  | nil => rfl
  | cons _ _ ih => simp [ih]

theorem visit {f g : Env K → Run K (List α)} {ss ts : List (Stage K)}
    (h : R.StageLists A bound ss ts)
    (hfg : ∀ {a b}, R.Meets A (ss.map (·.symbol) ++ bound) a b → R.rel (f a) (g b))
    (hab : R.Meets A bound a b) : R.rel (Stage.visit ss f a) (Stage.visit ts g b) := by
  induction h generalizing a b with
  | nil => exact hfg hab
  | @cons bound s t ss ts hst _ ih =>
    refine R.seq (hst.elements hab) fun vs => ?_
    refine R.seq (mapM vs fun v => ?_) fun found => R.ret _
    rw [← hst.symbol]
    have hinner := hab.bind s.symbol v
    refine R.seq (hst.admits hinner) fun passes => ?_
    cases passes with
    | true =>
      refine ih (fun hlast => hfg (hlast.of_subset ?_)) hinner
      simp
    | false => exact R.ret []

theorem enumerate {ss ts : List (Stage K)} {p q : Env K → Run K Bool} {f g : Env K → Run K α}
    (h : R.StageLists A bound ss ts)
    (hpq : ∀ {a b}, R.Meets A (ss.map (·.symbol) ++ bound) a b → R.rel (p a) (q b))
    (hfg : ∀ {a b}, R.Meets A (ss.map (·.symbol) ++ bound) a b → R.rel (f a) (g b))
    (hab : R.Meets A bound a b) : R.rel (Stage.enumerate ss p f a) (Stage.enumerate ts q g b) := by
  simp only [Stage.enumerate]
  rw [R.depth hab.sees, h.length_eq]
  split
  · exact R.failure _ rfl
  · refine visit h (fun hinner => R.seq (hpq hinner) fun holds => ?_) hab
    cases holds with
    | true => exact R.seq (hfg hinner) fun _ => R.ret _
    | false => exact R.ret []

/-! ## Expressions -/

mutual
/-- Related lookups give an expression related values, if it mentions nothing else. -/
theorem exprValue (hL : R.Lookups L M) : ∀ (e : Expr K) {A bound : List String} {a b : Env K},
    R.Meets A bound a b → R.Allows A (e.mentions bound) → R.rel (e.value L a) (e.value M b)
  | .num _, _, _, _, _, _, _ | .str _, _, _, _, _, _, _ | .record _ _, _, _, _, _, _, _ => by
    exact R.ret _
  | .name s, A, bound, a, b, hab, he => by
    simp only [value, ← R.binding hab.sees s]
    cases hs : a.get? s with
    | some v => exact R.ret v
    | none =>
      have hfree : s ∉ bound := fun hmem => by simpa [hs] using hab.binds s hmem
      simp only [mentions, if_neg hfree, allows_cons] at he
      refine R.declarations fun r r' hr => ?_
      obtain hsame | ⟨hnone, hfirst⟩ := R.params hr s
      · rw [hsame]
        split
        · exact hL.parameter s [] he.1
        · exact R.failure _ rfl
      · simp only [hnone, Bool.false_eq_true, if_false]
        exact hfirst _ _
  | .param s idx, _, _, a, b, hab, he => by
    simp only [mentions, allows_cons] at he
    exact R.seq (exprElements hL idx hab he.2) fun idx => hL.parameter s idx he.1
  | .var n _ _, _, _, a, b, hab, he => by
    simp only [mentions, allows_cons] at he
    exact R.seq (R.assigned he.1 n hab.sees) fun x => R.ret _
  | .ivar s idx, _, _, a, b, hab, he => by
    simp only [mentions, allows_cons] at he
    refine R.seq (variableAt s (exprElements hL idx hab he.2) he.1) fun n => ?_
    exact R.seq (R.assigned he.1 n.1 hab.sees) fun x => R.ret _
  | .dexpr s none, _, _, a, b, hab, he => by
    simp only [mentions, allows_cons, ← hab.active] at he
    refine entering s hab.sees he.1 fun _ _ hinside => ?_
    refine dexprScope hinside .none fun hr hd _ hinner => ?_
    exact R.seq (hL.body hinner hr hd) fun x => R.ret _
  | .dexpr s (some e), _, bound, a, b, hab, he => by
    simp only [mentions, List.cons_append, allows_cons, allows_append, allows_inside,
      ← hab.active] at he
    refine entering s hab.sees he.1 fun hactive hframes hinside => ?_
    -- the index is evaluated inside, and still sees the bindings around the reference
    have hindex := exprValue hL e ⟨hinside.sees, hactive, hab.binds.of_frames hframes⟩ he.2.2
    refine dexprScope hinside (.some hindex) fun hr hd _ hinner => ?_
    exact R.seq (hL.body hinner hr hd) fun x => R.ret _
  | .arith op l r, _, _, a, b, hab, he => by
    simp only [mentions, allows_append] at he
    refine R.seq (asNumber l (exprValue hL l hab he.1)) fun x => ?_
    exact R.seq (asNumber r (exprValue hL r hab he.2)) fun y => R.ret _
  | .neg e, _, _, a, b, hab, he => by
    exact R.seq (asNumber e (exprValue hL e hab he)) fun x => R.ret _
  | .rel op l r, _, _, a, b, hab, he => by
    simp only [mentions, allows_append] at he
    refine R.seq (exprValue hL l hab he.1) fun v => ?_
    refine R.seq (exprValue hL r hab he.2) fun w => ?_
    exact R.seq (ofExcept (.compare op v w)) fun c => R.ret _
  | .logic .not es, _, _, a, b, hab, he => by
    refine R.seq (exprFirstTruth hL es hab he) fun o => ?_
    cases o with
    | some c => exact R.ret _
    | none => exact R.failure _ rfl
  | .logic .and es, _, _, a, b, hab, he => by
    exact R.seq (exprAllTrue hL es hab he) fun c => R.ret _
  | .logic .or es, _, _, a, b, hab, he => by
    exact R.seq (exprAnyTrue hL es hab he) fun c => R.ret _
  | .field e f, _, _, a, b, hab, he => by
    refine R.seq (exprValue hL e hab he) fun v => ?_
    cases v with
    | record s vs => exact ofExcept (.field s vs f)
    | _ => exact R.failure _ rfl
  | .item set key, _, _, a, b, hab, he => by
    exact recordAt set key.length (exprElements hL key hab he)
  | .sum its body none, _, bound, a, b, hab, he => by
    simp only [mentions, allows_append, ← map_symbol_stages L its] at he
    refine R.seq ?_ fun terms => R.ret _
    exact enumerate (exprStages hL its he.1) (fun _ => R.ret true)
      (fun hinner => asNumber body (exprValue hL body hinner he.2)) hab
  | .sum its body (some c), _, bound, a, b, hab, he => by
    simp only [mentions, allows_append, ← map_symbol_stages L its] at he
    refine R.seq ?_ fun terms => R.ret _
    exact enumerate (exprStages hL its he.1.1)
      (fun hinner => truth c (exprValue hL c hinner he.2))
      (fun hinner => asNumber body (exprValue hL body hinner he.1.2)) hab

theorem exprElements (hL : R.Lookups L M) : ∀ (es : List (Expr K)) {A bound : List String}
    {a b : Env K}, R.Meets A bound a b → R.Allows A (allMentions bound es) →
      R.rel (elements L es a) (elements M es b)
  | [], _, _, _, _, _, _ => by
    exact R.ret _
  | e :: es, _, _, a, b, hab, he => by
    simp only [allMentions, allows_append] at he
    refine R.seq (exprValue hL e hab he.1) fun v => ?_
    exact R.seq (exprElements hL es hab he.2) fun vs => R.ret _

theorem exprFirstTruth (hL : R.Lookups L M) : ∀ (es : List (Expr K)) {A bound : List String}
    {a b : Env K}, R.Meets A bound a b → R.Allows A (allMentions bound es) →
      R.rel (firstTruth L es a) (firstTruth M es b)
  | [], _, _, _, _, _, _ => by
    exact R.ret _
  | e :: _, _, _, a, b, hab, he => by
    simp only [allMentions, allows_append] at he
    exact R.seq (asNumber e (exprValue hL e hab he.1)) fun x => R.ret _

theorem exprAllTrue (hL : R.Lookups L M) : ∀ (es : List (Expr K)) {A bound : List String}
    {a b : Env K}, R.Meets A bound a b → R.Allows A (allMentions bound es) →
      R.rel (allTrue L es a) (allTrue M es b)
  | [], _, _, _, _, _, _ => by
    exact R.ret _
  | e :: es, _, _, a, b, hab, he => by
    simp only [allMentions, allows_append] at he
    refine R.seq (asNumber e (exprValue hL e hab he.1)) fun x => ?_
    split
    · exact exprAllTrue hL es hab he.2
    · exact R.ret _

theorem exprAnyTrue (hL : R.Lookups L M) : ∀ (es : List (Expr K)) {A bound : List String}
    {a b : Env K}, R.Meets A bound a b → R.Allows A (allMentions bound es) →
      R.rel (anyTrue L es a) (anyTrue M es b)
  | [], _, _, _, _, _, _ => by
    exact R.ret _
  | e :: es, _, _, a, b, hab, he => by
    simp only [allMentions, allows_append] at he
    refine R.seq (asNumber e (exprValue hL e hab he.1)) fun x => ?_
    split
    · exact R.ret _
    · exact exprAnyTrue hL es hab he.2

theorem exprStages (hL : R.Lookups L M) : ∀ (its : List (Iter K)) {A bound : List String},
    R.Allows A (Iter.allMentions bound its) → R.StageLists A bound (stages L its) (stages M its)
  | [], _, _, _ => by
    exact .nil
  | it :: its, _, _, he => by
    simp only [Iter.allMentions, allows_append] at he
    refine .cons (exprStage hL it he.1) (exprStages hL its ?_)
    rw [symbol_stage]
    exact he.2

theorem exprStage (hL : R.Lookups L M) : ∀ (it : Iter K) {A bound : List String},
    R.Allows A (it.mentions bound) → R.Stages A bound (stage L it) (stage M it)
  | .mk s src none, _, _, he => by
    exact ⟨rfl, fun hab => exprSource hL src hab he, fun _ => R.ret _⟩
  | .mk s src (some f), _, _, he => by
    simp only [Iter.mentions, allows_append] at he
    exact ⟨rfl, fun hab => exprSource hL src hab he.1,
      fun hab => truth f (exprValue hL f hab he.2)⟩

theorem exprSource (hL : R.Lookups L M) : ∀ (src : Source K) {A bound : List String}
    {a b : Env K}, R.Meets A bound a b → R.Allows A (src.mentions bound) →
      R.rel (sourceElements L src a) (sourceElements M src b)
  | .named s none, _, _, a, b, hab, he => by
    simp only [Source.mentions, allows_cons, ← hab.active] at he
    exact hL.elements s none hab.sees he.1
  | .named s (some e), _, _, a, b, hab, he => by
    simp only [Source.mentions, allows_cons] at he
    exact R.seq (exprValue hL e hab he.2) fun v =>
      hL.elements s (some v) hab.sees (hab.active ▸ he.1)
  | .range x y, _, _, a, b, hab, he => by
    simp only [Source.mentions, allows_append] at he
    refine R.seq (rangeBound x (exprValue hL x hab he.1)) fun i => ?_
    exact R.seq (rangeBound y (exprValue hL y hab he.2)) fun j => R.ret _
end

theorem exprNumber (hL : R.Lookups L M) (e : Expr K) (hab : R.Meets A bound a b)
    (he : R.Allows A (e.mentions bound)) : R.rel (e.number L a) (e.number M b) :=
  asNumber e (exprValue hL e hab he)

theorem exprHolds (hL : R.Lookups L M) (c : Option (Expr K)) (hab : R.Meets A bound a b)
    (hc : ∀ e ∈ c, R.Allows A (e.mentions bound)) : R.rel (holds L c a) (holds M c b) := by
  cases c with
  | none => exact R.ret true
  | some c => exact truth c (exprValue hL c hab (hc c rfl))

theorem boundValues (its : List (Iter K)) (hab : R.sees a b) :
    R.rel (boundValues its a) (boundValues its b) := by
  refine mapM its fun it => ?_
  simp only [Env.get, R.binding hab]
  exact ofExcept (Plain.env_get b it.symbol)

theorem combinations (hL : R.Lookups L M) (its : List (Iter K)) (c : Option (Expr K))
    {f g : Env K → Run K α}
    (hfg : ∀ {a b}, R.Meets A (its.map Iter.symbol ++ bound) a b → R.rel (f a) (g b))
    (hab : R.Meets A bound a b) (hits : R.Allows A (Iter.allMentions bound its))
    (hc : ∀ e ∈ c, R.Allows A (e.mentions (its.map Iter.symbol ++ bound))) :
    R.rel (LinearModel.enumerate L its c a f) (LinearModel.enumerate M its c b g) := by
  simp only [← map_symbol_stages L its] at hfg hc
  exact enumerate (exprStages hL its hits) (fun hinner => exprHolds hL c hinner hc) hfg hab

/-- The members of a comprehension. -/
theorem comprehend (hL : R.Lookups L M) {d : ComputedSet K} (hab : R.Meets A bound a b)
    (hd : R.Allows A (d.mentions bound)) : R.rel (comprehend L d a) (comprehend M d b) := by
  simp only [ComputedSet.mentions, allows_append, List.flatMap_append] at hd
  obtain ⟨hits, hcondition, houtput⟩ := hd
  refine R.seq (combinations hL d.iterators d.condition ?_ hab hits ?_) fun _ => R.ret _
  · intro a b hab
    cases ho : d.output with
    | none =>
      simp only [Env.get, R.binding hab.sees]
      exact R.seq (ofExcept (Plain.env_get b _)) fun v => R.ret _
    | some e =>
      refine R.seq (exprValue hL e hab ?_) fun v => R.ret _
      simpa [ho] using houtput
  · intro e he
    simpa [Option.mem_def.1 he] using hcondition

/-! ## Substitution -/

/-- What a first step returns may be relied on when the second one is compared. -/
def Reliable (R : Comparison K) : Prop :=
  ∀ {α β : Type} {x y : Run K α} {f g : α → Run K β} {P : α → Prop}, R.rel x y → x.Yields P →
    (∀ a, P a → R.rel (f a) (g a)) → R.rel (x >>= f) (y >>= g)

/-- What comes out of a step mentions no more than what went in, or there is no need to know. -/
theorem seqMentions (hR : R.Reliable ∨ ∀ A m, R.permits A m) {x y : Run K α} {f g : α → Run K β}
    {mentions : α → List Site} (hxy : R.rel x y) (hx : x.Yields fun a => mentions a ⊆ qs)
    (hqs : R.Allows A qs) (hfg : ∀ a, R.Allows A (mentions a) → R.rel (f a) (g a)) :
    R.rel (x >>= f) (y >>= g) := by
  obtain hR | hall := hR
  · exact hR hxy hx fun a ha => hfg a fun q hq => hqs q (ha hq)
  · exact R.seq hxy fun a => hfg a fun q _ => hall _ _

mutual
theorem exprSubstitute (hL : R.Lookups L M) (hR : R.Reliable ∨ ∀ A m, R.permits A m) :
    ∀ (e : Expr K) {A bound : List String} {a b : Env K}, R.Meets A bound a b →
      R.Allows A (e.mentions bound) → R.rel (e.substitute L a) (e.substitute M b)
  | .num _, _, _, _, _, _, _ | .str _, _, _, _, _, _, _ | .record _ _, _, _, _, _, _, _
  | .var _ _ _, _, _, _, _, _, _ | .dexpr _ none, _, _, _, _, _, _ => by
    exact R.ret _
  | .name s, _, _, a, b, hab, _ => by
    simp only [substitute, R.binding hab.sees s]
    rcases b.get? s with _ | v
    · exact R.ret _
    · exact ofExcept (.ofValue v)
  | .param s idx, _, _, a, b, hab, he => by
    simp only [mentions, allows_cons] at he
    exact R.seq (exprSubstituteAll hL hR idx hab he.2) fun idx => R.ret _
  | .ivar s idx, _, _, a, b, hab, he => by
    simp only [mentions, allows_cons] at he
    exact R.seq (variableAt s (exprElements hL idx hab he.2) he.1) fun n => R.ret _
  | .dexpr s (some e), _, _, a, b, hab, he => by
    simp only [mentions, List.cons_append, allows_cons, allows_append] at he
    exact R.seq (exprSubstitute hL hR e hab he.2.1) fun e => R.ret _
  | .arith op l r, _, _, a, b, hab, he | .rel op l r, _, _, a, b, hab, he => by
    simp only [mentions, allows_append] at he
    exact R.seq (exprSubstitute hL hR l hab he.1) fun l =>
      R.seq (exprSubstitute hL hR r hab he.2) fun r => R.ret _
  | .neg e, _, _, a, b, hab, he => by
    exact R.seq (exprSubstitute hL hR e hab he) fun e => R.ret _
  | .logic op es, _, _, a, b, hab, he => by
    exact R.seq (exprSubstituteAll hL hR es hab he) fun es => R.ret _
  | .field e f, _, _, a, b, hab, he => by
    refine R.seq (exprSubstitute hL hR e hab he) fun e => ?_
    cases e with
    | record s vs => exact R.seq (ofExcept (.field s vs f)) fun v => ofExcept (.ofValue v)
    | _ => exact R.ret _
  | .item set key, _, _, a, b, hab, he => by
    -- the key is looked up as it is after substitution
    refine seqMentions hR (exprSubstituteAll hL hR key hab he)
      (allMentions_substitute L key hab.binds) he fun key hkey => ?_
    have hopen := hab.of_subset (List.nil_subset _)
    refine R.seq (recordAt set key.length (exprElements hL key hopen hkey)) fun v => ?_
    cases v with
    | record s vs => exact R.ret _
    | _ => exact R.failure _ rfl
  | .sum its body none, _, _, a, b, hab, he => by
    simp only [mentions, allows_append] at he
    refine R.seq ?_ fun terms => R.ret _
    exact combinations hL its none (fun hinner => exprSubstitute hL hR body hinner he.2) hab he.1
      nofun
  | .sum its body (some c), _, _, a, b, hab, he => by
    simp only [mentions, allows_append] at he
    refine R.seq ?_ fun terms => R.ret _
    refine combinations hL its (some c) (fun hinner => exprSubstitute hL hR body hinner he.1.2) hab
      he.1.1 ?_
    rintro _ ⟨⟩
    exact he.2

theorem exprSubstituteAll (hL : R.Lookups L M) (hR : R.Reliable ∨ ∀ A m, R.permits A m) :
    ∀ (es : List (Expr K)) {A bound : List String} {a b : Env K}, R.Meets A bound a b →
      R.Allows A (allMentions bound es) → R.rel (substituteAll L es a) (substituteAll M es b)
  | [], _, _, _, _, _, _ => by
    exact R.ret _
  | e :: es, _, _, a, b, hab, he => by
    simp only [allMentions, allows_append] at he
    exact R.seq (exprSubstitute hL hR e hab he.1) fun e =>
      R.seq (exprSubstituteAll hL hR es hab he.2) fun es => R.ret _
end

/-! ## Classification -/

/-- What the bodies of decision expressions mention is allowed inside them. -/
def AllowsBodies (R : Comparison K) : Prop :=
  ∀ {a b : Env K} {s d r r'}, R.Inside s a b → R.like r r' → r.dexprs.find? s = some d →
    R.Allows a.active (d.body.mentions [])

/-- A decision expression is declared in some registry. -/
def Declares (R : Comparison K) (s : String) : Prop :=
  ∃ r r' d, R.like r r' ∧ r.dexprs.find? s = some d

/-- Unfolding a decision expression that is being looked into. What comes out of it is allowed
inside. -/
theorem unfolding (hL : R.Lookups L M) (hR : R.Reliable ∨ ∀ A m, R.permits A m)
    (hbodies : R.AllowsBodies) {idx : Option (Expr K)} {F G : Expr K → Run K α}
    (hab : R.Inside s a b) (hbinds : a.Binds bound)
    (hidx : ∀ e ∈ idx, R.Allows a.active (e.mentions bound))
    (hFG : ∀ e, R.Declares s → R.Allows a.active (e.mentions []) → R.rel (F e) (G e)) :
    R.rel (unfoldDexpr L s idx a >>= F) (unfoldDexpr M s idx b >>= G) := by
  simp only [unfoldDexpr, bind_assoc]
  refine dexprScope hab ?_ fun hr hd hactive hinner => ?_
  · cases idx with
    | none => exact .none
    | some e => exact .some (exprValue hL e ⟨hab.sees, rfl, hbinds⟩ (hidx e rfl))
  · have hbody := hbodies hinner hr hd
    refine seqMentions hR (exprSubstitute hL hR _ ⟨hinner.sees, rfl, Env.binds_nil _⟩ hbody)
      (mentions_substitute L _ (Env.binds_nil _)) hbody fun e he => ?_
    exact hFG e ⟨_, _, _, hr, hd⟩ (hactive ▸ he)

/-- What classification needs: related lookups, bodies that are allowed, and related ways to go on
inside a decision expression. -/
structure Classifies (R : Comparison K) (L M : Lookup K) (p q : Expr K → Env K → Run K Bool) :
    Prop where
  lookups : R.Lookups L M
  reliable : R.Reliable ∨ ∀ A m, R.permits A m
  bodies : R.AllowsBodies
  params : ∀ A s, R.permits A (.parameter s)
  below : ∀ (e : Expr K) {s : String} {a b : Env K}, R.Inside s a b → R.Declares s →
    R.Allows a.active (e.mentions []) → R.rel (p e a) (q e b)

variable {p q : Expr K → Env K → Run K Bool}

mutual
theorem exprIsConstantLike (h : R.Classifies L M p q) :
    ∀ (e : Expr K) {A bound : List String} {a b : Env K},
    R.Meets A bound a b → R.Allows A (e.mentions bound) →
      R.rel (e.isConstantLike L p a) (e.isConstantLike M q b)
  | .num _, _, _, _, _, _, _ | .str _, _, _, _, _, _, _ | .record _ _, _, _, _, _, _, _
  | .name _, _, _, _, _, _, _ | .var _ _ _, _, _, _, _, _, _ | .ivar _ _, _, _, _, _, _, _ => by
    exact R.ret _
  | .dexpr s none, _, _, a, b, hab, he => by
    simp only [mentions, allows_cons, ← hab.active] at he
    refine entering s hab.sees he.1 fun _ _ hinside => ?_
    exact unfolding h.lookups h.reliable h.bodies hinside (Env.binds_nil _) nofun fun e hs he =>
      h.below e hinside hs he
  | .dexpr s (some e), _, _, a, b, hab, he => by
    simp only [mentions, List.cons_append, allows_cons, allows_append, allows_inside,
      ← hab.active] at he
    refine entering s hab.sees he.1 fun hactive hframes hinside => ?_
    refine unfolding h.lookups h.reliable h.bodies hinside (hab.binds.of_frames hframes) ?_
      fun e hs he => h.below e hinside hs he
    rintro _ ⟨⟩
    exact hactive ▸ he.2.2
  | .param s es, _, _, a, b, hab, he => by
    simp only [mentions, allows_cons] at he
    exact exprAreConstantLike h es hab he.2
  | .logic _ es, _, _, a, b, hab, he | .item _ es, _, _, a, b, hab, he => by
    exact exprAreConstantLike h es hab he
  | .arith _ l r, _, _, a, b, hab, he | .rel _ l r, _, _, a, b, hab, he => by
    simp only [mentions, allows_append] at he
    exact R.seq (exprIsConstantLike h l hab he.1) fun _ =>
      R.seq (exprIsConstantLike h r hab he.2) fun _ => R.ret _
  | .neg e, _, _, a, b, hab, he | .field e _, _, _, a, b, hab, he => by
    exact exprIsConstantLike h e hab he
  | .sum its e none, _, bound, a, b, hab, he => by
    simp only [mentions, allows_append] at he
    -- of a sum only the body is looked at, without its iterators
    exact exprIsConstantLike h e hab (he.2.rebound h.params bound)
  | .sum its e (some c), _, bound, a, b, hab, he => by
    simp only [mentions, allows_append] at he
    exact exprIsConstantLike h e hab (he.1.2.rebound h.params bound)

theorem exprAreConstantLike (h : R.Classifies L M p q) :
    ∀ (es : List (Expr K)) {A bound : List String} {a b : Env K},
    R.Meets A bound a b → R.Allows A (allMentions bound es) →
      R.rel (areConstantLike L p es a) (areConstantLike M q es b)
  | [], _, _, _, _, _, _ => by
    exact R.ret _
  | e :: es, _, _, a, b, hab, he => by
    simp only [allMentions, allows_append] at he
    exact R.seq (exprIsConstantLike h e hab he.1) fun _ =>
      R.seq (exprAreConstantLike h es hab he.2) fun _ => R.ret _
end

/-! ## Terms -/

/-- What splitting into terms needs: all that classification needs, related ways to go on inside a
decision expression, and factors that are related to themselves. -/
structure Splits (R : Comparison K) (L M : Lookup K) (D D' : Descent K) : Prop extends
    R.Classifies L M D.isConstant D'.isConstant where
  terms : ∀ (e factor : Expr K) {s : String} {a b : Env K}, R.Inside s a b → R.Declares s →
    R.Allows a.active (e.mentions []) → R.rel (D.terms e factor a) (D'.terms e factor b)
  scale : ∀ op factor e, R.rel (scale op factor e) (scale op factor e)
  leftover : ∀ e, R.rel (fail (.sumNotFlattened e) : Run K (List (Term K)))
    (fail (.sumNotFlattened e))
  spawns : ∀ {a b : Env K}, R.sees a b → R.sees a.spawn b.spawn

section Terms

variable {D D' : Descent K} (h : R.Splits L M D D')

include h

theorem numberSpawn (e : Expr K) (hab : R.Meets A bound a b) (he : R.Allows A (e.mentions bound)) :
    R.rel (e.number L a.spawn) (e.number M b.spawn) :=
  exprNumber h.lookups e ⟨h.spawns hab.sees, hab.active, Env.binds_nil _⟩ (he.rebound h.params [])

theorem resolveConstant (e : Expr K) (hab : R.Meets A bound a b)
    (he : R.Allows A (e.mentions bound)) :
    R.rel (e.resolveConstant L a) (e.resolveConstant M b) := by
  unfold Expr.resolveConstant
  split
  · exact R.seq (numberSpawn h e hab he) fun x => R.ret _
  · exact R.ret e

/-- An expression that is constant is one term, and any other is left to be split. -/
theorem constantOr (e factor : Expr K) {rest rest' : Run K (List (Term K))}
    (hab : R.Meets A bound a b) (he : R.Allows A (e.mentions bound)) (hrest : R.rel rest rest') :
    R.rel (do
        if ← e.isConstantLike L D.isConstant a then
          return [Term.constant (← scale .mul factor (← e.resolveConstant L a))]
        else rest)
      (do
        if ← e.isConstantLike M D'.isConstant b then
          return [Term.constant (← scale .mul factor (← e.resolveConstant M b))]
        else rest') := by
  refine R.seq (exprIsConstantLike h.toClassifies e hab he) fun isConstant => ?_
  cases isConstant with
  | true =>
    exact R.seq (resolveConstant h e hab he) fun _ => R.seq (h.scale _ _ _) fun _ => R.ret _
  | false => exact hrest

/-- A decision expression: its value, or the terms of its body. -/
theorem dexprTerms (s : String) (idx : Option (Expr K)) (factor : Expr K)
    (hab : R.Meets A bound a b) (he : R.Allows A ((dexpr s idx).mentions bound)) :
    R.rel ((dexpr s idx).terms L D factor a) ((dexpr s idx).terms M D' factor b) := by
  have hnumber := numberSpawn h (.dexpr s idx) hab he
  have hs : R.permits A (.dexpr s) := by
    cases idx <;> simp only [mentions, List.cons_append, allows_cons] at he <;> exact he.1
  refine entering s hab.sees (by rwa [hab.active]) fun {a' b'} ha hframes hinside => ?_
  refine unfolding h.lookups h.reliable h.bodies hinside (hab.binds.of_frames hframes) ?_
    fun body hdeclared hbody => ?_
  · rintro e ⟨rfl⟩
    simp only [mentions, List.cons_append, allows_cons, allows_append, allows_inside] at he
    rw [ha, hab.active]
    exact he.2.2
  · refine R.seq (h.below body hinside hdeclared hbody) fun isConstant => ?_
    cases isConstant with
    | true => exact R.seq hnumber fun x => R.seq (h.scale _ _ _) fun _ => R.ret _
    | false => exact h.terms body factor hinside hdeclared hbody

/-- Related lookups split an expression into the same terms. -/
theorem exprTerms (hab : R.Meets A bound a b) : ∀ e factor : Expr K,
    R.Allows A (e.mentions bound) → R.rel (e.terms L D factor a) (e.terms M D' factor b)
  | .var n base idx, factor, _ => by
    exact R.ret _
  | .ivar s idx, factor, he => by
    simp only [mentions, allows_cons] at he
    exact R.seq (variableAt s (exprElements h.lookups idx hab he.2) he.1) fun _ => R.ret _
  | .dexpr s idx, factor, he => dexprTerms h s idx factor hab he
  | .sum its body c, factor, _ => by
    exact h.leftover _
  | .rel op l r, factor, _ | .logic op es, factor, _ | .str s, factor, _
  | .record s vs, factor, _ => by
    exact R.failure _ rfl
  | .neg e, factor, he => by
    refine constantOr h (.neg e) factor hab he (R.seq (h.scale _ _ _) fun f => ?_)
    exact exprTerms hab e f he
  | .arith op l r, factor, he => by
    refine constantOr h (.arith op l r) factor hab he ?_
    simp only [mentions, allows_append] at he
    have hl := exprIsConstantLike h.toClassifies l hab he.1
    have hr := exprIsConstantLike h.toClassifies r hab he.2
    have htl := fun f => exprTerms hab l f he.1
    have htr := fun f => exprTerms hab r f he.2
    cases op with
    | add => exact R.seq (htl factor) fun _ => R.seq (htr factor) fun _ => R.ret _
    | sub =>
      refine R.seq (htl factor) fun _ => R.seq (h.scale _ _ _) fun f => ?_
      exact R.seq (htr f) fun _ => R.ret _
    | mul =>
      refine R.seq hl fun isConstantL => ?_
      cases isConstantL with
      | true => exact R.seq (resolveConstant h l hab he.1) fun _ => R.seq (h.scale _ _ _) htr
      | false =>
        refine R.seq hr fun isConstantR => ?_
        cases isConstantR with
        | true => exact R.seq (resolveConstant h r hab he.2) fun _ => R.seq (h.scale _ _ _) htl
        | false => exact R.failure _ rfl
    | div =>
      refine R.seq hr fun isConstantR => ?_
      cases isConstantR with
      | true => exact R.seq (resolveConstant h r hab he.2) fun _ => R.seq (h.scale _ _ _) htl
      | false => exact R.failure _ rfl
  | .num _, factor, he | .name _, factor, he | .param _ _, factor, he | .field _ _, factor, he
  | .item _ _, factor, he => by
    exact constantOr h _ factor hab he (R.failure _ rfl)

end Terms

/-! ## Rules -/

/-- A comparison of evaluation with itself, in which everything may be mentioned. -/
structure Follows (R : Comparison K) : Prop where
  lookups : ∀ n, R.Lookups (lookup n) (lookup n)
  looking : ∀ {α : Type} {f : Lookup K → Run K α}, (∀ n, R.rel (f (lookup n)) (f (lookup n))) →
    R.rel (Run.lookup >>= f) (Run.lookup >>= f)
  sees : ∀ {a b}, R.sees a b ↔ b = a
  permits : ∀ A m, R.permits A m

namespace Follows

theorem meets (h : R.Follows) (a : Env K) : R.Meets a.active [] a a :=
  ⟨h.sees.2 rfl, rfl, Env.binds_nil _⟩

theorem allows (h : R.Follows) (A : List String) (qs : List Site) : R.Allows A qs :=
  fun _ _ => h.permits _ _

theorem elements (h : R.Follows) (n : Nat) (es : List (Expr K)) (env : Env K) :
    R.rel (elements (lookup n) es env) (elements (lookup n) es env) :=
  exprElements (h.lookups n) es (h.meets env) (h.allows _ _)

theorem enumerate (h : R.Follows) (n : Nat) (its : List (Iter K)) (c : Option (Expr K))
    {f g : Env K → Run K α} (hfg : ∀ a, R.rel (f a) (g a)) (env : Env K) :
    R.rel (LinearModel.enumerate (lookup n) its c env f)
      (LinearModel.enumerate (lookup n) its c env g) := by
  refine combinations (h.lookups n) its c (fun {a b} hab => ?_) (h.meets env) (h.allows _ _)
    fun _ _ => h.allows _ _
  rw [h.sees.1 hab.sees]
  exact hfg a

theorem nameIn (h : R.Follows) (c : Constraint K) (env : Env K) :
    R.rel (c.nameIn env) (c.nameIn env) := by
  unfold Constraint.nameIn
  split
  · exact R.ret _
  · split
    · exact R.ret _
    · exact h.looking fun n => R.seq (h.elements n _ env) fun _ => R.ret _

variable {f : Constraint K → Env K → Run K α}

mutual
/-- What is done for each constraint of a rule is compared one by one. -/
theorem forEach (h : R.Follows) (hf : ∀ c env, R.rel (f c env) (f c env)) :
    ∀ (r : Rule K) (env : Env K), R.rel (r.forEach f env) (r.forEach f env)
  | .single c, env => by
    exact R.seq (hf c env) fun _ => R.ret _
  | .family _ its c body, env => by
    refine h.looking fun n => R.seq ?_ fun _ => R.ret _
    exact h.enumerate n its c (fun inner => forEachOf h hf body inner) env

theorem forEachOf (h : R.Follows) (hf : ∀ c env, R.rel (f c env) (f c env)) :
    ∀ (rs : List (Rule K)) (env : Env K), R.rel (Rule.forEachOf f rs env) (Rule.forEachOf f rs env)
  | [], _ => by
    exact R.ret _
  | r :: rs, env => by
    exact R.seq (forEach h hf r env) fun _ => R.seq (forEachOf h hf rs env) fun _ => R.ret _
end

end Follows

end Comparison

end LinearModel
