import LinearModel.Proofs.Grammar
import LinearModel.Proofs.Evaluation

/-!
# What declarations read

The elements of sets and the values of parameters are evaluated as they are read. An invariant of
the registry that evaluation keeps is therefore kept by reading. An entity that is declared is new:
nothing has been computed for it yet, a derived parameter holds no values, and the body of a
decision expression has every property that the grammar forms.
-/
namespace LinearModel

open Run Registry
open LinearModel.Parser
open LinearModel.Reading

variable {K : Type} {α β : Type} {Inv : Registry K → Prop} {Q : Entity K → Prop} {p : Parameter K}
  {x : Run K α}

/-! ## Reading and evaluating -/

/-- What holds of a registry while something is read, and what holds of it if that fails. -/
structure Registry.Invariant (K : Type) where
  holds : Registry K → Prop
  failed : Registry K → Prop
  fails : ∀ {t}, holds t → failed t

/-- An invariant of which nothing is said after a failure. -/
abbrev Registry.Invariant.onReturn (Inv : Registry K → Prop) : Invariant K :=
  ⟨Inv, fun _ => True, fun _ => trivial⟩

/-- An invariant that survives a failure. -/
abbrev Registry.Invariant.throughout (Inv : Registry K → Prop) : Invariant K := ⟨Inv, Inv, id⟩

namespace Run

variable {I : Invariant K} {Inv' : Registry K → Prop} {P : α → Prop} {Q : β → Prop}

/-- From a registry with an invariant, a computation leads to a registry with another one, and what
it returns has a property. If it fails, what is left of the invariant holds. -/
def Meets (I : Invariant K) (Inv' : Registry K → Prop) (x : Run K α) (P : α → Prop) :
    Prop :=
  ∀ ⦃s : Store K⦄, I.holds s.registry →
    (∀ ⦃a s'⦄, x.Returns s a s' → Inv' s'.registry ∧ P a) ∧
      ∀ ⦃f s'⦄, x.Fails s f s' → I.failed s'.registry

theorem meets_pure {a : α} (h : P a) : (pure a : Run K α).Meets I I.holds P := by
  refine fun s hs => ⟨fun b s' hb => ?_, fun f s' hf => absurd hf not_fails_pure⟩
  obtain ⟨rfl, rfl⟩ := returns_pure.1 hb
  exact ⟨hs, h⟩

theorem meets_fail {c : Cause K} : (fail c : Run K α).Meets I Inv' P := by
  refine fun s hs => ⟨fun b s' hb => absurd hb not_returns_fail, fun f s' hf => ?_⟩
  obtain ⟨-, rfl⟩ := fails_fail.1 hf
  exact I.fails hs

theorem meets_ofExcept {x : Except (Cause K) α} (h : ∀ a, x = .ok a → P a) :
    (ofExcept x).Meets I I.holds P := by
  cases x with
  | ok a => exact meets_pure (h a rfl)
  | error c => exact meets_fail

theorem Meets.bind {f : α → Run K β} (hx : x.Meets I I.holds P)
    (hf : ∀ a, P a → (f a).Meets I Inv' Q) : (x >>= f).Meets I Inv' Q := by
  refine fun s hs => ⟨fun b s' h => ?_, fun e s' h => ?_⟩
  · obtain ⟨a, s₁, h₁, h₂⟩ := returns_bind.1 h
    obtain ⟨hs₁, ha⟩ := (hx hs).1 h₁
    exact (hf a ha hs₁).1 h₂
  · obtain h | ⟨a, s₁, h₁, h₂⟩ := fails_bind.1 h
    · exact (hx hs).2 h
    · obtain ⟨hs₁, ha⟩ := (hx hs).1 h₁
      exact (hf a ha hs₁).2 h₂

theorem meets_mapM {f : β → Run K α} {bs : List β} (hf : ∀ b ∈ bs, (f b).Meets I I.holds P) :
    (bs.mapM f).Meets I I.holds fun as => ∀ a ∈ as, P a := by
  induction bs with
  | nil => exact meets_pure (by simp)
  | cons b bs ih =>
    rw [List.forall_mem_cons] at hf
    rw [List.mapM_cons]
    refine hf.1.bind fun a ha => Meets.bind (ih hf.2) fun as has => meets_pure ?_
    exact List.forall_mem_cons.2 ⟨ha, has⟩

theorem Preserves.meets (hx : Preserves Inv x) : x.Meets (.onReturn Inv) Inv fun _ => True :=
  fun _ hs => ⟨fun _ _ h => ⟨hx hs h, trivial⟩, fun _ _ _ => trivial⟩

theorem Maintains.meets (hx : Maintains Inv x) : x.Meets (.throughout Inv) Inv fun _ => True :=
  fun _ hs => ⟨fun _ _ h => ⟨hx.returns hs h, trivial⟩, fun _ _ h => hx.fails hs h⟩

end Run

namespace Reading

variable {I : Invariant K} {Inv' : Registry K → Prop} {P : α → Prop} {Q : β → Prop}

/-- From a registry with an invariant, a step leads to a registry with another one, and what it
reads has a property. If it fails, what is left of the invariant holds. -/
def Leads (I : Invariant K) (Inv' : Registry K → Prop) (x : Reading K α) (P : α → Prop) :
    Prop := ∀ c, (x c).Meets I Inv' fun p => P p.1

/-- A step keeps an invariant, and what it reads has a property. -/
abbrev Reads (I : Invariant K) (x : Reading K α) (P : α → Prop) : Prop :=
  Leads I I.holds x P

theorem reads_pure {a : α} (h : P a) : (pure a : Reading K α).Reads I P := fun _ => meets_pure h

theorem Reads.bind {x : Reading K α} {f : α → Reading K β} (hx : x.Reads I P)
    (hf : ∀ a, P a → (f a).Leads I Inv' Q) : (x >>= f).Leads I Inv' Q := fun c =>
  Meets.bind (hx c) fun p hp => hf p.1 hp p.2

theorem reads_ofRun (hx : x.Meets I I.holds P) : (ofRun x).Reads I P := fun _ =>
  Meets.bind hx fun _ ha => meets_pure ha

theorem reads_fail {e : Cause K} : (Reading.fail e : Reading K α).Leads I Inv' P := fun _ =>
  Meets.bind (meets_fail (P := fun _ => False)) fun _ ha => ha.elim

theorem reads_computed {x : Except (Cause K) α} (h : ∀ a, x = .ok a → P a) :
    (ofRun (Run.ofExcept x)).Reads I P :=
  reads_ofRun (meets_ofExcept h)

theorem reads_ofParser {p : Parser K α} (hp : p.Yields P) : (ofParser p).Reads I P := fun _ =>
  meets_ofExcept fun _ ha => hp ha

/-- A step that evaluates nothing. -/
theorem reads_step (p : Parser K α) : (ofParser p).Reads I fun _ => True :=
  reads_ofParser (yields_any p)

theorem reads_get : (get : Reading K (Cursor K)).Reads I fun _ => True :=
  fun _ => meets_pure trivial

theorem reads_modify (f : Cursor K → Cursor K) :
    (modify f : Reading K PUnit).Reads I fun _ => True :=
  fun _ => meets_pure trivial

theorem reads_if {c : Prop} [Decidable c] {x y : Reading K α} (hx : x.Leads I Inv' P)
    (hy : y.Leads I Inv' P) : (if c then x else y).Leads I Inv' P := by
  split
  exacts [hx, hy]

/-- A check before the rest of a step. -/
theorem reads_check {c : Prop} [Decidable c] {e : Cause K} {x : Unit → Reading K α}
    (hx : ∀ u, (x u).Leads I Inv' P) : (if c then Reading.fail e >>= x else x ()).Leads I Inv' P :=
  reads_if (Reads.bind (reads_fail (P := fun _ => True)) fun u _ => hx u) (hx ())

theorem Reads.weaken {x : Reading K α} (hx : x.Reads I P) (hInv : ∀ {t}, I.holds t → Inv' t) :
    x.Leads I Inv' P :=
  fun c _ hs => ⟨fun _ _ h => ((hx c hs).1 h).imp_left hInv, (hx c hs).2⟩

theorem reads_mapM {f : β → Reading K α} {bs : List β} (hf : ∀ b ∈ bs, (f b).Reads I P) :
    (bs.mapM f).Reads I fun as => ∀ a ∈ as, P a := by
  induction bs with
  | nil => exact reads_pure (by simp)
  | cons b bs ih =>
    rw [List.forall_mem_cons] at hf
    rw [List.mapM_cons]
    refine hf.1.bind fun a ha => Reads.bind (ih hf.2) fun as has => reads_pure ?_
    exact List.forall_mem_cons.2 ⟨ha, has⟩

theorem reads_enclosed {closing : String} {item : Reading K α} (hitem : item.Reads I P)
    (size : Nat) : (enclosed closing item size).Reads I fun as => ∀ a ∈ as, P a := by
  have hloop : ∀ n, (enclosed.loop closing item n).Reads I fun as => ∀ a ∈ as, P a := by
    intro n
    induction n with
    | zero => exact reads_fail
    | succ n ih =>
      refine (reads_step _).bind fun t _ => reads_if (reads_pure (by simp)) ?_
      refine hitem.bind fun a ha => (reads_step _).bind fun b _ => reads_if ?_ ?_
      · refine Reads.bind ih fun as has => reads_pure ?_
        exact List.forall_mem_cons.2 ⟨ha, has⟩
      · exact reads_pure (by simpa using ha)
  refine (reads_step _).bind fun _ _ => (hloop size).bind fun as has => ?_
  exact (reads_step _).bind fun _ _ => reads_pure has

end Reading

/-! ## Entities -/

/-- An entity as it is declared: a derived parameter holds no values, and the body of a decision
expression refers to parameters by proper indices. -/
def Entity.IsFresh : Entity K → Prop
  | .parameter p => p.isSettled = false → p.value = none ∧ p.values = Table.empty
  | .dexpr d => d.body.Indexed
  | _ => True

/-- An entity for which nothing has been computed yet. A derived parameter holds no values, and the
body of a decision expression has a property. -/
def Entity.IsNew (P : Expr K → Prop) : Entity K → Prop
  | .parameter p => p.isDefined = false ∧
      (p.definition.isSome = true → p.value = none ∧ p.values = Table.empty)
  | .domain (.range d) => d.knownFirst = none ∧ d.knownLast = none
  | .domain (.computed d) => d.known = Table.empty
  | .dexpr d => P d.body
  | _ => True

theorem Entity.IsNew.isFresh {e : Entity K} (h : e.IsNew Expr.Indexed) : e.IsFresh := by
  cases e with
  | parameter p =>
    intro hopen
    refine h.2 ?_
    cases hdef : p.definition with
    | none => simp [Parameter.isSettled, hdef] at hopen
    | some e => rfl
  | dexpr d => exact h
  | _ => trivial

/-- A statement whose expressions have a property. -/
def Statement.Has (P : Expr K → Prop) : Statement K → Prop
  | .rule r => r.Has P
  | .goal g => P g.body
  | .declaration _ _ | .ignored _ => True

namespace Grammar

variable {I : Invariant K} {Inv' : Registry K → Prop} {P : Expr K → Prop} {g : Grammar K}
  {r : Registry K}

theorem leads_declaration (text : String) {entity : Reading K (Entity K)}
    (hdeclare : ∀ {t e t'}, I.holds t → Q e → t.declare e = .ok t' → Inv' t')
    (hentity : entity.Reads I Q) : (declaration text entity).Leads I Inv' (Statement.Has P) := by
  refine hentity.bind fun e he c s hs => ⟨fun p s' h => ?_, fun f s' h => ?_⟩
  · simp only [ofRun, returns_bind, returns_registry, returns_ofExcept, returns_modifyRegistry,
      returns_pure] at h
    obtain ⟨_, _, ⟨_, _, ⟨rfl, rfl⟩, t, _, ⟨ht, rfl⟩, _, _, rfl, rfl, rfl⟩, rfl, rfl⟩ := h
    exact ⟨hdeclare hs he ht, trivial⟩
  · -- the entity is entered in the last step, which does not fail
    simp only [ofRun, fails_bind, not_fails_pure, not_fails_registry, returns_registry,
      fails_ofExcept, not_fails_modifyRegistry] at h
    obtain (hfalse | ⟨_, _, ⟨rfl, rfl⟩, ⟨_, _, _, rfl⟩ | h⟩) | h := h
    · exact hfalse.elim
    · exact I.fails hs
    · simp at h
    · simp at h

theorem yields_schemaDeclaration (hQ : ∀ s, Q (.schema s)) : (g.schemaDeclaration r).Yields Q :=
  yields_after _ fun _ => yields_after _ fun _ => yields_after _ fun _ => yields_after _ fun _ =>
    yields_after _ fun _ => yields_pure (hQ _)

theorem Yields.dexprDeclaration (hg : g.Yields P)
    (hQ : ∀ d : DecisionExpression K, P d.body → Q (.dexpr d)) : g.dexprDeclaration.Yields Q := by
  refine yields_after _ fun _ => yields_after _ fun type => yields_after _ fun _ => ?_
  refine yields_after _ fun symbol => yields_after _ fun isIndexed => ?_
  have hend : ∀ index : Option (String × String), (do
      expect "="
      openScope (index.map (·.1)).toList
      let body ← g.expression
      closeScope
      return .dexpr { symbol, type, body, index := index.map (·.1), domain := index.map (·.2) } :
        Parser K (Entity K)).Yields Q := fun index =>
    yields_after _ fun _ => yields_after _ fun _ => hg.expression.bind fun body hbody =>
      yields_after _ fun _ => yields_pure (hQ _ hbody)
  refine yields_if ?_ (yields_after _ hend)
  refine yields_after _ fun _ => yields_after _ fun _ => yields_after _ fun _ => ?_
  exact yields_after _ fun _ => yields_after _ hend

theorem reads_ignoredStatement (text : String) :
    (ignoredStatement text : Reading K (Statement K)).Reads I (Statement.Has P) := by
  refine (reads_ofRun (P := fun _ => True) fun s hs => ⟨fun a s' h => ?_, fun f s' h => ?_⟩).bind
    fun _ _ => (reads_modify _).bind fun _ _ => reads_pure trivial
  · obtain rfl := returns_warn.1 h
    exact ⟨hs, trivial⟩
  · cases congrArg Prod.fst h

theorem Yields.reads_goal (hg : g.Yields P) (sense : Sense) : (do
    return .goal (← ofParser (g.goal sense)) : Reading K (Statement K)).Reads I (Statement.Has P) :=
  (reads_ofParser (hg.goal sense)).bind fun _ hgoal => reads_pure hgoal

end Grammar

variable [Scalar K]

/-- An invariant of the registry that evaluation keeps. -/
structure Registry.KeptByEvaluation (Inv : Registry K → Prop) : Prop where
  value : ∀ e : Expr K, Run.Preserves Inv (e.evaluateValue Env.empty)
  elements : ∀ symbol, Run.Preserves Inv (resolveDomain symbol Env.empty none)

/-- An invariant that evaluation keeps, with what is left of it where the evaluation fails. -/
structure Registry.Invariant.IsKept (I : Invariant K) : Prop where
  value : ∀ e : Expr K, (e.evaluateValue Env.empty).Meets I I.holds fun _ => True
  elements : ∀ symbol, (resolveDomain symbol Env.empty none).Meets I I.holds fun _ => True

theorem Registry.KeptByEvaluation.isKept (h : KeptByEvaluation Inv) :
    (Invariant.onReturn Inv).IsKept :=
  ⟨fun e => (h.value e).meets, fun symbol => (h.elements symbol).meets⟩

theorem Parameter.withArray_ok : ∀ (ds : List (String × List (Value K))) {p q : Parameter K}
    {idx : Index K} {v : Value K}, p.withArray ds idx v = .ok q → ∃ values, q = { p with values }
  | [], p, q, idx, v, h => by
    unfold withArray at h
    split at h
    · cases h
    · exact Parameter.setAt_ok h
  | (domain, elements) :: ds, p, q, idx, v, h => by
    unfold withArray at h
    split at h
    · rename_i items
      split at h
      · cases h
      · -- each item changes the values only, so all of them do
        have hfold : ∀ (es : List (Value K × Value K)) {p q : Parameter K},
            es.foldlM (fun q e => q.withArray ds (idx ++ [e.1]) e.2) p = .ok q →
              ∃ values, q = { p with values } := by
          intro es
          induction es with
          | nil =>
            intro p q h
            cases h
            exact ⟨p.values, rfl⟩
          | cons e es ih =>
            intro p q h
            rw [List.foldlM_cons] at h
            obtain ⟨p₁, hp₁, h⟩ := bind_eq_ok.1 h
            obtain ⟨values, rfl⟩ := withArray_ok ds hp₁
            obtain ⟨values', rfl⟩ := ih h
            exact ⟨values', rfl⟩
        exact hfold _ h
    · cases h

/-! ## Making entities -/

/-- A parameter that has been declared and not been given anything yet. -/
structure Parameter.Unfilled (r : Registry K) (p : Parameter K) : Prop where
  isDefined : p.isDefined = false
  definition : p.definition = none
  iterators : p.iterators = []
  value : p.value = none
  values : p.values = Table.empty
  schema : ∀ s, p.schema = some s →
    p.type = .ofName s.symbol ∧ ∃ word, r.schemas.find? word = some s

/-- Properties of the expressions, iterators and values in declarations, and the property of the
entities that are made of them. -/
structure Registry.Makes (r : Registry K) (I : Invariant K) (P : Expr K → Prop) (J : Iter K → Prop)
    (V : Value K → Prop) (Q : Entity K → Prop) : Prop where
  forms : r.Forms P J
  simplified : ∀ {e e'}, P e → e.simplify none = .ok e' → P e'
  value : ∀ {e}, P e → (e.evaluateValue Env.empty).Meets I I.holds V
  elements : ∀ symbol, (resolveDomain symbol Env.empty none).Meets I I.holds fun _ => True
  normal : ∀ {v}, V v → V v.normalize
  number : ∀ x, V (.real x)
  text : ∀ s, V (.str s)
  list : ∀ {vs}, (∀ v ∈ vs, V v) → V (.list vs)
  record : ∀ {word s vs v}, r.schemas.find? word = some s → (∀ v ∈ vs, V v) →
    (Value.list vs).toRecord s = .ok v → V v
  schema : ∀ s, Q (.schema s)
  decisionVariable : ∀ v, Q (.decisionVariable v)
  index : ∀ d, Q (.domain (.index d))
  range : ∀ symbol {first last}, P first → P last → Q (.domain (.range { symbol, first, last }))
  tuples : ∀ {word schema symbol isExternal vs}, r.schemas.find? word = some schema →
    (∀ v ∈ vs, V v) →
    Q (.domain (.tuples { symbol, schema, isExternal, records := Value.distinct vs }))
  primitive : ∀ {d d' : PrimitiveSet K} {vs}, (∀ v ∈ vs, V v) → d.withElements vs = .ok d' →
    Q (.domain (.primitive d'))
  computed : ∀ {d : ComputedSet K}, d.known = Table.empty → (∀ it ∈ d.iterators, J it) →
    (∀ e, d.condition = some e → P e) → (∀ e, d.output = some e → P e) → Q (.domain (.computed d))
  unfilled : ∀ {p : Parameter K}, p.Unfilled r → Q (.parameter p)
  set : ∀ {p q : Parameter K} {v}, p.Unfilled r → V v → p.set v = .ok q → Q (.parameter q)
  array : ∀ {p q : Parameter K} {v ds}, p.Unfilled r → V v → p.withArray ds [] v = .ok q →
    Q (.parameter q)
  derived : ∀ {p : Parameter K} {e its}, p.Unfilled r → P e →
    (∀ it ∈ its, ∃ s d, it = .mk s (.named d none) none) →
    Q (.parameter { p with definition := some e, iterators := its })

variable {I : Invariant K} {P P' : Expr K → Prop}

namespace Registry.Makes

variable {J : Iter K → Prop} {V : Value K → Prop} {g : Grammar K} {r : Registry K}
  (h : r.Makes I P J V Q)

include h

theorem evaluated {e : Expr K} (he : P e) : (evaluated e).Reads I V :=
  reads_ofRun ((h.value he).bind fun _ hv => meets_pure (h.normal hv))

theorem evaluatedAll {es : List (Expr K)} (hes : ∀ e ∈ es, P e) :
    (evaluatedAll es).Reads I fun vs => ∀ v ∈ vs, V v :=
  reads_mapM fun e he => h.evaluated (hes e he)

theorem rangeDomain (symbol : String) {first last : Expr K}
    (hbounds : Source.Has P (.range first last)) : Q (.domain (rangeDomain symbol first last)) := by
  obtain ⟨_, _, ⟨ha', ha⟩, hb', hb⟩ := hbounds
  unfold LinearModel.rangeDomain
  split
  · exact h.index _
  · exact h.range symbol (h.simplified ha' ha) (h.simplified hb' hb)

variable (hg : g.Yields P)

include hg

theorem comprehension (symbol : String) (outer : Option (Iter K)) :
    (g.comprehension r symbol outer).Yields fun d => Q (.domain (.computed d)) := by
  refine yields_after _ fun _ => yields_after _ fun start => yields_after _ fun _ => ?_
  refine yields_after _ fun _ => (hg.iterators h.forms).bind fun its hits => ?_
  refine yields_after _ fun _ => yields_after _ fun stop => yields_after _ fun _ => ?_
  refine hg.expression.bind fun output houtput => yields_after _ fun _ => ?_
  refine yields_after _ fun _ => yields_after _ fun _ => yields_pure ?_
  refine h.computed rfl hits.1 hits.2 fun e he => ?_
  obtain ⟨-, ⟨⟩⟩ := Option.ite_none_left_eq_some.1 he
  exact houtput

theorem setElements : g.setElements.Reads I fun vs => ∀ v ∈ vs, V v :=
  reads_enclosed ((reads_ofParser hg.arithmetic).bind fun _ he => h.evaluated he) g.size

theorem setRecords {word : String} {s : Schema} (hs : r.schemas.find? word = some s) :
    (g.setRecords s).Reads I fun vs => ∀ v ∈ vs, V v := by
  refine reads_enclosed ((reads_ofParser hg.tupleItems).bind fun es hes => ?_) g.size
  exact (h.evaluatedAll hes).bind fun vs hvs => reads_computed fun v => h.record hs hvs

theorem setBody (symbol type : String) (outer : Option (Iter K)) :
    (g.setBody r symbol type outer).Reads I fun d => Q (.domain d) := by
  refine reads_get.bind fun c _ => reads_if ?_ (reads_if (reads_if ?_ ?_) ?_)
  · have hempty : ∀ v ∈ ([] : List (Value K)), V v := by simp
    refine (reads_step _).bind fun _ _ => ?_
    cases hs : r.schemas.find? type with
    | some s => exact reads_pure (h.tuples hs hempty)
    | none =>
      let d : PrimitiveSet K := { symbol, type := .ofName type, isExternal := true }
      exact reads_pure (h.primitive (d := d) hempty rfl)
  · exact (reads_ofParser (h.comprehension hg symbol outer)).bind fun _ hd => reads_pure hd
  · cases hs : r.schemas.find? type with
    | some s => exact (h.setRecords hg hs).bind fun vs hvs => reads_pure (h.tuples hs hvs)
    | none =>
      refine (h.setElements hg).bind fun vs hvs => ?_
      exact (reads_computed fun _ => h.primitive hvs).bind fun _ hd => reads_pure hd
  · exact (reads_ofParser hg.range).bind fun _ hb => reads_pure (h.rangeDomain symbol hb)

theorem setDeclaration : (g.setDeclaration r).Reads I Q := by
  refine (reads_step _).bind fun _ _ => (reads_step _).bind fun type _ => reads_check fun _ => ?_
  refine (reads_step _).bind fun _ _ => (reads_step _).bind fun symbol _ => ?_
  refine (reads_step _).bind fun outer _ => (reads_step _).bind fun _ _ => ?_
  refine (h.setBody hg symbol type outer).bind fun domain hd => ?_
  exact (reads_step _).bind fun _ _ => reads_check fun _ => reads_pure hd

theorem readsArray : ∀ n, (g.array n).Reads I V
  | 0 => reads_fail
  | n + 1 => by
    refine (reads_step _).bind fun t _ => ?_
    refine (reads_enclosed ?_ g.size).bind fun _ hvs => reads_pure (h.list hvs)
    refine (reads_step _).bind fun t' _ => reads_if (readsArray n) ?_
    exact (reads_ofParser hg.arithmetic).bind fun _ he => h.evaluated he

theorem arrayValues (hp : p.Unfilled r) (isNamed : Bool) :
    (g.arrayValues p isNamed).Reads I fun q => Q (.parameter q) := by
  unfold Grammar.arrayValues
  refine reads_check fun _ => (h.readsArray hg g.size).bind fun values hvalues => reads_ofRun ?_
  refine Meets.bind (meets_mapM (P := fun _ => True) fun s _ =>
    (h.elements s).bind fun vs _ => meets_pure trivial) fun domains _ => ?_
  exact meets_ofExcept fun _ => h.array hp hvalues

/-- A literal is stored at once, and any other definition is kept for later. -/
theorem definition (hp : p.Unfilled r) (dims : List (Option String × String)) :
    (g.definition p dims).Reads I fun q => Q (.parameter q) := by
  have hread : (do
      openScope (dims.filterMap (·.1))
      let e ← g.expression
      closeScope
      return e : Parser K (Expr K)).Yields P :=
    yields_after _ fun _ => hg.expression.bind fun e he => yields_after _ fun _ => yields_pure he
  have hset : ∀ {v}, V v → (ofRun (Run.ofExcept (p.set v))).Reads I fun q => Q (.parameter q) :=
    fun hv => reads_computed fun _ => h.set hp hv
  unfold Grammar.definition
  refine reads_check fun _ => (reads_ofParser hread).bind fun e he => reads_if ?_ (reads_pure ?_)
  · refine (reads_computed fun e' he' => h.simplified he he').bind fun e' he' => ?_
    cases e' with
    | num x => exact hset (h.normal (h.number x))
    | str s => exact hset (h.text s)
    | _ => exact reads_pure (h.derived hp he' (by simp [hp.iterators]))
  · refine h.derived hp he fun it hit => ?_
    obtain ⟨d, -, rfl⟩ := List.mem_map.1 hit
    exact ⟨_, _, rfl⟩

theorem parameterDeclaration : g.parameterDeclaration.Reads I Q := by
  refine (reads_step _).bind fun type _ => (reads_step _).bind fun _ _ => ?_
  refine (reads_step _).bind fun symbol _ => (reads_step _).bind fun dims _ => ?_
  have hp : ∀ isExternal : Bool,
      ({ symbol, type := .ofName type, domains := dims.map (·.2), isExternal } :
      Parameter K).Unfilled r := fun _ => ⟨rfl, rfl, rfl, rfl, rfl, by simp⟩
  refine (reads_step _).bind fun _ _ => reads_if (reads_pure (h.unfilled (hp true))) ?_
  refine (reads_step _).bind fun _ _ => reads_if (reads_pure (h.unfilled (hp true))) ?_
  refine (reads_step _).bind fun t _ => reads_if ?_ ?_
  · exact (h.arrayValues hg (hp false) _).bind fun _ hq => reads_pure hq
  · exact (h.definition hg (hp false) dims).bind fun _ hq => reads_pure hq

theorem recordDeclaration {word : String} {s : Schema} (hs : r.schemas.find? word = some s) :
    (g.recordDeclaration s).Reads I Q := by
  refine (reads_step _).bind fun _ _ => (reads_step _).bind fun symbol _ => ?_
  have hp : ∀ isExternal : Bool,
      ({ symbol, type := .ofName s.symbol, schema := some s, isExternal } :
      Parameter K).Unfilled r := fun _ => ⟨rfl, rfl, rfl, rfl, rfl, by simpa using ⟨word, hs⟩⟩
  refine (reads_step _).bind fun _ _ => reads_if (reads_pure (h.unfilled (hp true))) ?_
  refine (reads_step _).bind fun _ _ => reads_if (reads_pure (h.unfilled (hp true))) ?_
  refine (reads_step _).bind fun t _ => reads_if ?_ ?_
  · refine (reads_ofParser hg.tupleItems).bind fun es hes => ?_
    refine (h.evaluatedAll hes).bind fun vs hvs => reads_ofRun ?_
    refine (meets_ofExcept fun _ => h.record hs hvs).bind fun v hv => ?_
    exact (meets_ofExcept fun _ => h.set (hp false) hv).bind fun _ hq => meets_pure hq
  · exact (reads_ofParser hg.expression).bind fun e he =>
      reads_pure (h.derived (hp false) he (by simp))

end Registry.Makes

/-! ## Statements -/

namespace Grammar

variable {g : Grammar K} {r : Registry K}

theorem yields_variableDeclaration (hQ : ∀ v, Q (.decisionVariable v)) :
    g.variableDeclaration.Yields Q := by
  have hend : ∀ symbol type domains (bounds : Option (Expr K) × Option (Expr K)), (do
        let v ← Parser.ofExcept (Variable.make symbol (.ofName type) domains bounds.1 bounds.2)
        return .decisionVariable v : Parser K (Entity K)).Yields Q :=
    fun _ _ _ _ => yields_after _ fun _ => yields_pure (hQ _)
  refine yields_after _ fun _ => yields_after _ fun type => ?_
  refine yields_if (yields_fail.bind (P := fun _ => False) fun _ h => h.elim) ?_
  refine yields_after _ fun isNonNegative => yields_after _ fun symbol => ?_
  refine yields_after _ fun domains => yields_after _ fun isBounded => yields_if ?_ ?_
  · refine yields_after _ fun lower => yields_after _ fun _ => yields_after _ fun upper => ?_
    exact yields_after _ fun bounds => hend _ _ _ bounds
  · exact yields_after _ fun bounds => hend _ _ _ bounds

theorem Yields.reads_rule (hg : g.Yields P) : (do
    return .rule (← ofParser (g.rule r g.size)) : Reading K (Statement K)).Reads I
      (Statement.Has P) :=
  (reads_ofParser (hg.rule g.size)).bind fun _ hrule => reads_pure hrule

end Grammar

/-- The entities that the statements of a grammar declare have a property. -/
structure Grammar.Declares (g : Grammar K) (r : Registry K) (I : Invariant K)
    (P : Expr K → Prop) (Q : Entity K → Prop) : Prop where
  range : g.rangeDeclaration.Yields Q
  schema : ∀ s, Q (.schema s)
  decisionVariable : ∀ v, Q (.decisionVariable v)
  dexpr : ∀ d : DecisionExpression K, P d.body → Q (.dexpr d)
  parameter : g.parameterDeclaration.Reads I Q
  record : ∀ {word s}, r.schemas.find? word = some s → (g.recordDeclaration s).Reads I Q
  set : (g.setDeclaration r).Reads I Q

namespace Grammar

variable {Inv' : Registry K → Prop} {Q : Entity K → Prop} {g : Grammar K} {r : Registry K}

/-- The entities that are declared are made of what a grammar reads. -/
theorem Yields.declares {J : Iter K → Prop} {V : Value K → Prop} (hg : g.Yields P)
    (h : r.Makes I P J V Q) (hdexpr : ∀ d : DecisionExpression K, P' d.body → Q (.dexpr d)) :
    g.Declares r I P' Q where
  range := yields_after _ fun _ => yields_after _ fun _ => yields_after _ fun _ =>
    hg.range.bind fun _ hb => yields_pure (h.rangeDomain _ hb)
  schema := h.schema
  decisionVariable := h.decisionVariable
  dexpr := hdexpr
  parameter := h.parameterDeclaration hg
  record := h.recordDeclaration hg
  set := h.setDeclaration hg

theorem declares_new (hI : I.IsKept) : g.Declares r I P (Entity.IsNew P) := by
  refine (Yields.any g).declares (V := fun _ => True) (J := fun _ => True) ?_ fun _ h => h
  have hgiven : ∀ {p : Parameter K}, p.isDefined = false → p.definition = none →
      (Entity.parameter p).IsNew P := fun hp hgiven => ⟨hp, fun h => by simp [hgiven] at h⟩
  exact {
    forms := r.forms_any
    simplified := fun _ _ => trivial
    value := fun _ => hI.value _
    elements := hI.elements
    normal := id
    number := fun _ => trivial
    text := fun _ => trivial
    list := fun _ => trivial
    record := fun _ _ _ => trivial
    schema := fun _ => trivial
    decisionVariable := fun _ => trivial
    index := fun _ => trivial
    range := fun _ _ _ _ _ => ⟨rfl, rfl⟩
    tuples := fun _ _ => trivial
    primitive := fun _ _ => trivial
    computed := fun hd _ _ _ => hd
    unfilled := fun hp => hgiven hp.isDefined hp.definition
    set := fun hp _ h => by
      obtain ⟨_, w, rfl⟩ := Parameter.set_ok h
      exact hgiven hp.isDefined hp.definition
    array := fun hp _ h => by
      obtain ⟨_, rfl⟩ := Parameter.withArray_ok _ h
      exact hgiven hp.isDefined hp.definition
    derived := fun hp _ _ => ⟨hp.isDefined, fun _ => ⟨hp.value, hp.values⟩⟩ }

variable (hg : g.Yields P) (hQ : g.Declares r I P Q) (hundeclared : ∀ {t}, I.holds t → Inv' t)
  (hdeclared : ∀ {t e t'}, I.holds t → Q e → t.declare e = .ok t' → Inv' t')

include hg hQ hundeclared hdeclared

theorem Yields.wordStatement (text word : String) :
    (g.wordStatement r text word).Leads I Inv' (Statement.Has P) := by
  have hentity : ∀ {entity : Reading K (Entity K)}, entity.Reads I Q →
      (declaration text entity).Leads I Inv' (Statement.Has P) := leads_declaration text hdeclared
  refine reads_if ((reads_ignoredStatement text).weaken hundeclared) ?_
  refine reads_if (hentity (reads_ofParser hQ.range)) ?_
  refine reads_if (hentity (reads_ofParser (yields_schemaDeclaration hQ.schema))) ?_
  refine reads_if (hentity (reads_ofParser (yields_variableDeclaration hQ.decisionVariable))) ?_
  refine reads_if (hentity (reads_ofParser (hg.dexprDeclaration hQ.dexpr))) ?_
  refine reads_if (hentity hQ.parameter) ?_
  split
  · rename_i hschema
    exact hentity (hQ.record hschema)
  · exact (hg.reads_goal _).weaken hundeclared
  · exact hg.reads_rule.weaken hundeclared

theorem Yields.statement (text : String) : (g.statement r text).Leads I Inv' (Statement.Has P) := by
  refine (reads_step _).bind fun t _ =>
    reads_if (hg.wordStatement hQ hundeclared hdeclared text _) (reads_if ?_ ?_)
  · exact leads_declaration text hdeclared hQ.set
  · exact hg.reads_rule.weaken hundeclared

end Grammar

theorem steady_writtenOut (text : String) : (writtenOut text : Run K String).Steady := by
  refine (steady_ofExcept _).bind fun c => steady_registry.bind fun r => ?_
  split
  · exact (steady_ofExcept _).bind fun _ => steady_pure _
  · exact steady_pure _

section Statements

variable {Inv' : Registry K → Prop} {Q : Entity K → Prop} {r : Registry K} {textual : Bool}
  {text : String} {s s' : Store K} {stmt : Statement K}

section Declares

variable (hP : r.Forms P) (hQ : ∀ g : Grammar K, g.Declares r (.onReturn Inv) P Q)
  (hundeclared : ∀ {t}, Inv t → Inv' t)
  (hdeclared : ∀ {t e t'}, Inv t → Q e → t.declare e = .ok t' → Inv' t')

include hP hQ hundeclared hdeclared

/-- Reading a statement against a registry leads from one invariant to the other, and gives a
statement whose expressions have the property. -/
theorem readStatement_declares (hr : s.registry = r) (hs : Inv s.registry)
    (h : (readStatement text).Returns s stmt s') : Inv' s'.registry ∧ stmt.Has P := by
  subst hr
  simp only [readStatement, returns_bind, returns_ofExcept, returns_registry] at h
  obtain ⟨c, _, ⟨_, rfl⟩, r, _, ⟨rfl, rfl⟩, ⟨stmt', c'⟩, s₁, hread, h⟩ := h
  have hled := ((grammar_yields hP _ _).statement (hQ _) hundeclared hdeclared text _ hs).1 hread
  obtain ⟨_, h⟩ | ⟨_, h⟩ := returns_if.1 h
  · obtain ⟨rfl, rfl⟩ := returns_pure.1 h
    exact hled
  · exact absurd h not_returns_fail

theorem parseStatement_declares (hr : s.registry = r) (hs : Inv s.registry)
    (h : (parseStatement textual text).Returns s stmt s') : Inv' s'.registry ∧ stmt.Has P := by
  cases textual with
  | false =>
    obtain ⟨written, s₁, hwritten, h⟩ := returns_bind.1 h
    obtain ⟨rfl, rfl⟩ := returns_pure.1 hwritten
    exact readStatement_declares hP hQ hundeclared hdeclared hr hs (returns_mapFailure.1 h)
  | true =>
    obtain ⟨written, s₁, hwritten, h⟩ := returns_bind.1 h
    have hsteady := (steady_writtenOut _ (returns_mapFailure.1 hwritten)).1
    rw [← hsteady] at hr hs
    exact readStatement_declares hP hQ hundeclared hdeclared hr hs (returns_mapFailure.1 h)

end Declares

/-- An invariant that reading a statement starts from, one that it leads to, and a property of
expressions that the grammar forms. -/
structure Registry.ReadsTo (Inv Inv' : Registry K → Prop) (P : Expr K → Prop) : Prop where
  evaluated : KeptByEvaluation Inv
  undeclared : ∀ {t}, Inv t → Inv' t
  declared : ∀ {t e t'}, Inv t → e.IsNew P → t.declare e = .ok t' → Inv' t'

theorem parseStatement_leads (hInv : ReadsTo Inv Inv' P) (hP : r.Forms P) (hr : s.registry = r)
    (hs : Inv s.registry) (h : (parseStatement textual text).Returns s stmt s') :
    Inv' s'.registry ∧ stmt.Has P :=
  parseStatement_declares hP (fun _ => Grammar.declares_new hInv.evaluated.isKept)
    hInv.undeclared hInv.declared hr hs h

end Statements

end LinearModel
