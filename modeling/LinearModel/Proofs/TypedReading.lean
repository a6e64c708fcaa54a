import LinearModel.Proofs.TypedEvaluation
import LinearModel.Proofs.FailedStatement
import LinearModel.Proofs.NormalForm

/-!
# Typed declarations

No expression that is read holds a record, since records are not written as operands. The elements
of a set and the values of a parameter that are written in the model are evaluated as they are read,
and fitted to their types. A declared entity is therefore typed, and so is the registry after a
statement has been read, or after reading it has failed at any point.
-/
namespace LinearModel

open Run Expr Iter
open LinearModel.Parser
open LinearModel.Reading

variable {K : Type} {α β : Type}

theorem Run.Provides.meets {Inv : Registry K → Prop} {P : α → Prop} {x : Run K α}
    (hx : x.Provides Inv P) : x.Meets (.throughout Inv) Inv P := fun _ hs =>
  ⟨fun a _ h => ⟨hx.maintains.returns hs h, (hx hs).2 a (congrArg Prod.fst h)⟩,
    fun _ _ h => hx.maintains.fails hs h⟩

variable [Scalar K] {T : Typing} {e : Expr K} {es : List (Expr K)} {r : Registry K}

/-! ## Simplification -/

namespace Expr

variable {r : Option (Registry K)}

theorem areTyped_iff : AreTyped T es ↔ ∀ e ∈ es, e.IsTyped T := by
  induction es with
  | nil => simp [AreTyped]
  | cons e es ih => simp [AreTyped, ih]

theorem isTyped_num (x : K) : (Expr.num x).IsTyped T := by simp only [IsTyped]

theorem ofValue_isTyped {v : Value K} (hv : v.IsTyped T) (h : ofValue v = .ok e) : e.IsTyped T := by
  unfold ofValue at h
  split at h
  · cases h
    simpa only [IsTyped] using hv
  · cases h
    simp only [IsTyped]
  · cases h
    exact isTyped_num _
  · obtain ⟨x, -, rfl⟩ := map_eq_ok.1 h
    exact isTyped_num x
  · cases h
    exact isTyped_num _
  · cases h

theorem foldNeg_isTyped (he : e.IsTyped T) : (foldNeg e).IsTyped T := by
  unfold foldNeg
  split
  · exact isTyped_num _
  · simpa only [IsTyped] using he
  · simpa only [IsTyped] using he

theorem foldArith_isTyped (op : ArithOp) {l r : Expr K} (hl : l.IsTyped T) (hr : r.IsTyped T) :
    (foldArith op l r).IsTyped T := by
  obtain ⟨x, h⟩ | h | h | h | h := foldArith_cases op l r <;> rw [h]
  · exact isTyped_num x
  · exact hl
  · exact hr
  · exact foldNeg_isTyped hr
  · simpa only [IsTyped] using ⟨hl, hr⟩

theorem foldRel_isTyped (op : RelOp) {l r : Expr K} (hl : l.IsTyped T) (hr : r.IsTyped T)
    (h : foldRel op l r = .ok e) : e.IsTyped T := by
  unfold foldRel at h
  split at h
  · obtain ⟨b, -, rfl⟩ := map_eq_ok.1 h
    exact isTyped_num _
  · cases h
    simpa only [IsTyped] using ⟨hl, hr⟩

theorem foldLogic_isTyped (op : LogicOp) (hes : AreTyped T es) (h : foldLogic op es = .ok e) :
    e.IsTyped T := by
  unfold foldLogic at h
  split at h
  · split at h <;> cases h <;> exact isTyped_num _
  · cases h
    simpa only [IsTyped] using hes

theorem foldField_isTyped (he : e.IsTyped T) {f : String} {e' : Expr K}
    (h : foldField e f = .ok e') : e'.IsTyped T := by
  unfold foldField at h
  split at h
  · obtain ⟨v, hv, h⟩ := bind_eq_ok.1 h
    exact ofValue_isTyped (Value.field_isTyped he hv) h
  · cases h
    simpa only [IsTyped] using he

/-- A parameter that is folded holds values of its type. -/
theorem foldName_isTyped (hr : ∀ t, r = some t → t.IsTyped T) {s : String}
    (h : foldName r s = .ok e) : e.IsTyped T := by
  have hname : (Expr.name s : Expr K).IsTyped T := by simp only [IsTyped]
  unfold foldName at h
  split at h
  · cases h
    exact hname
  · rename_i p hp
    obtain ⟨t, rfl, hp⟩ := Option.bind_eq_some_iff.1 hp
    split at h
    · cases h
      exact hname
    · split at h
      · rename_i v hv
        exact ofValue_isTyped (((hr t rfl).params hp).value v hv).hasType.isTyped h
      · cases h
        exact hname

theorem foldParam_isTyped (hr : ∀ t, r = some t → t.IsTyped T) {s : String} {idx : List (Expr K)}
    (hidx : AreTyped T idx) (h : foldParam r s idx = .ok e) : e.IsTyped T := by
  have hparam : (param s idx).IsTyped T := by simpa only [IsTyped] using hidx
  unfold foldParam at h
  split at h
  · cases h
    exact hparam
  · split at h
    · cases h
      exact hparam
    · rename_i p hp
      obtain ⟨t, rfl, hp⟩ := Option.bind_eq_some_iff.1 hp
      split at h
      · cases h
        exact hparam
      · split at h
        · rename_i v hv
          obtain ⟨k, hmem, -⟩ := Table.exists_of_find? hv
          exact ofValue_isTyped (((hr t rfl).params hp).values _ hmem).2.2.hasType.isTyped h
        · cases h
          exact hparam

theorem areTyped_of_forall₂ {p : Prop} (hp : p) {ns : List (Expr K)} (hes : AreTyped T es)
    (h : List.Forall₂ (fun e n => p → e.IsTyped T → n.IsTyped T) es ns) : AreTyped T ns := by
  induction h with
  | nil => exact hes
  | cons he _ ih =>
    exact ⟨he hp hes.1, ih hes.2⟩

theorem followsSimplify_isTyped : FollowsSimplify (K := K) fun r e n =>
    (∀ t, r = some t → t.IsTyped T) → e.IsTyped T → n.IsTyped T where
  atom _ _ he := he
  name h hr _ := foldName_isTyped hr h
  param hes h hr he := by
    exact foldParam_isTyped hr (areTyped_of_forall₂ hr he hes) h
  ivar hes hr he := by
    exact areTyped_of_forall₂ hr he hes
  item hes hr he := by
    exact areTyped_of_forall₂ hr he hes
  dexpr he' hr he := by
    exact he' hr he
  arith ha hb hr he := by
    exact foldArith_isTyped _ (ha hr he.1) (hb hr he.2)
  neg he' hr he := by
    exact foldNeg_isTyped (he' hr he)
  rel ha hb h hr he := by
    exact foldRel_isTyped _ (ha hr he.1) (hb hr he.2) h
  logic hes h hr he := by
    exact foldLogic_isTyped _ (areTyped_of_forall₂ hr he hes) h
  field he' h hr he := by
    exact foldField_isTyped (he' hr he) h
  sum ha _ he := by
    exact ⟨he.1, ha (by simp) he.2⟩
  sumIf ha hc _ he := by
    exact ⟨he.1, ha (by simp) he.2.1, hc (by simp) he.2.2⟩

/-- A simplified expression holds records that were written in it or held by parameters. -/
theorem simplify_isTyped (hr : ∀ t, r = some t → t.IsTyped T) {e' : Expr K} (he : e.IsTyped T)
    (h : e.simplify r = .ok e') : e'.IsTyped T :=
  followsSimplify_isTyped.simplify e h hr he

end Expr

/-! ## What the grammar reads -/

theorem Iter.areTyped_iff {its : List (Iter K)} : AreTyped T its ↔ ∀ it ∈ its, it.IsTyped T := by
  induction its with
  | nil => simp [AreTyped]
  | cons it its ih => simp [AreTyped, ih]

theorem Registry.IsTyped.find?_symbol (hr : r.IsTyped T) {word : String}
    {s : Schema} (hs : r.schemas.find? word = some s) : T.schemas.find? s.symbol = some s := by
  rw [hr.schemas] at hs
  rwa [hr.named hs]

theorem Source.Has.isTyped {src : Source K} (h : src.Has (Expr.IsTyped T)) : src.IsTyped T := by
  obtain ⟨s, _ | e⟩ | ⟨a, b⟩ := src
  · simp only [Source.IsTyped]
  · simpa only [Source.IsTyped] using h e rfl
  · obtain ⟨a', b', ⟨ha', ha⟩, hb', hb⟩ := h
    exact ⟨simplify_isTyped (by simp) ha' ha, simplify_isTyped (by simp) hb' hb⟩

/-- The grammar forms expressions without records. -/
theorem Registry.forms_isTyped (r : Registry K) : r.Forms (Expr.IsTyped T) (Iter.IsTyped T) where
  num _ := by simp only [Expr.IsTyped]
  str _ := by simp only [Expr.IsTyped]
  name _ := by simp only [Expr.IsTyped]
  resolve {symbol idx e} hidx h := by
    unfold Grammar.resolve at h
    split at h
    · split at h <;> cases h
      · simp only [Expr.IsTyped]
      · simpa only [Expr.IsTyped] using Expr.areTyped_iff.2 hidx
    · split at h
      · split at h <;> cases h
        · simp only [Expr.IsTyped]
        · simpa only [Expr.IsTyped] using hidx _ List.mem_cons_self
      · split at h <;> cases h
        · simp only [Expr.IsTyped]
        · simpa only [Expr.IsTyped] using Expr.areTyped_iff.2 hidx
  arith _ _ _ hl hr := by simpa only [IsTyped] using ⟨hl, hr⟩
  neg he := by simpa only [Expr.IsTyped] using he
  rel _ _ _ hl hr := by simpa only [IsTyped] using ⟨hl, hr⟩
  logic _ _ _ hes := by simpa only [Expr.IsTyped] using Expr.areTyped_iff.2 hes
  field _ he := by simpa only [Expr.IsTyped] using he
  item _ _ hkey := by simpa only [Expr.IsTyped] using Expr.areTyped_iff.2 hkey
  iter s src filter hsrc hfilter := by
    cases filter with
    | none => simpa only [Iter.IsTyped] using hsrc.isTyped
    | some e => simpa only [IsTyped] using ⟨hsrc.isTyped, hfilter e rfl⟩
  sum {its body c} hits hbody hc := by
    cases c with
    | none => simpa only [IsTyped] using ⟨areTyped_iff.2 hits, hbody⟩
    | some e => simpa only [IsTyped] using ⟨areTyped_iff.2 hits, hbody, hc e rfl⟩

/-! ## Declarations -/

/-- A parameter with the values of an array is typed. -/
theorem Parameter.IsTyped.withArray {p : Parameter K} (hp : p.IsTyped T) :
    ∀ (ds : List (String × List (Value K))) {q : Parameter K} {idx : Index K} {v : Value K},
      v.IsTyped T → p.withArray ds idx v = .ok q → q.IsTyped T
  | [], q, idx, v, hv, h => by
    unfold Parameter.withArray at h
    split at h
    · cases h
    · exact hp.setAt hv h
  | (domain, elements) :: ds, q, idx, v, hv, h => by
    unfold Parameter.withArray at h
    split at h
    · rename_i items
      have hitems := Value.areTyped_iff.1 (by simpa only [Value.IsTyped] using hv)
      split at h
      · cases h
      · have hfold : ∀ (es : List (Value K × Value K)) {p q : Parameter K}, p.IsTyped T →
            (∀ e ∈ es, e.2.IsTyped T) →
            es.foldlM (fun q e => q.withArray ds (idx ++ [e.1]) e.2) p = .ok q → q.IsTyped T := by
          intro es
          induction es with
          | nil =>
            intro p q hp _ h
            cases h
            exact hp
          | cons e es ih =>
            intro p q hp hes h
            obtain ⟨he, hes⟩ := List.forall_mem_cons.1 hes
            obtain ⟨p₁, hp₁, h⟩ := bind_eq_ok.1 h
            exact ih (hp.withArray ds he hp₁) hes h
        exact hfold _ hp (fun e he => hitems e.2 (List.of_mem_zip he).2) h
    · cases h

/-- A parameter that holds nothing. -/
theorem Parameter.isTyped_given {p : Parameter K} (hvalue : p.value = none)
    (hvalues : p.values = Table.empty) (hdefinition : p.definition = none)
    (hiterators : p.iterators = [])
    (hschema : ∀ s, p.schema = some s →
      (T.strict → T.schemas.find? s.symbol = some s) ∧ p.type = .ofName s.symbol) :
    p.IsTyped T where
  value v hv := by simp [hvalue] at hv
  values e he := by
    rw [hvalues] at he
    cases he
  schema := hschema
  definition e he := by simp [hdefinition] at he
  iterators := by simp only [hiterators, Iter.AreTyped]

theorem Parameter.Unfilled.isTyped (hr : r.IsTyped T) {p : Parameter K}
    (hp : p.Unfilled r) : p.IsTyped T := by
  refine isTyped_given hp.value hp.values hp.definition hp.iterators fun s hs => ?_
  obtain ⟨htype, word, hword⟩ := hp.schema s hs
  exact ⟨fun _ => hr.find?_symbol hword, htype⟩

/-- What is declared with expressions and values of declared types is typed. -/
theorem Registry.IsTyped.makes (hr : r.IsTyped T) :
    r.Makes (.throughout (Registry.IsTyped T)) (Expr.IsTyped T) (Iter.IsTyped T) (Value.IsTyped T)
      (Entity.IsTyped T) where
  forms := r.forms_isTyped
  simplified := Expr.simplify_isTyped (by simp)
  value he := (evaluateValue_provides he Env.isTyped_empty).meets
  elements s := (resolveDomain_provides s Env.isTyped_empty (by simp)).maintains.meets
  normal := Value.IsTyped.normalize
  number _ := by simp only [Value.IsTyped]
  text _ := by simp only [Value.IsTyped]
  list hvs := by simpa only [Value.IsTyped] using Value.areTyped_iff.2 hvs
  record hs hvs h := by
    refine (Value.toRecord_hasType (fun _ => hr.find?_symbol hs) ?_ h).isTyped
    simpa only [Value.IsTyped] using Value.areTyped_iff.2 hvs
  schema _ := trivial
  decisionVariable _ := trivial
  index _ := trivial
  range _ _ _ ha hb := ⟨ha, hb⟩
  tuples hs hvs := ⟨fun _ => hr.find?_symbol hs, fun v hv => hvs v ((Value.distinct_spec _).1 v hv)⟩
  primitive hvs h := PrimitiveSet.IsTyped.withElements hvs h
  computed hd hits hcondition houtput := by
    refine ⟨areTyped_iff.2 hits, hcondition, houtput, fun e he => ?_⟩
    rw [hd] at he
    cases he
  unfilled hp := hp.isTyped hr
  set hp hv h := (hp.isTyped hr).set hv h
  array hp hv h := (hp.isTyped hr).withArray _ hv h
  derived hp he hits := by
    refine { hp.isTyped hr with
      definition := fun e' he' => Option.some.inj he' ▸ he
      iterators := areTyped_iff.2 fun it hit => ?_ }
    obtain ⟨s, d, rfl⟩ := hits it hit
    simp only [Iter.IsTyped, Source.IsTyped]

/-! ## Statements -/

/-- The typing by the record types that a registry declares. -/
abbrev Registry.typing (r : Registry K) (strict : Prop) : Typing := ⟨r.schemas, strict⟩

/-- A registry that holds what the record types declared in it ask for. -/
abbrev Registry.IsWellTyped (strict : Prop) (r : Registry K) : Prop := r.IsTyped (r.typing strict)

theorem Registry.IsTyped.isWellTyped (hr : r.IsTyped T) : r.IsWellTyped T.strict := by
  have hT : r.typing T.strict = T := by rw [Registry.typing, hr.schemas]
  rw [Registry.IsWellTyped, hT]
  exact hr

theorem readStatement_isWellTyped (strict : Prop) (text : String) :
    Run.Maintains (Registry.IsWellTyped strict) (readStatement text : Run K (Statement K)) := by
  intro s hs
  unfold readStatement
  cases hc : (Cursor.ofText text : Except (Cause K) (Cursor K)) with
  | error cause => exact hs
  | ok c =>
    have hg : (c.grammar s.registry).Yields (Expr.IsTyped (s.registry.typing strict)) :=
      grammar_yields s.registry.forms_isTyped _ _
    have hread := hg.statement (hg.declares hs.makes fun _ h => h) Registry.IsTyped.isWellTyped
      (fun ht he h => ht.isWellTyped.declare (ht.schemas.symm ▸ he) h) text c hs
    simp only [Run.ofExcept, start_pure, start_bind, start_registry]
    cases h : (((c.grammar s.registry).statement s.registry text) c).start s with
    | mk o s₁ =>
      cases o with
      | error e => exact (hread.2 h).isWellTyped
      | ok p =>
        -- a token that follows is noted, and nothing is undone
        have hend : ∀ c' : Cursor K, Run.Maintains (Registry.IsWellTyped strict)
            (if c'.here.isStop then pure p.1 else Run.fail (.trailingToken c'.here.literal) :
              Run K (Statement K)) := by
          intro c'
          split
          exacts [Run.maintains_pure _, Run.maintains_fail _]
        exact hend _ (hread.1 h).1

/-- Reading a statement keeps a registry well typed, whether it succeeds or fails. -/
theorem parseStatement_isWellTyped (strict : Prop) (textual : Bool) (text : String) :
    Run.Maintains (Registry.IsWellTyped strict)
      (parseStatement textual text : Run K (Statement K)) := by
  have hread := fun t =>
    maintains_mapFailure (·.inStatement t) (readStatement_isWellTyped (K := K) strict t)
  cases textual with
  | false => exact (Run.maintains_pure _).bind hread
  | true => exact (maintains_mapFailure _ (writtenOut_maintains _)).bind hread

end LinearModel
