import LinearModel.Proofs.TypedRegistry

/-!
# Typed evaluation

Evaluating an expression fills the registry with the values of derived parameters and the members of
comprehensions. If the registry is typed, and the records that the expression and its environment
hold are of declared types, then it is typed afterwards, whether the evaluation returns or fails. A
value that is returned holds records of declared types only.
-/
namespace LinearModel

open Registry Value Expr

variable {K : Type} {α β : Type}

/-! ## Computations that keep an invariant and give answers with a property -/

namespace Run

variable {Inv : Registry K → Prop} {P : α → Prop} {Q : β → Prop} {x : Run K α}

/-- A computation keeps an invariant of the registry, whether it returns or fails, and what it
returns has a property. -/
def Provides (Inv : Registry K → Prop) (x : Run K α) (P : α → Prop) : Prop :=
  ∀ ⦃s : Store K⦄, Inv s.registry →
    Inv (x.start s).2.registry ∧ ∀ a, (x.start s).1 = .ok a → P a

theorem Provides.maintains (hx : x.Provides Inv P) : Maintains Inv x := fun _ hs => (hx hs).1

theorem Maintains.provides (hx : Maintains Inv x) : x.Provides Inv fun _ => True :=
  fun _ hs => ⟨hx hs, fun _ _ => trivial⟩

theorem provides_pure {a : α} (h : P a) : (pure a : Run K α).Provides Inv P :=
  fun _ hs => ⟨hs, fun _ ha => Except.ok.inj ha ▸ h⟩

theorem provides_fail (c : Cause K) : (fail c : Run K α).Provides Inv P :=
  fun _ hs => ⟨hs, fun _ ha => by cases ha⟩

theorem provides_registry : (registry : Run K _).Provides Inv Inv :=
  fun _ hs => ⟨hs, fun _ ha => Except.ok.inj ha ▸ hs⟩

theorem provides_modifyRegistry {f : Registry K → Registry K} (h : ∀ r, Inv r → Inv (f r)) :
    (modifyRegistry f).Provides Inv fun _ => True :=
  fun s hs => ⟨h s.registry hs, fun _ _ => trivial⟩

theorem provides_ofExcept {y : Except (Cause K) α} (h : ∀ a, y = .ok a → P a) :
    (ofExcept y).Provides Inv P := by
  cases y with
  | ok a => exact provides_pure (h a rfl)
  | error c => exact provides_fail c

theorem Provides.bind {f : α → Run K β} (hx : x.Provides Inv P)
    (hf : ∀ a, P a → (f a).Provides Inv Q) : (x >>= f).Provides Inv Q := by
  intro s hs
  obtain ⟨hs₁, ha⟩ := hx hs
  rw [start_bind]
  cases h : x.start s with
  | mk o s₁ =>
    rw [h] at hs₁ ha
    cases o with
    | ok a => exact hf a (ha a rfl) hs₁
    | error e => exact ⟨hs₁, fun _ hb => by cases hb⟩

theorem provides_if {c : Prop} [Decidable c] {y : Run K α} (hx : x.Provides Inv P)
    (hy : y.Provides Inv P) : (if c then x else y).Provides Inv P := by
  split
  exacts [hx, hy]

theorem provides_mapM {f : α → Run K β} (as : List α) (hf : ∀ a ∈ as, (f a).Provides Inv Q) :
    (as.mapM f).Provides Inv fun bs => ∀ b ∈ bs, Q b := by
  induction as with
  | nil => exact provides_pure (by simp)
  | cons a as ih =>
    obtain ⟨ha, has⟩ := List.forall_mem_cons.1 hf
    rw [List.mapM_cons]
    refine ha.bind fun b hb => Provides.bind (ih has) fun bs hbs => provides_pure ?_
    exact List.forall_mem_cons.2 ⟨hb, hbs⟩

theorem provides_forM {f : α → Run K PUnit} (as : List α)
    (hf : ∀ a ∈ as, (f a).Provides Inv fun _ => True) : (as.forM f).Provides Inv fun _ => True := by
  induction as with
  | nil => exact provides_pure trivial
  | cons a as ih =>
    obtain ⟨ha, has⟩ := List.forall_mem_cons.1 hf
    exact ha.bind fun _ _ => ih has

end Run

open Run

/-! ## Environments and lookups -/

variable [Scalar K] {T : Typing} {env : Env K} {given : Option (Value K)} {v : Value K}
  {e : Expr K}

/-- Every record that an environment binds is of its type. -/
def Env.IsTyped (T : Typing) (env : Env K) : Prop := ∀ b ∈ env.frames, b.2.IsTyped T

namespace Env

variable {env : Env K} {symbol : String}

theorem isTyped_empty : (empty : Env K).IsTyped T := fun _ h => by cases h

theorem isTyped_spawn : env.spawn.IsTyped T := fun _ h => by cases h

theorem IsTyped.bind (henv : env.IsTyped T) (symbol : String) (hv : v.IsTyped T) :
    (env.bind symbol v).IsTyped T :=
  List.forall_mem_cons.2 ⟨hv, henv⟩

theorem IsTyped.get? (henv : env.IsTyped T) (h : env.get? symbol = some v) : v.IsTyped T := by
  obtain ⟨b, hb, rfl⟩ := Option.map_eq_some_iff.1 h
  exact henv b (List.mem_of_find?_eq_some hb)

theorem IsTyped.get (henv : env.IsTyped T) (h : env.get symbol = .ok v) : v.IsTyped T := by
  unfold Env.get at h
  split at h
  · rename_i hv
    cases h
    exact henv.get? hv
  · cases h

theorem IsTyped.enter {env' : Env K} (henv : env.IsTyped T)
    (h : env.enter symbol = .ok env') : env'.IsTyped T := by
  unfold Env.enter at h
  split at h
  · cases h
  · cases h
    exact henv

end Env

/-- Values all of whose records are of their types. -/
abbrev Value.AllTyped (T : Typing) (vs : List (Value K)) : Prop :=
  ∀ v ∈ vs, v.IsTyped T

/-- What a lookup finds is of declared types, and the registry stays typed. -/
structure Lookup.IsTyped (T : Typing) (L : Lookup K) : Prop where
  parameter : ∀ s idx, (L.parameter s idx).Provides (Registry.IsTyped T) (Value.IsTyped T)
  elements : ∀ s {env given}, env.IsTyped T → (∀ v, given = some v → v.IsTyped T) →
    (L.elements s env given).Provides (Registry.IsTyped T) (AllTyped T)
  body : ∀ {e env}, e.IsTyped T → env.IsTyped T →
    (L.body e env).Provides (Registry.IsTyped T) fun _ => True

/-- The elements of a stage are of declared types, and the registry stays typed. -/
structure Stage.IsTyped (T : Typing) (s : Stage K) : Prop where
  elements : ∀ {env}, env.IsTyped T →
    (s.elements env).Provides (Registry.IsTyped T) (AllTyped T)
  admits : ∀ {env}, env.IsTyped T → (s.admits env).Provides (Registry.IsTyped T) fun _ => True

namespace Stage

variable {Q : α → Prop}

theorem visit_provides {stages : List (Stage K)} (hstages : ∀ s ∈ stages, s.IsTyped T)
    {last : Env K → Run K (List α)} (hlast : ∀ {env}, env.IsTyped T →
      (last env).Provides (Registry.IsTyped T) fun as => ∀ a ∈ as, Q a) (henv : env.IsTyped T) :
    (visit stages last env).Provides (Registry.IsTyped T) fun as => ∀ a ∈ as, Q a := by
  induction stages generalizing env with
  | nil => exact hlast henv
  | cons s stages ih =>
    obtain ⟨hs, hrest⟩ := List.forall_mem_cons.1 hstages
    refine (hs.elements henv).bind fun vs hvs => ?_
    have hfound : ∀ v ∈ vs, (do
        let inner := env.bind s.symbol v
        if ← s.admits inner then visit stages last inner else return [] :
          Run K (List α)).Provides (Registry.IsTyped T) fun as => ∀ a ∈ as, Q a := by
      intro v hv
      have hinner := henv.bind s.symbol (hvs v hv)
      refine (hs.admits hinner).bind fun b _ => provides_if (ih hrest hinner) ?_
      exact provides_pure (by simp)
    refine (provides_mapM vs hfound).bind fun found hfound => provides_pure fun a ha => ?_
    obtain ⟨as, has, ha⟩ := List.mem_flatten.1 ha
    exact hfound as has a ha

theorem enumerate_provides {stages : List (Stage K)} (hstages : ∀ s ∈ stages, s.IsTyped T)
    {holds : Env K → Run K Bool}
    (hholds : ∀ {env}, env.IsTyped T → (holds env).Provides (Registry.IsTyped T) fun _ => True)
    {each : Env K → Run K α}
    (heach : ∀ {env}, env.IsTyped T → (each env).Provides (Registry.IsTyped T) Q)
    (henv : env.IsTyped T) :
    (enumerate stages holds each env).Provides (Registry.IsTyped T) fun as => ∀ a ∈ as, Q a := by
  refine provides_if (provides_fail _) (visit_provides hstages (fun hinner => ?_) henv)
  refine (hholds hinner).bind fun b _ => provides_if ?_ (provides_pure (by simp))
  exact (heach hinner).bind fun a ha => provides_pure (by simpa using ha)

end Stage

/-! ## Steps shared by all expressions -/

section Steps

variable {x : Run K (Value K)}

theorem asNumber_provides (e : Expr K) (hx : x.Provides (IsTyped T) (IsTyped T)) :
    (e.asNumber x).Provides (IsTyped T) fun _ => True := by
  have hread : (do e.readNumber (← x) : Run K K).Provides (IsTyped T) fun _ => True := by
    refine hx.bind fun v _ => ?_
    unfold readNumber
    split
    · exact provides_pure trivial
    · exact provides_ofExcept fun _ _ => trivial
    · exact provides_pure trivial
    · exact provides_fail _
  unfold asNumber
  split
  · exact provides_pure trivial
  · exact provides_fail _
  · exact hread

theorem rangeBound_provides (e : Expr K) (hx : x.Provides (IsTyped T) (IsTyped T)) :
    (rangeBound e x).Provides (IsTyped T) fun _ => True := by
  refine (asNumber_provides e hx).bind fun y _ => ?_
  split
  · exact provides_pure trivial
  · exact provides_fail _

theorem intRange_isTyped (first last : Int) :
    AllTyped T (intRange first last : List (Value K)) := by
  intro v hv
  obtain ⟨n, -, rfl⟩ := List.mem_map.1 hv
  simp only [Value.IsTyped]

theorem variableAt_provides (symbol : String) {index : Run K (Index K)}
    (h : index.Provides (IsTyped T) fun _ => True) :
    (variableAt symbol index).Provides (IsTyped T) fun _ => True := by
  refine Provides.bind (P := fun _ => True) ?_ fun v _ => h.bind fun idx _ => ?_
  · refine provides_registry.bind fun r _ => ?_
    split
    · exact provides_fail _
    · exact provides_pure trivial
  · refine provides_if (provides_fail _) (provides_registry.bind fun r _ => ?_)
    exact provides_if (provides_fail _) (provides_pure trivial)

/-- The record that a key finds is one of a set of records. -/
theorem recordAt_provides (set : String) (count : Nat) {key : Run K (Index K)}
    (hkey : key.Provides (IsTyped T) fun _ => True) :
    (recordAt set count key).Provides (IsTyped T) (IsTyped T) := by
  have hset : (keyedSet set count : Run K (TupleSet K)).Provides (IsTyped T)
      (TupleSet.IsTyped T) := by
    refine provides_registry.bind fun r hr => ?_
    split
    · exact provides_fail _
    · rename_i d hd
      exact provides_if (provides_fail _) (provides_pure (hr.tupleSets hd))
  refine hset.bind fun d hd => hkey.bind fun k _ => ?_
  have hfound : ∀ v ∈ d.findByKey k, v.IsTyped T := fun v hv =>
    hd.records v (List.mem_filter.1 hv).1
  unfold recordOf
  split
  · exact provides_fail _
  · rename_i v hv
    exact provides_pure (hfound v (hv ▸ List.mem_cons_self))
  · rename_i v vs _ hvs
    refine (maintains_warn _).provides.bind fun _ _ => provides_pure ?_
    exact hfound v (hvs ▸ List.mem_cons_self)

theorem dexprScope_provides (symbol : String) {index : Option (Env K → Run K (Value K))}
    (hindex : ∀ value, index = some value → (value env).Provides (IsTyped T) (IsTyped T)) :
    (dexprScope symbol index env).Provides (IsTyped T) fun scope =>
      scope.1.body.IsTyped T ∧ scope.2.IsTyped T := by
  refine provides_registry.bind fun r hr => ?_
  split
  · exact provides_fail _
  · rename_i d hd
    split
    · exact provides_fail _
    · rename_i i value hi
      refine (hindex value rfl).bind fun v hv => provides_pure ⟨hr.dexprs hd, ?_⟩
      exact Env.isTyped_spawn.bind i hv.normalize
    · exact provides_fail _
    · exact provides_pure ⟨hr.dexprs hd, Env.isTyped_spawn⟩

end Steps

/-! ## Expressions -/

theorem Value.field_isTyped {s : Schema} {vs : List (Value K)} {f : String}
    (hs : (record s vs).IsTyped T) (h : field s vs f = .ok v) : v.IsTyped T := by
  by_cases hstrict : T.strict
  · simp only [IsTyped, HasType, true_and] at hs
    unfold field at h
    split at h
    · rename_i hv
      cases h
      exact (hs hstrict).2.field hv
    · cases h
  · exact isTyped_of_lax hstrict v

namespace Expr

variable {L : Lookup K}

mutual
/-- The value of an expression holds records of declared types. -/
theorem value_provides (hL : L.IsTyped T) : ∀ {e : Expr K} {env : Env K}, e.IsTyped T →
    env.IsTyped T → (e.value L env).Provides (Registry.IsTyped T) (Value.IsTyped T)
  | .num x, env, _, _ => by
    simp only [value]
    exact provides_pure (Value.IsTyped.normalize (by simp only [Value.IsTyped]))
  | .str s, env, _, _ => by
    simp only [value]
    exact provides_pure (by simp only [Value.IsTyped])
  | .record s vs, env, he, _ => by
    simp only [IsTyped] at he
    exact provides_pure he
  | .name s, env, _, henv => by
    simp only [value]
    split
    · rename_i v hv
      exact provides_pure (henv.get? hv)
    · refine provides_registry.bind fun r _ => provides_if (hL.parameter s []) ?_
      exact provides_fail _
  | .param s idx, env, he, henv => by
    simp only [IsTyped] at he
    exact (elements_provides hL he henv).bind fun idx _ => hL.parameter s idx
  | .var n _ _, env, _, _ => by
    simp only [value]
    refine (provides_ofExcept (P := fun _ => True) fun _ _ => trivial).bind fun x _ => ?_
    exact provides_pure (by simp only [Value.IsTyped])
  | .ivar s idx, env, he, henv => by
    simp only [IsTyped] at he
    refine (variableAt_provides s (elements_provides hL he henv)).bind fun n _ => ?_
    refine (provides_ofExcept (P := fun _ => True) fun _ _ => trivial).bind fun x _ => ?_
    exact provides_pure (by simp only [Value.IsTyped])
  | .dexpr s none, env, _, henv => by
    simp only [value]
    refine (provides_ofExcept fun _ => henv.enter).bind fun env' henv' => ?_
    refine (dexprScope_provides s (by simp)).bind fun scope hscope => ?_
    refine (hL.body hscope.1 hscope.2).bind fun x _ => ?_
    exact provides_pure (by simp only [Value.IsTyped])
  | .dexpr s (some e), env, he, henv => by
    simp only [IsTyped] at he
    refine (provides_ofExcept fun _ => henv.enter).bind fun env' henv' => ?_
    refine (dexprScope_provides s ?_).bind fun scope hscope => ?_
    · rintro _ ⟨⟩
      exact value_provides hL he henv'
    refine (hL.body hscope.1 hscope.2).bind fun x _ => ?_
    exact provides_pure (by simp only [Value.IsTyped])
  | .arith op l r, env, he, henv => by
    simp only [IsTyped] at he
    refine (asNumber_provides l (value_provides hL he.1 henv)).bind fun x _ => ?_
    refine (asNumber_provides r (value_provides hL he.2 henv)).bind fun y _ => ?_
    exact provides_pure (by simp only [Value.IsTyped])
  | .neg e, env, he, henv => by
    simp only [IsTyped] at he
    refine (asNumber_provides e (value_provides hL he henv)).bind fun x _ => ?_
    exact provides_pure (by simp only [Value.IsTyped])
  | .rel op l r, env, he, henv => by
    simp only [IsTyped] at he
    refine (value_provides hL he.1 henv).bind fun x _ => ?_
    refine (value_provides hL he.2 henv).bind fun y _ => ?_
    refine (provides_ofExcept (P := fun _ => True) fun _ _ => trivial).bind fun b _ => ?_
    exact provides_pure (by simp only [Value.IsTyped])
  | .logic op es, env, he, henv => by
    simp only [IsTyped] at he
    cases op with
    | not =>
      refine (firstTruth_provides hL he henv).bind fun b _ => ?_
      split
      · exact provides_pure (by simp only [Value.IsTyped])
      · exact provides_fail _
    | and =>
      refine (allTrue_provides hL he henv).bind fun b _ => ?_
      exact provides_pure (by simp only [Value.IsTyped])
    | or =>
      refine (anyTrue_provides hL he henv).bind fun b _ => ?_
      exact provides_pure (by simp only [Value.IsTyped])
  | .field e f, env, he, henv => by
    simp only [IsTyped] at he
    refine (value_provides hL he henv).bind fun v hv => ?_
    split
    · exact provides_ofExcept fun _ => field_isTyped hv
    · exact provides_fail _
  | .item set key, env, he, henv => by
    simp only [IsTyped] at he
    exact recordAt_provides set key.length (elements_provides hL he henv)
  | .sum its body none, env, he, henv => by
    simp only [IsTyped] at he
    refine (Stage.enumerate_provides (Q := fun _ => True) (stages_isTyped hL he.1)
      (fun _ => provides_pure trivial)
      (fun hinner => asNumber_provides body (value_provides hL he.2 hinner)) henv).bind
      fun terms _ => ?_
    exact provides_pure (by simp only [Value.IsTyped])
  | .sum its body (some c), env, he, henv => by
    simp only [IsTyped] at he
    refine (Stage.enumerate_provides (Q := fun _ => True) (stages_isTyped hL he.1)
      (fun hinner => (asNumber_provides c (value_provides hL he.2.2 hinner)).bind
        fun _ _ => provides_pure trivial)
      (fun hinner => asNumber_provides body (value_provides hL he.2.1 hinner)) henv).bind
      fun terms _ => ?_
    exact provides_pure (by simp only [Value.IsTyped])

theorem elements_provides (hL : L.IsTyped T) : ∀ {es : List (Expr K)} {env : Env K},
    AreTyped T es → env.IsTyped T → (elements L es env).Provides (Registry.IsTyped T) fun _ => True
  | [], env, _, _ => by
    simp only [elements]
    exact provides_pure trivial
  | e :: es, env, he, henv => by
    simp only [AreTyped] at he
    refine (value_provides hL he.1 henv).bind fun v _ => ?_
    exact (elements_provides hL he.2 henv).bind fun vs _ => provides_pure trivial

theorem firstTruth_provides (hL : L.IsTyped T) : ∀ {es : List (Expr K)} {env : Env K},
    AreTyped T es → env.IsTyped T →
    (firstTruth L es env).Provides (Registry.IsTyped T) fun _ => True
  | [], env, _, _ => by
    simp only [firstTruth]
    exact provides_pure trivial
  | e :: es, env, he, henv => by
    simp only [AreTyped] at he
    refine (asNumber_provides e (value_provides hL he.1 henv)).bind fun x _ => ?_
    exact provides_pure trivial

theorem allTrue_provides (hL : L.IsTyped T) : ∀ {es : List (Expr K)} {env : Env K},
    AreTyped T es → env.IsTyped T → (allTrue L es env).Provides (Registry.IsTyped T) fun _ => True
  | [], env, _, _ => by
    simp only [allTrue]
    exact provides_pure trivial
  | e :: es, env, he, henv => by
    simp only [AreTyped] at he
    refine (asNumber_provides e (value_provides hL he.1 henv)).bind fun x _ => ?_
    exact provides_if (allTrue_provides hL he.2 henv) (provides_pure trivial)

theorem anyTrue_provides (hL : L.IsTyped T) : ∀ {es : List (Expr K)} {env : Env K},
    AreTyped T es → env.IsTyped T → (anyTrue L es env).Provides (Registry.IsTyped T) fun _ => True
  | [], env, _, _ => by
    simp only [anyTrue]
    exact provides_pure trivial
  | e :: es, env, he, henv => by
    simp only [AreTyped] at he
    refine (asNumber_provides e (value_provides hL he.1 henv)).bind fun x _ => ?_
    exact provides_if (provides_pure trivial) (anyTrue_provides hL he.2 henv)

theorem stages_isTyped (hL : L.IsTyped T) : ∀ {its : List (Iter K)}, Iter.AreTyped T its →
    ∀ s ∈ stages L its, s.IsTyped T
  | [], _ => by simp [stages]
  | it :: its, h => by
    simp only [Iter.AreTyped] at h
    exact List.forall_mem_cons.2 ⟨stage_isTyped hL h.1, stages_isTyped hL h.2⟩

theorem stage_isTyped (hL : L.IsTyped T) : ∀ {it : Iter K}, it.IsTyped T → (stage L it).IsTyped T
  | .mk s src none, h => by
    simp only [Iter.IsTyped] at h
    exact ⟨fun henv => sourceElements_provides hL h henv, fun _ => provides_pure trivial⟩
  | .mk s src (some f), h => by
    simp only [Iter.IsTyped] at h
    exact ⟨fun henv => sourceElements_provides hL h.1 henv, fun henv =>
      (asNumber_provides f (value_provides hL h.2 henv)).bind fun _ _ => provides_pure trivial⟩

theorem sourceElements_provides (hL : L.IsTyped T) : ∀ {src : Source K} {env : Env K},
    src.IsTyped T → env.IsTyped T →
    (sourceElements L src env).Provides (Registry.IsTyped T) (AllTyped T)
  | .named s none, env, _, henv => by
    simp only [sourceElements]
    exact hL.elements s henv (by simp)
  | .named s (some e), env, h, henv => by
    simp only [Source.IsTyped] at h
    refine (value_provides hL h henv).bind fun v hv => hL.elements s henv ?_
    rintro _ ⟨⟩
    exact hv
  | .range a b, env, h, henv => by
    simp only [Source.IsTyped] at h
    refine (rangeBound_provides a (value_provides hL h.1 henv)).bind fun first _ => ?_
    refine (rangeBound_provides b (value_provides hL h.2 henv)).bind fun last _ => ?_
    exact provides_pure (intRange_isTyped first last)
end

theorem number_provides (hL : L.IsTyped T) (he : e.IsTyped T) (henv : env.IsTyped T) :
    (e.number L env).Provides (Registry.IsTyped T) fun _ => True :=
  asNumber_provides e (value_provides hL he henv)

end Expr

section Enumeration

variable {L : Lookup K} (hL : L.IsTyped T) {its : List (Iter K)} (hits : Iter.AreTyped T its)

include hL hits

/-- Whatever is gathered from typed environments has its property for every combination. -/
theorem enumerate_provides {condition : Option (Expr K)}
    (hcondition : ∀ c, condition = some c → c.IsTyped T)
    {Q : α → Prop} {each : Env K → Run K α} (heach : ∀ {env}, env.IsTyped T →
      (each env).Provides (Registry.IsTyped T) Q) (henv : env.IsTyped T) :
    (enumerate L its condition env each).Provides (Registry.IsTyped T) fun as => ∀ a ∈ as, Q a := by
  refine Stage.enumerate_provides (stages_isTyped hL hits) (fun hinner => ?_) heach henv
  cases condition with
  | none => exact provides_pure trivial
  | some c =>
    refine (number_provides hL (hcondition c rfl) hinner).bind fun x _ => ?_
    exact provides_pure trivial

end Enumeration

/-! ## Parameters -/

theorem writing_provides (symbol : String) (place : Option (Index K)) (hv : v.IsTyped T) :
    (writing symbol place v).Provides (IsTyped T) fun _ => True := by
  refine provides_registry.bind fun r hr => ?_
  split
  · exact provides_fail _
  · rename_i p hp
    have hwrite : ∀ q, p.write place v = .ok q → q.IsTyped T := by
      intro q hq
      cases place with
      | none => exact (hr.params hp).set hv hq
      | some idx => exact (hr.params hp).setAt hv hq
    exact (provides_ofExcept hwrite).bind fun q hq =>
      provides_modifyRegistry fun t ht => ht.putParameter hq

section Lookups

variable {L : Lookup K} (hL : L.IsTyped T) {d : ComputedSet K}

include hL

omit hL in
theorem closed_provides (symbol : String) : (modifyRegistry fun r =>
    match r.params.find? symbol with
    | some q => r.putParameter { q with isDefined := true }
    | none => r : Run K Unit).Provides (IsTyped T) fun _ => True := by
  refine provides_modifyRegistry fun r hr => ?_
  split
  · rename_i q hq
    exact hr.putParameter { hr.params hq with }
  · exact hr

theorem defineParameter_provides {p : Parameter K} (hp : p.IsTyped T) {definition : Expr K}
    (hdefinition : definition.IsTyped T) :
    (defineParameter L p definition).Provides (Registry.IsTyped T) fun _ => True := by
  have hclose := closed_provides (K := K) (T := T) p.symbol
  refine (provides_modifyRegistry fun r hr => hr.putParameter (hp.emptied p.isDefined)).bind
    fun _ _ => provides_if ?_ ?_
  · refine Provides.bind (enumerate_provides (Q := fun _ => True) hL hp.iterators (by simp)
      (fun {env} henv => ?_) Env.isTyped_empty) fun _ _ => hclose
    refine Provides.bind (P := fun _ => True) (Maintains.provides (maintains_mapM
      (fun it => maintains_ofExcept _) _)) fun idx _ => ?_
    exact (value_provides hL hdefinition henv).bind fun v hv => writing_provides _ (some idx) hv
  · refine (value_provides hL hdefinition Env.isTyped_empty).bind fun v hv => ?_
    exact (writing_provides _ none hv).bind fun _ _ => hclose

theorem parameterValue_provides (symbol : String) (idx : Index K) :
    (parameterValue L symbol idx).Provides (Registry.IsTyped T) (IsTyped T) := by
  have hstored : (storedValue symbol idx : Run K (Value K)).Provides (Registry.IsTyped T)
      (IsTyped T) := by
    refine provides_registry.bind fun r hr => ?_
    split
    · exact provides_fail _
    · rename_i p hp
      exact provides_ofExcept fun v hv => (hr.params hp).get hv
  refine provides_registry.bind fun r hr => ?_
  split
  · exact provides_fail _
  · rename_i p hp
    split
    · rename_i e he
      refine provides_if ?_ hstored
      exact (defineParameter_provides hL (hr.params hp) ((hr.params hp).definition e he)).bind
        fun _ _ => hstored
    · exact hstored

/-! ## Domains -/

theorem boundOf_provides (symbol : String) (he : e.IsTyped T) (bound : Option Int)
    (note : Int → BoundRange K → BoundRange K)
    (hnote : ∀ i d, (note i d).first = d.first ∧ (note i d).last = d.last) (env : Env K) :
    (boundOf L symbol e bound note env).Provides (Registry.IsTyped T) fun _ => True := by
  unfold boundOf
  split
  · exact provides_pure trivial
  · refine (rangeBound_provides e (value_provides hL he Env.isTyped_spawn)).bind fun i _ => ?_
    refine (provides_modifyRegistry fun r hr => hr.changeRange symbol (hnote i)).bind fun _ _ => ?_
    exact provides_pure trivial

theorem rangeElements_provides {d : BoundRange K} (hd : (Domain.range d).IsTyped T) (env : Env K) :
    (rangeElements L d env).Provides (IsTyped T) (Value.AllTyped T) := by
  have hfirst := boundOf_provides hL d.symbol hd.1 d.knownFirst
    (fun i d => { d with knownFirst := some i }) (fun _ _ => ⟨rfl, rfl⟩) env
  have hlast := fun known => boundOf_provides hL d.symbol hd.2 known
    (fun i d => { d with knownLast := some i }) (fun _ _ => ⟨rfl, rfl⟩) env
  refine hfirst.bind fun first _ => provides_registry.bind fun r _ => ?_
  exact (hlast _).bind fun last _ => provides_pure (intRange_isTyped first last)

theorem comprehend_provides (hd : d.IsTyped T) (henv : env.IsTyped T) :
    (comprehend L d env).Provides (Registry.IsTyped T) (AllTyped T) := by
  refine Provides.bind (enumerate_provides (Q := Value.IsTyped T) hL hd.iterators hd.condition
    (fun {inner} hinner => ?_) henv) fun found hfound => provides_pure fun v hv => ?_
  · split
    · refine (provides_ofExcept fun v hv => hinner.get hv).bind fun v hv => ?_
      exact provides_pure hv.normalize
    · rename_i e he
      refine (value_provides hL (hd.output e he) hinner).bind fun v hv => ?_
      exact provides_pure hv.normalize
  · exact hfound v ((distinct_spec found).1 v hv)

omit hL in
/-- The outer index of a family is given or bound. -/
theorem boundIndex_isTyped {outer : Iter K} (henv : env.IsTyped T)
    (h : (match env.get? outer.symbol with
      | some v => .ok v.normalize
      | none => .error (.outerIndexNotBound d.symbol outer.symbol) : Except (Cause K) (Value K)) =
        .ok v) :
    v.IsTyped T := by
  split at h
  · rename_i w hw
    cases h
    exact (henv.get? hw).normalize
  · cases h

omit hL in
theorem outerIndex_isTyped {outer : Iter K} (henv : env.IsTyped T)
    (hgiven : ∀ v, given = some v → v.IsTyped T) (h : outerIndex d outer env given = .ok v) :
    v.IsTyped T := by
  cases given with
  | none => exact boundIndex_isTyped henv h
  | some w =>
    cases w with
    | null => exact boundIndex_isTyped henv h
    | _ =>
      cases h
      exact (hgiven _ rfl).normalize

omit hL in
theorem memberScope_isTyped (henv : env.IsTyped T) (hgiven : ∀ v, given = some v → v.IsTyped T)
    {scope : Value K × Env K} (h : memberScope d env given = .ok scope) : scope.2.IsTyped T := by
  unfold memberScope at h
  split at h
  · cases h
    exact Env.isTyped_spawn
  · rename_i outer _
    obtain ⟨v, hv, h⟩ := bind_eq_ok.1 h
    have htyped : v.IsTyped T := outerIndex_isTyped henv hgiven hv
    split at h
    · cases h
      exact Env.isTyped_spawn.bind _ htyped
    · cases h

theorem memberElements_provides (hd : d.IsTyped T) (henv : env.IsTyped T)
    (hgiven : ∀ v, given = some v → v.IsTyped T) :
    (memberElements L d env given).Provides (IsTyped T) (AllTyped T) := by
  refine (provides_ofExcept fun _ => memberScope_isTyped henv hgiven).bind fun scope hscope => ?_
  obtain ⟨key, scope⟩ := scope
  simp only
  split
  · rename_i vs hvs
    obtain ⟨k, hmem, -⟩ := Table.exists_of_find? hvs
    exact provides_pure (hd.known _ hmem)
  · refine (comprehend_provides hL hd hscope).bind fun vs hvs => ?_
    refine (provides_modifyRegistry fun r hr => hr.changeMembers d.symbol hvs).bind fun _ _ => ?_
    exact provides_pure hvs

theorem domainElements_provides (symbol : String) (henv : env.IsTyped T)
    (hgiven : ∀ v, given = some v → v.IsTyped T) :
    (domainElements L symbol env given).Provides (IsTyped T) (AllTyped T) := by
  refine provides_registry.bind fun r hr => ?_
  split
  · exact provides_fail _
  · rename_i d hd
    exact provides_pure (hr.domain hd).records
  · rename_i d hd
    exact provides_pure (hr.domain hd).isTyped
  · exact provides_pure (intRange_isTyped _ _)
  · rename_i d hd
    exact rangeElements_provides hL (hr.domain hd) env
  · rename_i d hd
    exact memberElements_provides hL (hr.domain hd) henv hgiven

end Lookups

/-- Every lookup keeps a registry typed. -/
theorem lookup_isTyped : ∀ n, (lookup n : Lookup K).IsTyped T
  | 0 => ⟨fun _ _ => provides_fail _, fun _ _ _ _ _ => provides_fail _, fun _ _ => provides_fail _⟩
  | n + 1 =>
    have hL := lookup_isTyped n
    ⟨fun s idx => parameterValue_provides hL s idx,
      fun s _ _ henv hgiven => domainElements_provides hL s henv hgiven,
      fun he henv => number_provides hL he henv⟩

/-! ## Reads -/

theorem readParameter_provides (symbol : String) (idx : Index K) :
    (readParameter symbol idx).Provides (Registry.IsTyped T) (Value.IsTyped T) := by
  simp only [readParameter, Run.lookup, bind_assoc, pure_bind]
  exact provides_registry.bind fun r _ => (lookup_isTyped _).parameter symbol idx

theorem resolveDomain_provides (symbol : String) (henv : env.IsTyped T)
    (hgiven : ∀ v, given = some v → v.IsTyped T) :
    (resolveDomain symbol env given).Provides (Registry.IsTyped T) (Value.AllTyped T) := by
  simp only [resolveDomain, Run.lookup, bind_assoc, pure_bind]
  exact provides_registry.bind fun r _ => (lookup_isTyped _).elements symbol henv hgiven

theorem evaluateValue_provides (he : e.IsTyped T) (henv : env.IsTyped T) :
    (e.evaluateValue env).Provides (Registry.IsTyped T) (Value.IsTyped T) := by
  simp only [evaluateValue, Run.lookup, bind_assoc, pure_bind]
  exact provides_registry.bind fun r _ => value_provides (lookup_isTyped _) he henv

theorem evaluate_provides (he : e.IsTyped T) (henv : env.IsTyped T) :
    (e.evaluate env).Provides (Registry.IsTyped T) fun _ => True := by
  simp only [evaluate, Run.lookup, bind_assoc, pure_bind]
  exact provides_registry.bind fun r _ => number_provides (lookup_isTyped _) he henv

end LinearModel
