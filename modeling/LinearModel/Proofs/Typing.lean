import LinearModel.Data
import LinearModel.Proofs.Declared

/-!
# Types of values

A value is of a type if it is held in the form of that type. A record carries the name of its type.
Under a strict typing it is moreover of the type that its name stands for in the table of declared
record types, and each of its fields holds a value of the type of the field, which may be a record
again. Coercion compares records by name alone, so it leads to values of the type asked for under a
strict typing only if the records it is given are of declared types.
-/
namespace LinearModel

variable {K : Type} [Scalar K]

theorem map_eq_ok {ε α β : Type} {x : Except ε α} {f : α → β} {b : β} :
    x.map f = .ok b ↔ ∃ a, x = .ok a ∧ f a = b := by
  cases x <;> simp [Except.map]

/-- How the types of values are judged. -/
structure Typing where
  /-- The declared record types. -/
  schemas : Table String Schema
  /-- Whether records are held to the declared types, or only to the names of types. -/
  strict : Prop

/-- Further record types are declared. -/
structure Typing.Extends (T T' : Typing) : Prop where
  schemas : T.schemas.Extends T'.schemas
  strict : T'.strict → T.strict

/-- A word that names a record type is the name of the type. -/
theorem TypeName.eq_of_ofName {n m : String} (h : ofName n = .record m) : n = m := by
  unfold ofName at h
  split at h <;> cases h
  rfl

namespace Value

/-! ## Values of a type -/

mutual
/-- A value is of a type. -/
def HasType (T : Typing) : TypeName → Value K → Prop
  | .int, .int _ => True
  | .float, .real _ => True
  | .bool, .real x => x = Scalar.zero ∨ x = Scalar.one
  | .boolean, .real x => x = Scalar.zero ∨ x = Scalar.one
  | .string, .str _ => True
  | .record name, .record s vs =>
    s.symbol = name ∧ (T.strict → T.schemas.find? name = some s ∧ HaveTypes T s.fields vs)
  | _, _ => False

/-- Values are of the types of fields, one by one. -/
def HaveTypes (T : Typing) : List (String × TypeName) → List (Value K) → Prop
  | [], [] => True
  | f :: fs, v :: vs => HasType T f.2 v ∧ HaveTypes T fs vs
  | _, _ => False
end

mutual
/-- Every record that a value holds is of its type. -/
def IsTyped (T : Typing) : Value K → Prop
  | .record s vs => HasType T (.record s.symbol) (.record s vs)
  | .seq vs => AreTyped T vs
  | .list vs => AreTyped T vs
  | .map ks vs => AreTyped T ks ∧ AreTyped T vs
  | _ => True

/-- Every record that some values hold is of its type. -/
def AreTyped (T : Typing) : List (Value K) → Prop
  | [] => True
  | v :: vs => IsTyped T v ∧ AreTyped T vs
end

variable {T T' : Typing} {vs : List (Value K)} {v w : Value K} {s : Schema}

theorem areTyped_iff : AreTyped T vs ↔ ∀ v ∈ vs, v.IsTyped T := by
  induction vs with
  | nil => simp [AreTyped]
  | cons v vs ih => simp [AreTyped, ih]

theorem HasType.isTyped {t : TypeName} (h : v.HasType T t) : v.IsTyped T := by
  cases v with
  | record s vs =>
    cases t with
    | record name =>
      simp only [HasType] at h
      obtain ⟨rfl, h⟩ := h
      simpa only [IsTyped, HasType, true_and] using h
    | _ => simp [HasType] at h
  | seq | list | map => cases t <;> simp [HasType] at h
  | _ => simp only [IsTyped]

mutual
theorem HasType.mono (hT : T.Extends T') : ∀ {t : TypeName} {v : Value K}, v.HasType T t →
    v.HasType T' t
  | .record name, .record s vs, h => by
    simp only [HasType] at h ⊢
    refine ⟨h.1, fun hstrict => ?_⟩
    obtain ⟨hs, hvs⟩ := h.2 (hT.strict hstrict)
    exact ⟨hT.schemas hs, HaveTypes.mono hT hvs⟩
  | t, .null, h | t, .bool _, h | t, .seq _, h | t, .list _, h | t, .map _ _, h => by
    cases t <;> simp [HasType] at h
  | t, .int _, h | t, .real _, h | t, .str _, h => by
    cases t <;> simp only [HasType] at h ⊢ <;> exact h
  | .int, .record _ _, h | .float, .record _ _, h | .bool, .record _ _, h
  | .boolean, .record _ _, h | .string, .record _ _, h => by simp [HasType] at h

theorem HaveTypes.mono (hT : T.Extends T') : ∀ {fs : List (String × TypeName)}
    {vs : List (Value K)}, HaveTypes T fs vs → HaveTypes T' fs vs
  | [], [], _ => trivial
  | f :: fs, v :: vs, h => by
    simp only [HaveTypes] at h ⊢
    exact ⟨HasType.mono hT h.1, HaveTypes.mono hT h.2⟩
  | [], _ :: _, h | _ :: _, [], h => by simp [HaveTypes] at h
end

mutual
theorem IsTyped.mono (hT : T.Extends T') : ∀ {v : Value K}, v.IsTyped T → v.IsTyped T'
  | .record s vs, h => by
    simp only [IsTyped] at h ⊢
    exact h.mono hT
  | .seq vs, h | .list vs, h => by
    simp only [IsTyped] at h ⊢
    exact AreTyped.mono hT h
  | .map ks vs, h => by
    simp only [IsTyped] at h ⊢
    exact ⟨AreTyped.mono hT h.1, AreTyped.mono hT h.2⟩
  | .null, _ | .bool _, _ | .int _, _ | .real _, _ | .str _, _ => by simp only [IsTyped]

theorem AreTyped.mono (hT : T.Extends T') : ∀ {vs : List (Value K)}, AreTyped T vs → AreTyped T' vs
  | [], _ => trivial
  | v :: vs, h => by
    simp only [AreTyped] at h ⊢
    exact ⟨IsTyped.mono hT h.1, AreTyped.mono hT h.2⟩
end

mutual
/-- Without strictness nothing is asked of the records that a value holds. -/
theorem isTyped_of_lax (hT : ¬ T.strict) : ∀ v : Value K, v.IsTyped T
  | .record s vs => by
    simp only [IsTyped, HasType, true_and]
    exact fun hstrict => absurd hstrict hT
  | .seq vs | .list vs => by
    simpa only [IsTyped] using areTyped_of_lax hT vs
  | .map ks vs => by
    simpa only [IsTyped] using ⟨areTyped_of_lax hT ks, areTyped_of_lax hT vs⟩
  | .null | .bool _ | .int _ | .real _ | .str _ => by simp only [IsTyped]

theorem areTyped_of_lax (hT : ¬ T.strict) : ∀ vs : List (Value K), AreTyped T vs
  | [] => by simp only [AreTyped]
  | v :: vs => by
    simpa only [AreTyped] using ⟨isTyped_of_lax hT v, areTyped_of_lax hT vs⟩
end

theorem IsTyped.normalize (h : v.IsTyped T) : v.normalize.IsTyped T := by
  cases v with
  | bool b => simp only [Value.normalize, IsTyped]
  | real x =>
    simp only [Value.normalize]
    split <;> simp only [IsTyped]
  | _ => exact h

theorem IsTyped.items (h : v.IsTyped T) (hvs : v.items? = some vs) : ∀ w ∈ vs, w.IsTyped T := by
  cases v with
  | seq ws | list ws =>
    cases hvs
    exact areTyped_iff.1 (by simpa only [IsTyped] using h)
  | map ks ws =>
    cases hvs
    simp only [IsTyped] at h
    exact areTyped_iff.1 h.1
  | str s =>
    cases hvs
    intro w hw
    obtain ⟨c, -, rfl⟩ := List.mem_map.1 hw
    simp only [IsTyped]
  | _ => cases hvs

/-! ## Coercion -/

theorem ofBool_zero_or_one (b : Bool) : (Scalar.ofBool b : K) = Scalar.zero ∨
    (Scalar.ofBool b : K) = Scalar.one := by
  cases b
  · exact .inl rfl
  · exact .inr rfl

/-- A coerced value is of the type that it was coerced to. -/
theorem coerce_hasType {t : TypeName} (hv : v.IsTyped T)
    (h : v.coerce t = .ok w) : w.HasType T t := by
  unfold coerce at h
  cases t with
  | int =>
    cases v with
    | bool b | int i => cases h; simp only [HasType]
    | real x | str s =>
      simp only at h
      split at h <;> cases h
      simp only [HasType]
    | _ => cases h
  | float =>
    cases v with
    | bool b | real x => cases h; simp only [HasType]
    | int i =>
      simp only at h
      obtain ⟨x, -, rfl⟩ := map_eq_ok.1 h
      simp only [HasType]
    | str s =>
      simp only at h
      split at h <;> cases h
      simp only [HasType]
    | _ => cases h
  | bool | boolean =>
    cases v with
    | bool b => cases h; exact ofBool_zero_or_one b
    | int i | real x =>
      simp only at h
      split at h
      · cases h; exact .inl rfl
      · split at h <;> cases h
        exact .inr rfl
    | str s =>
      simp only at h
      split at h <;> cases h
      exact ofBool_zero_or_one _
    | _ => cases h
  | string =>
    cases v <;> cases h
    simp only [HasType]
  | record name =>
    cases v with
    | record s vs =>
      simp only at h
      split at h
      · rename_i hname
        cases h
        simpa only [IsTyped, hname] using hv
      · cases h
    | _ => cases h

theorem coerceFields_haveTypes {fs : List (String × TypeName)} : ∀ {vs ws : List (Value K)},
    (∀ v ∈ vs, v.IsTyped T) → vs.length = fs.length → coerceFields fs vs = .ok ws →
    HaveTypes T fs ws := by
  induction fs with
  | nil =>
    intro vs ws _ hlength h
    obtain rfl := List.length_eq_zero_iff.1 hlength
    cases h
    trivial
  | cons f fs ih =>
    intro vs ws hvs hlength h
    cases vs with
    | nil => cases hlength
    | cons v vs =>
      obtain ⟨hv, hvs⟩ := List.forall_mem_cons.1 hvs
      obtain ⟨w, hw, h⟩ := bind_eq_ok.1 h
      obtain ⟨ws', hws', h⟩ := bind_eq_ok.1 h
      cases h
      simp only [HaveTypes]
      exact ⟨coerce_hasType hv hw, ih hvs (Nat.succ.inj hlength) hws'⟩

theorem mem_of_entry {key v : Value K} : ∀ {ks vs : List (Value K)},
    mapEntry? key ks vs = some v → v ∈ vs
  | [], _, h | _ :: _, [], h => by simp [ mapEntry?] at h
  | k :: ks, w :: vs, h => by
    simp only [ mapEntry?] at h
    split at h
    · cases h
      exact List.mem_cons_self
    · exact List.mem_cons_of_mem _ (mem_of_entry h)

/-- The fields that a map gives are among its values. -/
theorem fieldsOfMap_isTyped {ks vs ws : List (Value K)} (hvs : ∀ v ∈ vs, v.IsTyped T)
    (h : fieldsOfMap s ks vs = .ok ws) : ∀ w ∈ ws, w.IsTyped T := by
  simp only [fieldsOfMap] at h
  split at h
  · cases h
  · refine Expr.forall_mem_of_forall₂ (forall₂_of_mapM_ok h) fun f w hw => ?_
    split at hw
    · rename_i v hv
      cases hw
      exact hvs _ (mem_of_entry hv)
    · cases hw

/-- A record that is built is of the type that it was built for. -/
theorem toRecord_hasType (hs : T.strict → T.schemas.find? s.symbol = some s)
    (hv : v.IsTyped T) (h : v.toRecord s = .ok w) : w.HasType T (.record s.symbol) := by
  have hbuilt : ∀ vs : List (Value K), (∀ u ∈ vs, u.IsTyped T) →
      (if vs.length ≠ s.fields.length then
        .error (.fieldCount s.symbol s.fields.length vs.length)
      else do return .record s (← coerceFields s.fields vs) : Except (Cause K) (Value K)) = .ok w →
      w.HasType T (.record s.symbol) := by
    intro vs hvs h
    split at h
    · cases h
    · rename_i hlength
      obtain ⟨ws, hws, h⟩ := bind_eq_ok.1 h
      cases h
      simp only [HasType, true_and]
      exact fun hstrict => ⟨hs hstrict, coerceFields_haveTypes hvs (by simpa using hlength) hws⟩
  unfold toRecord at h
  split at h
  · rename_i ks vs
    obtain ⟨ws, hws, h⟩ := bind_eq_ok.1 h
    exact hbuilt ws (fieldsOfMap_isTyped (areTyped_iff.1 hv.2) hws) h
  · cases hitems : v.items? with
    | none => simp only [hitems] at h; cases h
    | some vs =>
      simp only [hitems] at h
      exact hbuilt vs (hv.items hitems) h

theorem asRecord_isTyped (hs : T.strict → T.schemas.find? s.symbol = some s)
    (hv : v.IsTyped T) (h : v.asRecord s = .ok w) : w.IsTyped T := by
  unfold asRecord at h
  split at h
  · cases h
    exact hv
  · exact (toRecord_hasType hs hv h).isTyped

theorem HasType.eq_record {name : String} (h : w.HasType T (.record name)) :
    ∃ s vs, w = .record s vs := by
  cases w with
  | record s vs => exact ⟨s, vs, rfl⟩
  | _ => simp [HasType] at h

theorem eq_record_of_asRecord (hs : T.strict → T.schemas.find? s.symbol = some s)
    (hv : v.IsTyped T) (h : v.asRecord s = .ok w) : ∃ s' vs, w = .record s' vs := by
  unfold asRecord at h
  split at h
  · cases h
    exact ⟨_, _, rfl⟩
  · exact (toRecord_hasType hs hv h).eq_record

/-- A record fits the record type of its name only, and is kept as it is. -/
theorem coerce_record {t : TypeName} (h : (Value.record s vs).coerce t = .ok w) :
    t = .record s.symbol ∧ w = .record s vs := by
  unfold coerce at h
  cases t with
  | record name =>
    simp only at h
    split at h
    · rename_i hname
      cases h
      exact ⟨by rw [hname], rfl⟩
    · cases h
  | _ => cases h

/-- The fields of a record of its type. -/
theorem HaveTypes.field {f : String} : ∀ {fs : List (String × TypeName)}
    {vs : List (Value K)}, HaveTypes T fs vs → fieldIn? f fs vs = some v → v.IsTyped T
  | [], _, _, h | _ :: _, [], _, h => by simp [fieldIn?] at h
  | f' :: fs, w :: vs, hvs, h => by
    simp only [HaveTypes] at hvs
    simp only [fieldIn?] at h
    split at h
    · cases h
      exact hvs.1.isTyped
    · exact hvs.2.field h

/-! ## Elements -/

/-- A value in the form of an element: no truth value, and no whole number held as a scalar. -/
def IsNormal : Value K → Prop
  | .bool _ => False
  | .real x => Scalar.toInt? x = none
  | _ => True

theorem isNormal_normalize (v : Value K) : v.normalize.IsNormal := by
  cases v with
  | real x =>
    simp only [normalize]
    split
    · trivial
    · rename_i hx
      exact hx
  | _ => trivial

/-- What is left of a list of elements are some of them, each unequal to the earlier ones. -/
theorem distinct_spec (vs : List (Value K)) : (∀ v ∈ distinct vs, v ∈ vs) ∧
    (distinct vs).Pairwise fun v w => (v == w) = false := by
  have hfold : ∀ vs kept : List (Value K), (kept.Pairwise fun w v => (v == w) = false) →
      let left := vs.foldl (fun kept v => if kept.any (· == v) then kept else v :: kept) kept
      (∀ v ∈ left, v ∈ kept ∨ v ∈ vs) ∧ left.Pairwise fun w v => (v == w) = false := by
    intro vs
    induction vs with
    | nil => exact fun kept hkept => ⟨fun v hv => .inl hv, hkept⟩
    | cons v vs ih =>
      intro kept hkept
      simp only [List.foldl_cons]
      split
      · obtain ⟨hmem, hpairs⟩ := ih kept hkept
        exact ⟨fun w hw => (hmem w hw).imp_right (List.mem_cons_of_mem _), hpairs⟩
      · rename_i hnew
        have hnew' : ∀ w ∈ kept, (w == v) = false := by simpa using hnew
        obtain ⟨hmem, hpairs⟩ := ih (v :: kept) (List.pairwise_cons.2 ⟨hnew', hkept⟩)
        refine ⟨fun w hw => ?_, hpairs⟩
        obtain hw | hw := hmem w hw
        · obtain rfl | hw := List.mem_cons.1 hw
          · exact .inr List.mem_cons_self
          · exact .inl hw
        · exact .inr (List.mem_cons_of_mem _ hw)
  obtain ⟨hmem, hpairs⟩ := hfold vs [] .nil
  refine ⟨fun v hv => ?_, List.pairwise_reverse.2 hpairs⟩
  simpa using hmem v (List.mem_reverse.1 hv)

end Value

/-! ## Expressions -/

mutual
/-- Every record that is written in an expression is of its type. -/
def Expr.IsTyped (T : Typing) : Expr K → Prop
  | .record s vs => (Value.record s vs).IsTyped T
  | .num _ | .str _ | .name _ | .var _ _ _ | .dexpr _ none => True
  | .param _ es | .ivar _ es | .logic _ es | .item _ es => Expr.AreTyped T es
  | .dexpr _ (some e) | .neg e | .field e _ => e.IsTyped T
  | .arith _ l r | .rel _ l r => l.IsTyped T ∧ r.IsTyped T
  | .sum its body none => Iter.AreTyped T its ∧ body.IsTyped T
  | .sum its body (some c) => Iter.AreTyped T its ∧ body.IsTyped T ∧ c.IsTyped T

/-- Every record that is written in some expressions is of its type. -/
def Expr.AreTyped (T : Typing) : List (Expr K) → Prop
  | [] => True
  | e :: es => e.IsTyped T ∧ Expr.AreTyped T es

/-- Every record that is written in some iterators is of its type. -/
def Iter.AreTyped (T : Typing) : List (Iter K) → Prop
  | [] => True
  | it :: its => it.IsTyped T ∧ Iter.AreTyped T its

/-- Every record that is written in an iterator is of its type. -/
def Iter.IsTyped (T : Typing) : Iter K → Prop
  | .mk _ src none => src.IsTyped T
  | .mk _ src (some f) => src.IsTyped T ∧ f.IsTyped T

/-- Every record that is written in a source is of its type. -/
def Source.IsTyped (T : Typing) : Source K → Prop
  | .named _ none => True
  | .named _ (some e) => e.IsTyped T
  | .range a b => a.IsTyped T ∧ b.IsTyped T
end

section Growing

variable {T T' : Typing}

mutual
theorem Expr.isTyped_of_lax (hT : ¬ T.strict) : ∀ e : Expr K, e.IsTyped T
  | .record s vs => by
    simpa only [Expr.IsTyped] using Value.isTyped_of_lax hT _
  | .num _ | .str _ | .name _ | .var _ _ _ | .dexpr _ none => by simp only [Expr.IsTyped]
  | .param _ es | .ivar _ es | .logic _ es | .item _ es => by
    simpa only [Expr.IsTyped] using Expr.areTyped_of_lax hT es
  | .dexpr _ (some e) | .neg e | .field e _ => by
    simpa only [Expr.IsTyped] using Expr.isTyped_of_lax hT e
  | .arith _ l r | .rel _ l r => by
    simpa only [Expr.IsTyped] using ⟨Expr.isTyped_of_lax hT l, Expr.isTyped_of_lax hT r⟩
  | .sum its body none => by
    simpa only [Expr.IsTyped] using ⟨Iter.areTyped_of_lax hT its, Expr.isTyped_of_lax hT body⟩
  | .sum its body (some c) => by
    simpa only [Expr.IsTyped] using ⟨Iter.areTyped_of_lax hT its, Expr.isTyped_of_lax hT body,
      Expr.isTyped_of_lax hT c⟩

theorem Expr.areTyped_of_lax (hT : ¬ T.strict) : ∀ es : List (Expr K), Expr.AreTyped T es
  | [] => by simp only [Expr.AreTyped]
  | e :: es => by
    simpa only [Expr.AreTyped] using ⟨Expr.isTyped_of_lax hT e, Expr.areTyped_of_lax hT es⟩

theorem Iter.areTyped_of_lax (hT : ¬ T.strict) : ∀ its : List (Iter K), Iter.AreTyped T its
  | [] => by simp only [Iter.AreTyped]
  | it :: its => by
    simpa only [Iter.AreTyped] using ⟨Iter.isTyped_of_lax hT it, Iter.areTyped_of_lax hT its⟩

theorem Iter.isTyped_of_lax (hT : ¬ T.strict) : ∀ it : Iter K, it.IsTyped T
  | .mk _ src none => by
    simpa only [Iter.IsTyped] using Source.isTyped_of_lax hT src
  | .mk _ src (some f) => by
    simpa only [Iter.IsTyped] using ⟨Source.isTyped_of_lax hT src, Expr.isTyped_of_lax hT f⟩

theorem Source.isTyped_of_lax (hT : ¬ T.strict) : ∀ src : Source K, src.IsTyped T
  | .named _ none => by simp only [Source.IsTyped]
  | .named _ (some e) => by
    simpa only [Source.IsTyped] using Expr.isTyped_of_lax hT e
  | .range a b => by
    simpa only [Source.IsTyped] using ⟨Expr.isTyped_of_lax hT a, Expr.isTyped_of_lax hT b⟩
end

mutual
theorem Expr.IsTyped.mono (hT : T.Extends T') : ∀ {e : Expr K}, e.IsTyped T → e.IsTyped T'
  | .record s vs, h => by
    simp only [Expr.IsTyped] at h ⊢
    exact h.mono hT
  | .num _, _ | .str _, _ | .name _, _ | .var _ _ _, _ | .dexpr _ none, _ => by
    simp only [Expr.IsTyped]
  | .param _ es, h | .ivar _ es, h | .logic _ es, h | .item _ es, h => by
    simp only [Expr.IsTyped] at h ⊢
    exact Expr.AreTyped.mono hT h
  | .dexpr _ (some e), h | .neg e, h | .field e _, h => by
    simp only [Expr.IsTyped] at h ⊢
    exact Expr.IsTyped.mono hT h
  | .arith _ l r, h | .rel _ l r, h => by
    simp only [Expr.IsTyped] at h ⊢
    exact ⟨Expr.IsTyped.mono hT h.1, Expr.IsTyped.mono hT h.2⟩
  | .sum its body none, h => by
    simp only [Expr.IsTyped] at h ⊢
    exact ⟨Iter.AreTyped.mono hT h.1, Expr.IsTyped.mono hT h.2⟩
  | .sum its body (some c), h => by
    simp only [Expr.IsTyped] at h ⊢
    exact ⟨Iter.AreTyped.mono hT h.1, Expr.IsTyped.mono hT h.2.1, Expr.IsTyped.mono hT h.2.2⟩

theorem Expr.AreTyped.mono (hT : T.Extends T') : ∀ {es : List (Expr K)}, Expr.AreTyped T es →
    Expr.AreTyped T' es
  | [], _ => by simp only [Expr.AreTyped]
  | e :: es, h => by
    simp only [Expr.AreTyped] at h ⊢
    exact ⟨Expr.IsTyped.mono hT h.1, Expr.AreTyped.mono hT h.2⟩

theorem Iter.AreTyped.mono (hT : T.Extends T') : ∀ {its : List (Iter K)}, Iter.AreTyped T its →
    Iter.AreTyped T' its
  | [], _ => by simp only [Iter.AreTyped]
  | it :: its, h => by
    simp only [Iter.AreTyped] at h ⊢
    exact ⟨Iter.IsTyped.mono hT h.1, Iter.AreTyped.mono hT h.2⟩

theorem Iter.IsTyped.mono (hT : T.Extends T') : ∀ {it : Iter K}, it.IsTyped T → it.IsTyped T'
  | .mk _ src none, h => by
    simp only [Iter.IsTyped] at h ⊢
    exact Source.IsTyped.mono hT h
  | .mk _ src (some f), h => by
    simp only [Iter.IsTyped] at h ⊢
    exact ⟨Source.IsTyped.mono hT h.1, Expr.IsTyped.mono hT h.2⟩

theorem Source.IsTyped.mono (hT : T.Extends T') : ∀ {src : Source K}, src.IsTyped T → src.IsTyped T'
  | .named _ none, _ => by simp only [Source.IsTyped]
  | .named _ (some e), h => by
    simp only [Source.IsTyped] at h ⊢
    exact Expr.IsTyped.mono hT h
  | .range a b, h => by
    simp only [Source.IsTyped] at h ⊢
    exact ⟨Expr.IsTyped.mono hT h.1, Expr.IsTyped.mono hT h.2⟩
end

end Growing

end LinearModel
