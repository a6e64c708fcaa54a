import LinearModel.Proofs.Typing

/-!
# Typed registries

Storing a value in a parameter, replacing the elements of a set and declaring an entity lead from a
registry that holds values of the declared types to another one, as long as the records that are
handed over are of declared types.
-/
namespace LinearModel

open Table Domain

variable {K : Type} [Scalar K] {d : Domain K} {vs : List (Value K)}

/-! ## Entities -/

/-- A value is of the type of a parameter, and of its record type if it has one. The second does not
follow from the first: a record type may be called like a scalar type. -/
structure Value.Fits (T : Typing) (type : TypeName) (schema : Option Schema) (v : Value K) :
    Prop where
  hasType : v.HasType T type
  record : ∀ s, schema = some s → v.HasType T (.record s.symbol)

/-- A parameter holds values of its type, each under an index with an element for each dimension.
The records that its definition mentions are of declared types. -/
structure Parameter.IsTyped (T : Typing) (p : Parameter K) : Prop where
  value : ∀ v, p.value = some v → v.Fits T p.type p.schema
  values : ∀ e ∈ p.values.toList,
    e.1.length = p.domains.length ∧ (∀ k ∈ e.1, k.IsNormal) ∧ e.2.Fits T p.type p.schema
  schema : ∀ s, p.schema = some s →
    (T.strict → T.schemas.find? s.symbol = some s) ∧ p.type = .ofName s.symbol
  definition : ∀ e, p.definition = some e → e.IsTyped T
  iterators : Iter.AreTyped T p.iterators

/-- A set of elements holds distinct ones, each of them the normal form of a value of its type. -/
structure PrimitiveSet.IsTyped (T : Typing) (d : PrimitiveSet K) : Prop where
  distinct : d.elements.Pairwise fun v w => (v == w) = false
  elements : ∀ v ∈ d.elements, ∃ w : Value K, w.HasType T d.type ∧ v = w.normalize

/-- A set of records holds records of declared types. -/
structure TupleSet.IsTyped (T : Typing) (d : TupleSet K) : Prop where
  schema : T.strict → T.schemas.find? d.schema.symbol = some d.schema
  records : ∀ v ∈ d.records, v.IsTyped T

/-- The records that a comprehension mentions or is known to hold are of declared types. -/
structure ComputedSet.IsTyped (T : Typing) (d : ComputedSet K) : Prop where
  iterators : Iter.AreTyped T d.iterators
  condition : ∀ e, d.condition = some e → e.IsTyped T
  output : ∀ e, d.output = some e → e.IsTyped T
  known : ∀ e ∈ d.known.toList, ∀ v ∈ e.2, v.IsTyped T

/-- A domain holds what its type asks for. -/
def Domain.IsTyped (T : Typing) : Domain K → Prop
  | .tuples d => d.IsTyped T
  | .computed d => d.IsTyped T
  | .primitive d => d.IsTyped T
  | .index _ => True
  | .range d => d.first.IsTyped T ∧ d.last.IsTyped T

/-- An entity holds what its type asks for. -/
def Entity.IsTyped (T : Typing) : Entity K → Prop
  | .domain d => d.IsTyped T
  | .parameter p => p.IsTyped T
  | .dexpr d => d.body.IsTyped T
  | .schema _ | .decisionVariable _ => True

section Growing

variable {T T' : Typing} (hT : T.Extends T')

include hT

theorem Value.Fits.mono {type : TypeName} {schema : Option Schema} {v : Value K}
    (h : v.Fits T type schema) : v.Fits T' type schema :=
  ⟨h.hasType.mono hT, fun s hs => (h.record s hs).mono hT⟩

theorem Parameter.IsTyped.mono {p : Parameter K} (h : p.IsTyped T) : p.IsTyped T' where
  value v hv := (h.value v hv).mono hT
  values e he := (h.values e he).imp_right fun h => h.imp_right fun h => h.mono hT
  schema s hs := (h.schema s hs).imp_left fun h hstrict => hT.schemas (h (hT.strict hstrict))
  definition e he := (h.definition e he).mono hT
  iterators := h.iterators.mono hT

theorem Domain.IsTyped.mono (h : d.IsTyped T) : d.IsTyped T' := by
  cases d with
  | tuples d =>
    exact ⟨fun hstrict => hT.schemas (h.schema (hT.strict hstrict)),
      fun v hv => (h.records v hv).mono hT⟩
  | computed d =>
    exact ⟨h.iterators.mono hT, fun e he => (h.condition e he).mono hT,
      fun e he => (h.output e he).mono hT, fun e he v hv => (h.known e he v hv).mono hT⟩
  | primitive d =>
    refine ⟨h.distinct, fun v hv => ?_⟩
    obtain ⟨w, hw, hvw⟩ := h.elements v hv
    exact ⟨w, hw.mono hT, hvw⟩
  | index d => trivial
  | range d => exact ⟨h.1.mono hT, h.2.mono hT⟩

end Growing

/-! ## Storing values -/

section Storing

variable {T : Typing} {p q : Parameter K} {v w : Value K}

theorem Parameter.IsTyped.prepare (hp : p.IsTyped T) (hv : v.IsTyped T) (h : p.prepare v = .ok w) :
    w.IsTyped T := by
  unfold Parameter.prepare at h
  split at h
  · rename_i s hs
    exact Value.asRecord_isTyped (hp.schema s hs).1 hv h
  · cases h
    exact hv

/-- What is fitted to the type of a parameter for records is a record of this type. -/
theorem Parameter.IsTyped.fits (hp : p.IsTyped T) (hv : v.IsTyped T) {u : Value K}
    (hu : p.prepare v = .ok u) (hw : u.coerce p.type = .ok w) :
    w.Fits T p.type p.schema := by
  have htyped := hp.prepare hv hu
  refine ⟨Value.coerce_hasType htyped hw, fun s hs => ?_⟩
  obtain ⟨hdeclared, hname⟩ := hp.schema s hs
  simp only [Parameter.prepare, hs] at hu
  obtain ⟨s', vs, rfl⟩ := Value.eq_record_of_asRecord hdeclared hv hu
  obtain ⟨htype, rfl⟩ := Value.coerce_record hw
  rw [hname] at htype
  rwa [TypeName.eq_of_ofName htype]

theorem Parameter.IsTyped.set (hp : p.IsTyped T) (hv : v.IsTyped T) (h : p.set v = .ok q) :
    q.IsTyped T := by
  obtain ⟨u, hu, h⟩ := bind_eq_ok.1 h
  split at h
  · cases h
  · obtain ⟨w, hw, h⟩ := bind_eq_ok.1 h
    cases h
    have hfits := hp.fits hv hu hw
    exact { hp with value := fun w' hw' => Option.some.inj hw' ▸ hfits }

/-- A value is stored in the form of its type, and under an index of normal elements. -/
theorem Parameter.IsTyped.setAt (hp : p.IsTyped T) {idx : Index K} (hv : v.IsTyped T)
    (h : p.setAt idx v = .ok q) : q.IsTyped T := by
  obtain ⟨u, hu, h⟩ := bind_eq_ok.1 h
  split at h
  · cases h
  · rename_i hlength
    obtain ⟨w, hw, h⟩ := bind_eq_ok.1 h
    split at h
    · cases h
    · cases h
      have hfits := hp.fits hv hu hw
      refine { hp with values := fun e he => ?_ }
      obtain hold | ⟨hkey, rfl⟩ := mem_insert_beq he
      · exact hp.values e hold
      · obtain hnew | ⟨b, hold, -⟩ := hkey
        · refine ⟨?_, fun k hk => ?_, hfits⟩
          · rw [hnew, List.length_map]
            exact Decidable.not_not.1 hlength
          · rw [hnew] at hk
            obtain ⟨k', -, rfl⟩ := List.mem_map.1 hk
            exact k'.isNormal_normalize
        · exact ⟨(hp.values _ hold).1, (hp.values _ hold).2.1, hfits⟩

/-- A parameter without values is as well typed as its declaration. -/
theorem Parameter.IsTyped.emptied (hp : p.IsTyped T) (isDefined : Bool) :
    { p with value := none, values := empty, isDefined : Parameter K }.IsTyped T :=
  { hp with
    value := fun _ h => by cases h
    values := fun _ h => by cases h }

theorem Parameter.IsTyped.get (hp : p.IsTyped T) {idx : Index K} (h : p.get idx = .ok v) :
    v.IsTyped T := by
  unfold Parameter.get at h
  split at h
  · split at h
    · cases h
    · split at h <;> cases h
      rename_i hv
      exact (hp.value _ hv).hasType.isTyped
  · split at h
    · cases h
    · simp only at h
      split at h
      · cases h
      · split at h <;> cases h
        rename_i hv
        obtain ⟨k, hmem, -⟩ := exists_of_find? hv
        exact (hp.values _ hmem).2.2.hasType.isTyped

theorem PrimitiveSet.IsTyped.withElements {d d' : PrimitiveSet K}
    (hvs : ∀ v ∈ vs, v.IsTyped T) (h : d.withElements vs = .ok d') : d'.IsTyped T := by
  obtain ⟨ws, hws, h⟩ := bind_eq_ok.1 h
  cases h
  obtain ⟨hmem, hpairs⟩ := Value.distinct_spec ws
  have hnormal : ∀ v ∈ ws, ∃ w : Value K, w.HasType T d.type ∧ v = w.normalize := by
    refine Expr.forall_mem_of_forall₂
      ((List.forall₂_and_left _ _).2 ⟨hvs, forall₂_of_mapM_ok hws⟩) ?_
    rintro u v ⟨hu, h⟩
    obtain ⟨w, hw, rfl⟩ := map_eq_ok.1 h
    exact ⟨w, Value.coerce_hasType hu hw, rfl⟩
  exact ⟨hpairs, fun v hv => hnormal v (hmem v hv)⟩

/-- The elements of a typed set are of declared types. -/
theorem PrimitiveSet.IsTyped.isTyped {d : PrimitiveSet K} (hd : d.IsTyped T) :
    ∀ v ∈ d.elements, v.IsTyped T := by
  intro v hv
  obtain ⟨w, hw, rfl⟩ := hd.elements v hv
  exact hw.isTyped.normalize

theorem TupleSet.IsTyped.recordsOf {d : TupleSet K} (hd : d.IsTyped T) {vs ws : List (Value K)}
    (hvs : ∀ v ∈ vs, v.IsTyped T) (h : d.recordsOf vs = .ok ws) : ∀ w ∈ ws, w.IsTyped T := by
  obtain ⟨us, hus, h⟩ := bind_eq_ok.1 h
  cases h
  have hrecords : ∀ u ∈ us, u.IsTyped T :=
    Expr.forall_mem_of_forall₂ ((List.forall₂_and_left _ _).2 ⟨hvs, forall₂_of_mapM_ok hus⟩)
      fun v u h => Value.asRecord_isTyped hd.schema h.1 h.2
  exact fun w hw => hrecords w ((Value.distinct_spec us).1 w hw)

end Storing

/-! ## Registries -/

/-- Everything that is declared holds what its type asks for. -/
structure Registry.IsTyped (T : Typing) (r : Registry K) : Prop where
  schemas : r.schemas = T.schemas
  named : ∀ {s d}, T.schemas.find? s = some d → d.symbol = s
  tupleSets : ∀ {s d}, r.tupleSets.find? s = some d → d.IsTyped T
  computedSets : ∀ {s d}, r.computedSets.find? s = some d → d.IsTyped T
  primitiveSets : ∀ {s d}, r.primitiveSets.find? s = some d → d.IsTyped T
  boundRanges : ∀ {s d}, r.boundRanges.find? s = some d → (range d).IsTyped T
  params : ∀ {s p}, r.params.find? s = some p → p.IsTyped T
  dexprs : ∀ {s d}, r.dexprs.find? s = some d → d.body.IsTyped T

namespace Registry

variable {T : Typing} {r t : Registry K}

theorem isTyped_empty (strict : Prop) : ({} : Registry K).IsTyped ⟨empty, strict⟩ where
  schemas := rfl
  named h := by cases h
  tupleSets h := by cases h
  computedSets h := by cases h
  primitiveSets h := by cases h
  boundRanges h := by cases h
  params h := by cases h
  dexprs h := by cases h

theorem IsTyped.domain (hr : r.IsTyped T) {s : String} (h : r.domain? s = some d) :
    d.IsTyped T := by
  simp only [domain?] at h
  cases htuples : r.tupleSets.find? s with
  | some d' =>
    obtain rfl : tuples d' = d := by simpa [htuples] using h
    exact hr.tupleSets htuples
  | none =>
    cases hcomputed : r.computedSets.find? s with
    | some d' =>
      obtain rfl : computed d' = d := by simpa [htuples, hcomputed] using h
      exact hr.computedSets hcomputed
    | none =>
      cases hprimitive : r.primitiveSets.find? s with
      | some d' =>
        obtain rfl : primitive d' = d := by simpa [htuples, hcomputed, hprimitive] using h
        exact hr.primitiveSets hprimitive
      | none =>
        cases hindex : r.indexSets.find? s with
        | some d' =>
          obtain rfl : index d' = d := by
            simpa [htuples, hcomputed, hprimitive, hindex] using h
          trivial
        | none =>
          obtain ⟨d', hrange, rfl⟩ : ∃ d', r.boundRanges.find? s = some d' ∧
              range d' = d := by
            simpa [htuples, hcomputed, hprimitive, hindex] using h
          exact hr.boundRanges hrange

theorem IsTyped.putParameter (hr : r.IsTyped T) {p : Parameter K} (hp : p.IsTyped T) :
    (r.putParameter p).IsTyped T :=
  { hr with
    params := forall_insert (P := fun _ (p : Parameter K) => p.IsTyped T) hr.params hp }

theorem IsTyped.putDomain (hr : r.IsTyped T) (hd : d.IsTyped T) : (r.putDomain d).IsTyped T := by
  cases d with
  | tuples d =>
    exact { hr with
      tupleSets := forall_insert (P := fun _ (d : TupleSet K) => d.IsTyped T)
        hr.tupleSets hd }
  | computed d =>
    exact { hr with
      computedSets := forall_insert (P := fun _ (d : ComputedSet K) => d.IsTyped T)
        hr.computedSets hd }
  | primitive d =>
    exact { hr with
      primitiveSets := forall_insert (P := fun _ (d : PrimitiveSet K) => d.IsTyped T)
        hr.primitiveSets hd }
  | index d => exact { hr with }
  | range d =>
    exact { hr with
      boundRanges := forall_insert (P := fun _ d => (range d).IsTyped T)
        hr.boundRanges hd }

theorem IsTyped.changeRange (hr : r.IsTyped T) (symbol : String) {f : BoundRange K → BoundRange K}
    (hf : ∀ d, (f d).first = d.first ∧ (f d).last = d.last) :
    (r.changeRange symbol f).IsTyped T := by
  unfold Registry.changeRange
  split
  · rename_i d hd
    have htyped := hr.boundRanges hd
    have hf' : (range (f d)).IsTyped T := by
      obtain ⟨hfirst, hlast⟩ := hf d
      exact ⟨hfirst ▸ htyped.1, hlast ▸ htyped.2⟩
    exact { hr with
      boundRanges := forall_insert (P := fun _ d => (range d).IsTyped T)
        hr.boundRanges hf' }
  · exact hr

theorem IsTyped.changeMembers (hr : r.IsTyped T) (symbol : String) {key : Value K}
    (hvs : ∀ v ∈ vs, v.IsTyped T) :
    (r.changeMembers symbol fun d => { d with known := d.known.insert key vs }).IsTyped T := by
  unfold Registry.changeMembers
  split
  · rename_i d hd
    have htyped := hr.computedSets hd
    have hmore : { d with known := d.known.insert key vs : ComputedSet K }.IsTyped T := by
      refine { htyped with known := fun e he => ?_ }
      obtain hold | ⟨-, hnew⟩ := mem_insert_beq he
      · exact htyped.known e hold
      · exact hnew ▸ hvs
    exact { hr with
      computedSets := forall_insert (P := fun _ (d : ComputedSet K) => d.IsTyped T)
        hr.computedSets hmore }
  · exact hr

theorem IsTyped.invalidate (hr : r.IsTyped T) : r.invalidate.IsTyped T where
  schemas := hr.schemas
  named := hr.named
  tupleSets := hr.tupleSets
  primitiveSets := hr.primitiveSets
  dexprs := hr.dexprs
  computedSets h := by
    simp only [Registry.invalidate, find?_map, Option.map_eq_some_iff] at h
    obtain ⟨d, hd, rfl⟩ := h
    exact { hr.computedSets hd with known := fun _ he => by cases he }
  boundRanges h := by
    simp only [Registry.invalidate, find?_map, Option.map_eq_some_iff] at h
    obtain ⟨d, hd, rfl⟩ := h
    have htyped := hr.boundRanges hd
    exact htyped
  params h := by
    simp only [Registry.invalidate, find?_map, Option.map_eq_some_iff] at h
    obtain ⟨p, hp, rfl⟩ := h
    split
    · exact (hr.params hp).emptied false
    · exact hr.params hp

/-- A registry stays typed when further record types are declared. -/
theorem IsTyped.withSchemas {T' : Typing} (hr : r.IsTyped T) (hT : T.Extends T')
    (hnamed : ∀ {s d}, T'.schemas.find? s = some d → d.symbol = s) :
    { r with schemas := T'.schemas : Registry K }.IsTyped T' where
  schemas := rfl
  named := hnamed
  tupleSets h := IsTyped.mono (d := .tuples _) hT (hr.tupleSets h)
  computedSets h := IsTyped.mono (d := .computed _) hT (hr.computedSets h)
  primitiveSets h := IsTyped.mono (d := .primitive _) hT (hr.primitiveSets h)
  boundRanges h := IsTyped.mono hT (hr.boundRanges h)
  params h := (hr.params h).mono hT
  dexprs h := (hr.dexprs h).mono hT

/-- Declaring a typed entity keeps a registry typed. The entity may be a further record type. -/
theorem IsTyped.declare {strict : Prop} (hr : r.IsTyped ⟨r.schemas, strict⟩) {e : Entity K}
    (he : e.IsTyped ⟨r.schemas, strict⟩) (h : r.declare e = .ok t) :
    t.IsTyped ⟨t.schemas, strict⟩ := by
  unfold Registry.declare at h
  split at h
  · cases h
  · rename_i hdeclared
    cases h
    cases e with
    | schema s =>
      -- a symbol that is not declared yet is no name of a record type
      have hschemas : r.schemas.Extends (r.schemas.insert s.symbol s) := by
        intro s' d hd
        have hne : s.symbol ≠ s' := by
          rintro rfl
          simp [isDeclared, contains, Entity.symbol, hd] at hdeclared
        rwa [find?_insert_of_ne _ _ hne]
      have hT : Typing.Extends ⟨r.schemas, strict⟩ ⟨r.schemas.insert s.symbol s, strict⟩ :=
        ⟨hschemas, id⟩
      exact hr.withSchemas hT
        (forall_insert (P := fun s (d : Schema) => d.symbol = s) hr.named rfl)
    | domain d =>
      have hput := hr.putDomain he
      cases d <;> exact hput
    | parameter p => exact hr.putParameter he
    | decisionVariable v => exact { hr with }
    | dexpr d =>
      exact { hr with
        dexprs := forall_insert
          (P := fun _ (d : DecisionExpression K) => d.body.IsTyped ⟨r.schemas, strict⟩)
          hr.dexprs he }

end Registry

end LinearModel
