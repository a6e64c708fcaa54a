import LinearModel.Proofs.TypedReading
import LinearModel.Proofs.WholeDoubles

/-!
# Typed histories

A store starts out empty. Statements are read into it, entities are declared, data is assigned, and
parameters, domains and expressions are read, in any order and with any outcome. In between, every
parameter holds values in the form of its type, under indices of normal elements, and every set
holds distinct normal elements that are fit for its type. All this is so whatever data is handed
over.

A record that is handed over is asked for the name of its type only. If its type is another one than
the declared type of that name, it is held all the same. If no such records are handed over, every
record that is held is of the declared type, and so are the records in its fields.
-/
namespace LinearModel

open Run Registry

variable {K : Type} [Scalar K]

/-! ## Data -/

section Data

variable {T : Typing} {v : Value K}

theorem invalidate_provides : (invalidate : Run K Unit).Provides (IsTyped T) fun _ => True :=
  provides_modifyRegistry fun _ hr => hr.invalidate

theorem itemsOf_provides (hv : v.IsTyped T) :
    (itemsOf v).Provides (IsTyped T) (Value.AllTyped T) := by
  unfold itemsOf
  split
  · rename_i vs hvs
    exact provides_pure (hv.items hvs)
  · exact provides_fail _

theorem assignParameter_provides (symbol : String) (idx : Option (Index K)) (hv : v.IsTyped T) :
    (assignParameter symbol idx v).Provides (IsTyped T) fun _ => True := by
  rw [assignParameter_eq]
  exact (writing_provides symbol idx hv).bind fun _ _ => invalidate_provides

theorem assignParameters_provides (symbol : String) (hv : v.IsTyped T) :
    (assignParameters symbol v).Provides (IsTyped T) fun _ => True := by
  refine provides_registry.bind fun r _ => provides_if
    ((provides_fail (P := fun _ => True) _).bind fun _ _ => ?_) ?_
  all_goals
    cases v with
    | map keys values =>
      have hvalues := Value.areTyped_iff.1 hv.2
      refine Provides.bind (provides_forM _ fun e he => ?_) fun _ _ => invalidate_provides
      exact writing_provides symbol (some _) (hvalues e.2 (List.of_mem_zip he).2)
    | _ => exact provides_fail _

theorem assignElements_provides (symbol : String) (hv : v.IsTyped T) :
    (assignElements symbol v).Provides (IsTyped T) fun _ => True := by
  refine provides_registry.bind fun r _ => ?_
  split
  · rename_i d _
    have hrest : ∀ _ : Unit, (do
        let d ← Run.ofExcept (d.withElements (← itemsOf v))
        modifyRegistry (·.putDomain (.primitive d))
        invalidate : Run K Unit).Provides (IsTyped T) fun _ => True := by
      intro _
      refine (itemsOf_provides hv).bind fun vs hvs => ?_
      refine (provides_ofExcept fun d' hd' => PrimitiveSet.IsTyped.withElements hvs hd').bind
        fun d' hd' => ?_
      exact (provides_modifyRegistry fun t ht => ht.putDomain hd').bind
        fun _ _ => invalidate_provides
    refine provides_if ?_ (hrest ())
    exact (provides_fail (P := fun _ => True) _).bind fun _ _ => hrest ()
  · exact provides_fail _

/-- Records with the name of a foreign type are entered before they are refused. -/
theorem assignRecords_provides (symbol : String) (hv : v.IsTyped T) :
    (assignRecords symbol v).Provides (IsTyped T) fun _ => True := by
  refine provides_registry.bind fun r hr => ?_
  split
  · exact provides_fail _
  · rename_i d hd
    have htyped := hr.tupleSets hd
    refine (itemsOf_provides hv).bind fun vs hvs => ?_
    refine (provides_ofExcept fun records hrecords => htyped.recordsOf hvs hrecords).bind
      fun records hrecords => ?_
    refine (provides_modifyRegistry fun t ht =>
      ht.putDomain (d := .tuples { d with records }) ⟨htyped.schema, hrecords⟩).bind fun _ _ => ?_
    split
    exacts [provides_fail _, invalidate_provides]

theorem assign_provides (symbol : String) (hv : v.IsTyped T) :
    (assign symbol v).Provides (IsTyped T) fun _ => True := by
  refine provides_registry.bind fun r _ => ?_
  refine provides_if (assignRecords_provides symbol hv)
    (provides_if (assignElements_provides symbol hv) ?_)
  split
  · exact provides_if (assignParameters_provides symbol hv)
      (assignParameter_provides symbol none hv)
  · exact provides_fail _

theorem assignAll_provides {data : Table String (Value K)}
    (hdata : ∀ e ∈ data.toList, e.2.IsTyped T) :
    (assignAll data).Provides (IsTyped T) fun _ => True :=
  provides_forM _ fun e he => assign_provides e.1 (hdata e he)

end Data

/-! ## Operations -/

section Operations

variable {T : Typing}

theorem Value.isTyped_of_strict {v : Value K} (h : T.strict → v.IsTyped T) : v.IsTyped T := by
  by_cases hstrict : T.strict
  exacts [h hstrict, isTyped_of_lax hstrict v]

theorem Expr.isTyped_of_strict {e : Expr K} (h : T.strict → e.IsTyped T) : e.IsTyped T := by
  by_cases hstrict : T.strict
  exacts [h hstrict, isTyped_of_lax hstrict e]

theorem Env.isTyped_of_strict {env : Env K} (h : T.strict → env.IsTyped T) : env.IsTyped T :=
  fun b hb => Value.isTyped_of_strict fun hstrict => h hstrict b hb

/-- An entity as it is made, before data is assigned or anything is computed. A set holds what its
given elements are fitted to. Under a strict typing, the records that are handed over with the
entity are of declared types. -/
def Entity.IsMade (T : Typing) : Entity K → Prop
  | .schema _ | .decisionVariable _ | .domain (.index _) => True
  | .dexpr d => T.strict → d.body.IsTyped T
  | .parameter p => p.value = none ∧ p.values = Table.empty ∧
      (∀ e, p.definition = some e → T.strict → e.IsTyped T) ∧
      (T.strict → Iter.AreTyped T p.iterators) ∧
      ∀ s, p.schema = some s →
        (T.strict → T.schemas.find? s.symbol = some s) ∧ p.type = .ofName s.symbol
  | .domain (.range d) => T.strict → d.first.IsTyped T ∧ d.last.IsTyped T
  | .domain (.primitive d) =>
    ∃ vs, (T.strict → ∀ v ∈ vs, v.IsTyped T) ∧ d.withElements vs = .ok d
  | .domain (.tuples d) => (T.strict → T.schemas.find? d.schema.symbol = some d.schema) ∧
      ∃ vs, (T.strict → ∀ v ∈ vs, v.IsTyped T) ∧ d.recordsOf vs = .ok d.records
  | .domain (.computed d) => d.known = Table.empty ∧ (T.strict → d.IsTyped T)

theorem Entity.IsMade.isTyped {e : Entity K} (he : e.IsMade T) : e.IsTyped T := by
  have hall : ∀ {vs : List (Value K)}, (T.strict → ∀ v ∈ vs, v.IsTyped T) →
      ∀ v ∈ vs, v.IsTyped T :=
    fun h v hv => Value.isTyped_of_strict fun hstrict => h hstrict v hv
  cases e with
  | parameter p =>
    obtain ⟨hvalue, hvalues, hdefinition, hiterators, hschema⟩ := he
    refine ⟨fun v hv => ?_, fun e he => ?_, hschema,
      fun e he => Expr.isTyped_of_strict (hdefinition e he), ?_⟩
    · simp [hvalue] at hv
    · rw [hvalues] at he
      cases he
    · by_cases hstrict : T.strict
      exacts [hiterators hstrict, Iter.areTyped_of_lax hstrict _]
  | dexpr d => exact Expr.isTyped_of_strict he
  | domain d =>
    cases d with
    | index d => trivial
    | range d =>
      exact ⟨Expr.isTyped_of_strict fun hstrict => (he hstrict).1,
        Expr.isTyped_of_strict fun hstrict => (he hstrict).2⟩
    | primitive d =>
      obtain ⟨vs, hvs, hd⟩ := he
      exact PrimitiveSet.IsTyped.withElements (hall hvs) hd
    | tuples d =>
      obtain ⟨hschema, vs, hvs, hd⟩ := he
      have hempty : { d with records := [] : TupleSet K }.IsTyped T := ⟨hschema, by simp⟩
      exact ⟨hschema, hempty.recordsOf (hall hvs) hd⟩
    | computed d =>
      obtain ⟨hknown, htyped⟩ := he
      by_cases hstrict : T.strict
      · exact htyped hstrict
      · refine ⟨Iter.areTyped_of_lax hstrict _, fun e _ => Expr.isTyped_of_lax hstrict e,
          fun e _ => Expr.isTyped_of_lax hstrict e, fun e he => ?_⟩
        rw [hknown] at he
        cases he
  | schema s | decisionVariable v => trivial

/-- The operations that declare, assign data or read. Any data may be handed over, but under a
strict typing its records are of declared types. -/
inductive IsOperation (T : Typing) : ∀ {α : Type}, Run K α → Prop
  | statement (textual : Bool) (text : String) : IsOperation T (parseStatement textual text)
  | assignedParameter (symbol : String) (idx : Option (Index K)) {v : Value K}
      (hv : T.strict → v.IsTyped T) : IsOperation T (assignParameter symbol idx v)
  | assignedParameters (symbol : String) {v : Value K} (hv : T.strict → v.IsTyped T) :
      IsOperation T (assignParameters symbol v)
  | assignedElements (symbol : String) {v : Value K} (hv : T.strict → v.IsTyped T) :
      IsOperation T (assignElements symbol v)
  | assignedRecords (symbol : String) {v : Value K} (hv : T.strict → v.IsTyped T) :
      IsOperation T (assignRecords symbol v)
  | assigned (symbol : String) {v : Value K} (hv : T.strict → v.IsTyped T) :
      IsOperation T (assign symbol v)
  | assignedAll {data : Table String (Value K)}
      (hdata : T.strict → ∀ e ∈ data.toList, e.2.IsTyped T) : IsOperation T (assignAll data)
  | parameter (symbol : String) (idx : Index K) : IsOperation T (readParameter symbol idx)
  | elements (symbol : String) {env : Env K} (henv : T.strict → env.IsTyped T)
      {given : Option (Value K)} (hgiven : T.strict → ∀ v, given = some v → v.IsTyped T) :
      IsOperation T (resolveDomain symbol env given)
  | value {e : Expr K} (he : T.strict → e.IsTyped T) {env : Env K}
      (henv : T.strict → env.IsTyped T) : IsOperation T (e.evaluateValue env)
  | number {e : Expr K} (he : T.strict → e.IsTyped T) {env : Env K}
      (henv : T.strict → env.IsTyped T) : IsOperation T (e.evaluate env)

/-- An operation leaves a well typed registry well typed, whether it succeeds or fails. -/
theorem IsOperation.isWellTyped {α : Type} {s : Store K} {strict : Prop} {x : Run K α}
    (hx : IsOperation (s.registry.typing strict) x) (hs : s.registry.IsWellTyped strict) :
    (x.start s).2.registry.IsWellTyped strict := by
  cases hx with
  | statement textual text => exact parseStatement_isWellTyped strict textual text hs
  | assignedParameter symbol idx hv =>
    exact (assignParameter_provides symbol idx (Value.isTyped_of_strict hv) hs).1.isWellTyped
  | assignedParameters symbol hv =>
    exact (assignParameters_provides symbol (Value.isTyped_of_strict hv) hs).1.isWellTyped
  | assignedElements symbol hv =>
    exact (assignElements_provides symbol (Value.isTyped_of_strict hv) hs).1.isWellTyped
  | assignedRecords symbol hv =>
    exact (assignRecords_provides symbol (Value.isTyped_of_strict hv) hs).1.isWellTyped
  | assigned symbol hv =>
    exact (assign_provides symbol (Value.isTyped_of_strict hv) hs).1.isWellTyped
  | assignedAll hdata =>
    exact (assignAll_provides (fun e he => Value.isTyped_of_strict fun hstrict =>
      hdata hstrict e he) hs).1.isWellTyped
  | parameter symbol idx => exact (readParameter_provides symbol idx hs).1.isWellTyped
  | elements symbol henv hgiven =>
    exact (resolveDomain_provides symbol (Env.isTyped_of_strict henv) (fun v hv =>
      Value.isTyped_of_strict fun hstrict => hgiven hstrict v hv) hs).1.isWellTyped
  | value he henv =>
    exact (evaluateValue_provides (Expr.isTyped_of_strict he) (Env.isTyped_of_strict henv)
      hs).1.isWellTyped
  | number he henv =>
    exact (evaluate_provides (Expr.isTyped_of_strict he) (Env.isTyped_of_strict henv)
      hs).1.isWellTyped

end Operations

/-- The stores that declarations, data and reads lead to from the empty one. An operation that
fails leads somewhere too. -/
inductive Store.History (strict : Prop) : Store K → Prop
  | empty : History strict {}
  | declared {s : Store K} (hs : History strict s) {e : Entity K}
      (he : e.IsMade (s.registry.typing strict)) {t : Registry K}
      (h : s.registry.declare e = .ok t) : History strict { s with registry := t }
  | operation {s : Store K} (hs : History strict s) {α : Type} {x : Run K α}
      (hx : IsOperation (s.registry.typing strict) x) : History strict (x.start s).2

theorem Store.History.isWellTyped {strict : Prop} {s : Store K} (h : s.History strict) :
    s.registry.IsWellTyped strict := by
  induction h with
  | empty => exact isTyped_empty strict
  | declared _ he hdeclared ih => exact ih.declare he.isTyped hdeclared
  | operation _ hx ih => exact hx.isWellTyped ih

/-! ## Elements -/

/-- The normal form of a value of a type is fit for the type. A whole number that was held as a
double is within the range of doubles. -/
theorem Value.coerce_normalize {T : Typing} {t : TypeName} {v : Value Float}
    (h : v.HasType T t) : ∃ w, v.normalize.coerce t = .ok w := by
  have htruth : ∀ x : Float, x = Scalar.zero ∨ x = Scalar.one →
      (Value.real x).normalize = .int 0 ∨ (Value.real x).normalize = .int 1 := by
    have hzero : Scalar.toInt? (Scalar.zero : Float) = some 0 := by decide +kernel
    have hone : Scalar.toInt? (Scalar.one : Float) = some 1 := by decide +kernel
    rintro x (rfl | rfl)
    · exact .inl (by simp only [normalize, hzero])
    · exact .inr (by simp only [normalize, hone])
  cases v with
  | int i | str s => cases t <;> simp [HasType] at h; exact ⟨_, rfl⟩
  | record s vs =>
    cases t <;> simp [HasType] at h
    exact ⟨_, if_pos h.1⟩
  | real x =>
    cases t with
    | float =>
      simp only [normalize]
      cases hx : Scalar.toInt? x with
      | none => exact ⟨_, rfl⟩
      | some i =>
        simp only [coerce, scalarOfInt, ofInt?_of_toInt? hx]
        exact ⟨_, rfl⟩
    | bool | boolean =>
      obtain hx | hx := htruth x h <;> rw [hx]
      exacts [⟨_, rfl⟩, ⟨_, rfl⟩]
    | _ => simp [HasType] at h
  | _ => cases t <;> simp [HasType] at h

/-- Over every history of declarations, data and reads, a store holds values of the declared types:
the values of parameters are of their types, and their indices have a normal element for each
dimension; a parameter of records holds records of the name of its type; and the elements of a set
are distinct, normal and fit for the type of the set. If the records that are handed over are
instances of declared types, records are held to these types with all their fields. -/
theorem history_well_typed {strict : Prop} {s : Store Float} (h : s.History strict) :
    (∀ {symbol p}, s.registry.params.find? symbol = some p →
      (∀ v, p.value = some v → v.HasType (s.registry.typing strict) p.type) ∧
      (∀ e ∈ p.values.toList, e.1.length = p.dim ∧ (∀ k ∈ e.1, k.IsNormal) ∧
        e.2.HasType (s.registry.typing strict) p.type) ∧
      ∀ σ, p.schema = some σ →
        (∀ v, p.value = some v → v.HasType (s.registry.typing strict) (.record σ.symbol)) ∧
        (∀ e ∈ p.values.toList, e.2.HasType (s.registry.typing strict) (.record σ.symbol)) ∧
        (strict → s.registry.schemas.find? σ.symbol = some σ)) ∧
    ∀ {symbol d}, s.registry.primitiveSets.find? symbol = some d →
      (d.elements.Pairwise fun v w => (v == w) = false) ∧
      ∀ v ∈ d.elements, v.IsNormal ∧ ∃ w, v.coerce d.type = .ok w := by
  have htyped := h.isWellTyped
  refine ⟨fun hp => ?_, fun hd => ?_⟩
  · have hp := htyped.params hp
    refine ⟨fun v hv => (hp.value v hv).hasType, fun e he => ?_, fun σ hσ => ?_⟩
    · obtain ⟨hlength, hnormal, hfits⟩ := hp.values e he
      exact ⟨hlength, hnormal, hfits.hasType⟩
    · exact ⟨fun v hv => (hp.value v hv).record σ hσ,
        fun e he => (hp.values e he).2.2.record σ hσ, (hp.schema σ hσ).1⟩
  · obtain ⟨hdistinct, helements⟩ := htyped.primitiveSets hd
    refine ⟨hdistinct, fun v hv => ?_⟩
    obtain ⟨w, hw, rfl⟩ := helements v hv
    exact ⟨w.isNormal_normalize, Value.coerce_normalize hw⟩

/-- A set of numbers with an element given twice, a record, flags for the elements, two of the
flags, and a third that is refused. -/
def flagged : Store Float :=
  let start := ((parseStatement false "{float} A = {1.0, 2.5, 2, 1};").start {}).2
  let typed := ((parseStatement false "tuple P { int x; float y; }").start start).2
  let placed := ((parseStatement false "P p = <2.0, 1>;").start typed).2
  let indexed := ((parseStatement false "bool b[A] = ...;").start placed).2
  let given := ((assignParameters "b" (.map [.int 1, .real 2.5] [.bool true, .int 0])).start
    indexed).2
  ((assignParameter "b" (some [.int 2]) (.str "maybe")).start given).2

theorem flagged_history : flagged.History True := by
  have hflags : ∀ T, (Value.map [.int 1, .real 2.5] [.bool true, .int 0] :
      Value Float).IsTyped T := by
    intro T
    simp only [Value.IsTyped, Value.AreTyped, and_self]
  have hword : ∀ T, (Value.str "maybe" : Value Float).IsTyped T := by
    intro T
    simp only [Value.IsTyped]
  refine .operation (.operation ?_ (.assignedParameters _ fun _ => hflags _))
    (.assignedParameter _ _ fun _ => hword _)
  exact .operation (.operation (.operation (.operation .empty (.statement _ _)) (.statement _ _))
    (.statement _ _)) (.statement _ _)

theorem flagged_evaluated :
    (flagged.registry.params.find? "b").any (fun p => p.values.toList.length == 2) = true ∧
    (flagged.registry.params.find? "p").any (fun p => p.value.isSome) = true ∧
    (flagged.registry.primitiveSets.find? "A").any (fun d => d.elements.length == 3) = true := by
  decide +kernel

theorem history_well_typed_flagged :
    flagged.History True ∧
    (∃ p, flagged.registry.params.find? "b" = some p ∧ p.values.toList.length = 2 ∧
      ∀ e ∈ p.values.toList, e.1.length = p.dim ∧ (∀ k ∈ e.1, k.IsNormal) ∧
        e.2.HasType (flagged.registry.typing True) p.type) ∧
    (∃ p v, flagged.registry.params.find? "p" = some p ∧ p.value = some v ∧
      v.HasType (flagged.registry.typing True) p.type) ∧
    ∃ d, flagged.registry.primitiveSets.find? "A" = some d ∧ d.elements.length = 3 ∧
      (d.elements.Pairwise fun v w => (v == w) = false) ∧
      ∀ v ∈ d.elements, v.IsNormal ∧ ∃ w, v.coerce d.type = .ok w := by
  obtain ⟨hparams, hsets⟩ := history_well_typed flagged_history
  obtain ⟨hflags, hplace, helements⟩ := flagged_evaluated
  simp only [Option.any_eq_true, beq_iff_eq, Option.isSome_iff_exists] at hflags hplace helements
  obtain ⟨b, hb, hcount⟩ := hflags
  obtain ⟨p, hp, v, hv⟩ := hplace
  obtain ⟨d, hd, hcount'⟩ := helements
  exact ⟨flagged_history, ⟨b, hb, hcount, (hparams hb).2.1⟩, ⟨p, v, hp, hv, (hparams hp).1 v hv⟩,
    d, hd, hcount', hsets hd⟩

/-! ## Types of one name -/

/-- The names of the fields of a record. -/
def Value.fieldNames : Value K → List String
  | .record s _ => s.fields.map (·.1)
  | _ => []

/-- A parameter for records of a declared type, and a record whose type has the same name and
another field assigned to it. -/
def misplaced : Store Float :=
  let typed := ((parseStatement false "tuple P { int x; }").start {}).2
  let given := ((parseStatement false "P p = ...;").start typed).2
  ((assignParameter "p" none (.record ⟨"P", [("name", .string)], ["name"]⟩ [.str "abc"])).start
    given).2

/-- A record of a foreign type is held if the type is called like the declared one. -/
theorem foreign_record_held : misplaced.History False ∧
    ∃ p v, misplaced.registry.params.find? "p" = some p ∧ p.value = some v ∧
      ¬ v.HasType (misplaced.registry.typing True) p.type := by
  have hfound : (misplaced.registry.params.find? "p").any (fun p =>
        p.type == .record "P" && p.value.any (·.fieldNames == ["name"])) = true ∧
      (misplaced.registry.schemas.find? "P").all (·.fields.map (·.1) == ["x"]) = true := by
    decide +kernel
  obtain ⟨hparam, hdeclared⟩ := hfound
  simp only [Option.any_eq_true, Bool.and_eq_true, beq_iff_eq] at hparam
  obtain ⟨p, hp, htype, v, hv, hnames⟩ := hparam
  refine ⟨?_, p, v, hp, hv, fun h => ?_⟩
  · exact .operation (.operation (.operation .empty (.statement _ _)) (.statement _ _))
      (.assignedParameter _ _ False.elim)
  · rw [htype] at h
    cases v with
    | record s vs =>
      simp only [Value.HasType] at h
      obtain ⟨hs, -⟩ := h.2 trivial
      have hnames' : s.fields.map (·.1) = ["name"] := hnames
      simp [hs, hnames'] at hdeclared
    | _ => simp [Value.HasType] at h

/-- The field of a record that has a scalar for its only value. -/
def Value.scalarField? : Value K → Option (String × TypeName)
  | .record s [.real _] => s.fields.head?
  | _ => none

/-- A record type that is called like the type of truth values, a parameter with a field of it, and
a number assigned to the field. -/
def misnamed : Store Float :=
  let named := ((parseStatement false "tuple boolean { int x; }").start {}).2
  let typed := ((parseStatement false "tuple P { boolean b; }").start named).2
  let given := ((parseStatement false "P p = ...;").start typed).2
  ((assignParameter "p" none (.seq [.int 1])).start given).2

/-- A field of a record type holds a number if the type is called like the type of truth values. -/
theorem scalar_field_held : misnamed.History True ∧
    (∃ s, misnamed.registry.schemas.find? "boolean" = some s) ∧
    ∃ p v, misnamed.registry.params.find? "p" = some p ∧ p.value = some v ∧
      v.scalarField? = some ("b", .ofName "boolean") := by
  have hfound : (misnamed.registry.schemas.find? "boolean").isSome = true ∧
      (misnamed.registry.params.find? "p").any (fun p =>
        p.value.any (·.scalarField? == some ("b", .ofName "boolean"))) = true := by
    decide +kernel
  simp only [Option.any_eq_true, beq_iff_eq, Option.isSome_iff_exists] at hfound
  obtain ⟨hnamed, p, hp, v, hv, hfield⟩ := hfound
  have hnumber : ∀ T, (Value.seq [.int 1] : Value Float).IsTyped T := by
    intro T
    simp only [Value.IsTyped, Value.AreTyped, and_self]
  refine ⟨?_, hnamed, p, v, hp, hv, hfield⟩
  exact .operation (.operation (.operation (.operation .empty (.statement _ _)) (.statement _ _))
    (.statement _ _)) (.assignedParameter _ _ fun _ => hnumber _)

/-- Types are told apart by their names alone. So a parameter holds a record of a foreign type that
is called like its own, and a field of a record type holds a number. -/
theorem namesakes_held :
    (misplaced.History False ∧
      ∃ p v, misplaced.registry.params.find? "p" = some p ∧ p.value = some v ∧
        ¬ v.HasType (misplaced.registry.typing True) p.type) ∧
    misnamed.History True ∧
      (∃ s, misnamed.registry.schemas.find? "boolean" = some s) ∧
      ∃ p v, misnamed.registry.params.find? "p" = some p ∧ p.value = some v ∧
        v.scalarField? = some ("b", .ofName "boolean") :=
  ⟨foreign_record_held, scalar_field_held⟩

end LinearModel
