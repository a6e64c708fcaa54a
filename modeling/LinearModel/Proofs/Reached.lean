import LinearModel.Proofs.Declaration
import LinearModel.Data

/-!
# Registries that are reached

A registry is filled by reading statements and by assigning data. In between, every entry stands
under its own symbol, a derived parameter that has not been evaluated holds no values, and the
bodies of decision expressions refer to parameters by proper indices.
-/
namespace LinearModel

open Run Registry

variable {K : Type} {α : Type}

/-! ## Sound registries -/

/-- A tidy registry whose decision expressions refer to parameters by proper indices. -/
structure Registry.IsSound (r : Registry K) : Prop extends r.Tidy where
  wellIndexed : r.WellIndexed

namespace Registry

variable {r t : Registry K}

theorem IsSound.kept (hr : r.IsSound) (h : r.KeptIn t) : t.IsSound where
  toTidy := hr.toTidy.kept h
  wellIndexed := by
    intro s d hd
    rw [h.dexprs] at hd
    exact hr.wellIndexed hd

theorem isSound_empty : ({} : Registry K).IsSound where
  params h := by cases h
  boundRanges h := by cases h
  computedSets h := by cases h
  unsettled h := by cases h
  wellIndexed h := by cases h

theorem Keyed.putDomain (hr : r.Keyed) (d : Domain K) : (r.putDomain d).Keyed := by
  cases d with
  | computed d => exact { hr with computedSets := Table.forall_insert hr.computedSets rfl }
  | range d => exact { hr with boundRanges := Table.forall_insert hr.boundRanges rfl }
  | tuples d | primitive d | index d => exact { hr with }

theorem Keyed.put (hr : r.Keyed) (e : Entity K) : (r.put e).Keyed := by
  cases e with
  | parameter p => exact hr.putParameter p
  | domain d => exact hr.putDomain d
  | _ => exact { hr with }

/-- Declaring a fresh entity keeps a registry sound. -/
theorem IsSound.put (hr : r.IsSound) {e : Entity K} (he : e.IsFresh) : (r.put e).IsSound := by
  cases e with
  | schema s | decisionVariable v => exact { hr with }
  | domain d =>
    refine { hr.toKeyed.putDomain d with unsettled := ?_, wellIndexed := ?_ }
    · cases d <;> exact hr.unsettled
    · cases d <;> exact hr.wellIndexed
  | parameter p =>
    exact { hr.toKeyed.putParameter p with
      unsettled :=
        Table.forall_insert (P := fun _ p => (Entity.parameter p).IsFresh) hr.unsettled he
      wellIndexed := hr.wellIndexed }
  | dexpr d =>
    exact { hr.toTidy with
      wellIndexed := Table.forall_insert (P := fun _ d => (Entity.dexpr d).IsFresh)
        hr.wellIndexed he }

theorem IsSound.declare (hr : r.IsSound) {e : Entity K} (he : e.IsFresh)
    (h : r.declare e = .ok t) : t.IsSound := by
  unfold Registry.declare at h
  split at h
  · cases h
  · cases h
    exact hr.put he

/-- Forgetting what was computed leaves a sound registry. -/
theorem isSound_invalidate (hr : r.Keyed) (hd : r.WellIndexed) : r.invalidate.IsSound where
  toKeyed := hr.invalidate
  unsettled {s q} hq hopen := by
    simp only [invalidate, Table.find?_map, Option.map_eq_some_iff] at hq
    obtain ⟨p, hp, rfl⟩ := hq
    split at hopen
    · rename_i hsome
      simp only [hsome, ↓reduceIte]
      exact ⟨rfl, rfl⟩
    · rename_i hnone
      simp [Parameter.isSettled, Option.not_isSome_iff_eq_none.1 hnone] at hopen
  wellIndexed := hd

end Registry

/-! ## Data -/

/-- What assigning data keeps until what was computed is forgotten. -/
abbrev Registry.IsConsistent (r : Registry K) : Prop := r.Keyed ∧ r.WellIndexed

theorem Registry.IsSound.isConsistent {r : Registry K} (h : r.IsSound) : r.IsConsistent :=
  ⟨h.toKeyed, h.wellIndexed⟩

/-- What assigning data does to a registry: one invariant is kept while values are entered, and
another holds once what was computed is forgotten. -/
structure Registry.Renewed [Scalar K] (Inv Inv' : Registry K → Prop) : Prop where
  stored : ∀ {r s p q}, r.params.find? s = some p → p.SameDeclaration q → Inv r →
    Inv (r.putParameter q)
  elements : ∀ {r} {d d' : PrimitiveSet K} {vs}, d.withElements vs = .ok d' → Inv r →
    Inv (r.putDomain (.primitive d'))
  records : ∀ {r} {d : TupleSet K} {vs records}, d.recordsOf vs = .ok records → Inv r →
    Inv (r.putDomain (.tuples { d with records }))
  forgotten : ∀ {r}, Inv r → Inv' r.invalidate

theorem Registry.renewed_isSound [Scalar K] : Renewed (K := K) IsConsistent IsSound where
  stored _ _ hr := ⟨hr.1.putParameter _, hr.2⟩
  elements _ hr := ⟨hr.1.putDomain _, hr.2⟩
  records _ hr := ⟨hr.1.putDomain _, hr.2⟩
  forgotten hr := isSound_invalidate hr.1 hr.2

theorem steady_itemsOf (v : Value K) : (itemsOf v).Steady := by
  unfold itemsOf
  split
  exacts [steady_pure _, steady_fail _]

section Data

variable [Scalar K] {Inv Inv' : Registry K → Prop}

theorem assignParameter_eq (symbol : String) (place : Option (Index K)) (v : Value K) :
    assignParameter symbol place v = (do
      writing symbol place v
      invalidate) := by
  cases place <;> rfl

namespace Registry.Renewed

variable (h : Renewed Inv Inv')

include h

theorem writing (symbol : String) (place : Option (Index K)) (v : Value K) :
    Run.Preserves Inv (writing symbol place v) := by
  intro s u s' hs hr
  obtain ⟨p, q, hp, hq, rfl⟩ := (returns_writing place).1 hr
  exact h.stored hp (Parameter.write_ok hq).1 hs

theorem invalidate : (LinearModel.invalidate : Run K Unit).Leads Inv Inv' fun _ => True :=
  leads_modifyRegistry fun _ => h.forgotten

theorem assignParameter (symbol : String) (idx : Option (Index K)) (v : Value K) :
    (assignParameter symbol idx v).Leads Inv Inv' fun _ => True := by
  rw [assignParameter_eq]
  exact (h.writing symbol idx v).leads.bind fun _ _ => h.invalidate

theorem assignParameters (symbol : String) (v : Value K) :
    (assignParameters symbol v).Leads Inv Inv' fun _ => True := by
  have hentries : ∀ es : List (Value K × Value K), Run.Preserves Inv
      (es.forM fun e => LinearModel.storeAt symbol (Parameter.indexOf e.1) e.2) := by
    intro es
    induction es with
    | nil => exact Steady.preserves (steady_pure _) Inv
    | cons e es ih => exact Preserves.bind (h.writing symbol (some _) _) fun _ => ih
  refine leads_after steady_registry fun r => ?_
  refine leads_if (leads_after (steady_fail _) fun _ => ?_) ?_
  all_goals
    cases v with
    | map keys values => exact (hentries _).leads.bind fun _ _ => h.invalidate
    | _ => exact leads_fail

theorem assignElements (symbol : String) (v : Value K) :
    (assignElements symbol v).Leads Inv Inv' fun _ => True := by
  refine leads_after steady_registry fun r => ?_
  split
  · rename_i d _
    have hrest : ∀ _ : Unit, (do
        let d ← Run.ofExcept (d.withElements (← itemsOf v))
        Run.modifyRegistry (·.putDomain (.primitive d))
        LinearModel.invalidate : Run K Unit).Leads Inv Inv' fun _ => True := by
      intro _
      refine leads_after (steady_itemsOf v) fun vs =>
        (leads_ofExcept fun _ => id).bind fun d hd => ?_
      exact (leads_modifyRegistry fun _ => h.elements hd).bind fun _ _ => h.invalidate
    exact leads_if (leads_after (steady_fail _) hrest) (hrest ())
  · exact leads_fail

theorem assignRecords (symbol : String) (v : Value K) :
    (assignRecords symbol v).Leads Inv Inv' fun _ => True := by
  refine leads_after steady_registry fun r => ?_
  split
  · exact leads_fail
  · refine leads_after (steady_itemsOf v) fun vs => ?_
    refine (leads_ofExcept fun _ => id).bind fun records hrecords =>
      (leads_modifyRegistry fun _ => h.records hrecords).bind fun _ _ => ?_
    split
    exacts [leads_fail, h.invalidate]

theorem assign (symbol : String) (v : Value K) :
    (assign symbol v).Leads Inv Inv' fun _ => True := by
  refine leads_after steady_registry fun r => ?_
  refine leads_if (h.assignRecords symbol v) (leads_if (h.assignElements symbol v) ?_)
  split
  · exact leads_if (h.assignParameters symbol v) (h.assignParameter symbol none v)
  · exact leads_fail

end Registry.Renewed

/-- The operations that assign data. -/
inductive IsDataOperation : Run K Unit → Prop
  | parameter (symbol : String) (idx : Option (Index K)) (v : Value K) :
      IsDataOperation (assignParameter symbol idx v)
  | parameters (symbol : String) (v : Value K) : IsDataOperation (assignParameters symbol v)
  | elements (symbol : String) (v : Value K) : IsDataOperation (assignElements symbol v)
  | records (symbol : String) (v : Value K) : IsDataOperation (assignRecords symbol v)
  | any (symbol : String) (v : Value K) : IsDataOperation (assign symbol v)

/-- Assigning data leads from one invariant to the other. -/
theorem IsDataOperation.leads (h : Renewed Inv Inv') {x : Run K Unit} :
    IsDataOperation x → x.Leads Inv Inv' fun _ => True
  | .parameter symbol idx v => h.assignParameter symbol idx v
  | .parameters symbol v => h.assignParameters symbol v
  | .elements symbol v => h.assignElements symbol v
  | .records symbol v => h.assignRecords symbol v
  | .any symbol v => h.assign symbol v

end Data

/-! ## Statements -/

/-- A statement whose expressions refer to parameters by proper indices. -/
def Statement.WellIndexed : Statement K → Prop
  | .rule r => r.WellIndexed
  | .goal g => g.body.Indexed
  | .declaration _ _ | .ignored _ => True

theorem Statement.Has.wellIndexed {stmt : Statement K} (h : stmt.Has Expr.Indexed) :
    stmt.WellIndexed := by
  cases stmt with
  | rule r => exact h
  | goal g => exact h
  | _ => trivial

variable [Scalar K] [ReflBEq (Value K)]

theorem evaluateValue_ensures (e : Expr K) (env : Env K) :
    (e.evaluateValue env).Ensures fun _ _ => True := by
  simp only [Expr.evaluateValue, Run.lookup, bind_assoc, pure_bind]
  refine ensures_registry fun r => ?_
  exact EnsuresFrom.mono (Simulation.exprValue (lookup_keeps _) e (.refl env))
    fun _ _ _ _ _ => trivial

theorem resolveDomain_ensures (symbol : String) (env : Env K) (given : Option (Value K)) :
    (resolveDomain symbol env given).Ensures fun _ _ => True := by
  simp only [resolveDomain, Run.lookup, bind_assoc, pure_bind]
  refine ensures_registry fun r => ?_
  exact EnsuresFrom.mono ((lookup_keeps _).elements symbol given (.refl env))
    fun _ _ _ _ _ => trivial

theorem Registry.isSound_keptByEvaluation : KeptByEvaluation (IsSound (K := K)) where
  value e _ _ _ hs h := hs.kept (evaluateValue_ensures e _ hs.toKeyed h).1
  elements symbol _ _ _ hs h := hs.kept (resolveDomain_ensures symbol _ _ hs.toKeyed h).1

/-- Reading a statement keeps a registry sound, and gives a statement that is well indexed. -/
theorem parseStatement_settles {textual : Bool} {text : String} {s s' : Store K}
    {stmt : Statement K} (hs : s.registry.IsSound)
    (h : (parseStatement textual text).Returns s stmt s') :
    s'.registry.IsSound ∧ stmt.WellIndexed := by
  have hInv : ReadsTo (K := K) IsSound IsSound Expr.Indexed :=
    ⟨isSound_keptByEvaluation, fun ht => ht, fun ht hnew => ht.declare hnew.isFresh⟩
  obtain ⟨hs', hstmt⟩ := parseStatement_leads hInv (forms_indexed _) rfl hs h
  exact ⟨hs', hstmt.wellIndexed⟩

/-! ## Registries that are reached -/

/-- The registries that declarations, data and evaluations lead to. -/
inductive Registry.Reached : Registry K → Prop
  | empty : Reached {}
  | declared {r t : Registry K} {e : Entity K} (hr : Reached r) (he : e.IsFresh)
      (h : r.declare e = .ok t) : Reached t
  | read {s s' : Store K} {textual : Bool} {text : String} {stmt : Statement K}
      (hs : Reached s.registry) (h : (parseStatement textual text).Returns s stmt s') :
      Reached s'.registry
  | data {s s' : Store K} {x : Run K Unit} (hs : Reached s.registry) (hx : IsDataOperation x)
      (h : x.Returns s () s') : Reached s'.registry
  | evaluated {s s' : Store K} {e : Expr K} {env : Env K} {v : Value K} (hs : Reached s.registry)
      (h : (e.evaluateValue env).Returns s v s') : Reached s'.registry

/-- Every registry that is reached is sound. -/
theorem Registry.Reached.isSound {r : Registry K} (h : r.Reached) : r.IsSound := by
  induction h with
  | empty => exact isSound_empty
  | declared _ he h ih => exact ih.declare he h
  | read _ h ih => exact (parseStatement_settles ih h).1
  | data _ hx h ih => exact (hx.leads renewed_isSound ih.isConsistent h).1
  | evaluated _ h ih => exact ih.kept (evaluateValue_ensures _ _ ih.toKeyed h).1

end LinearModel
