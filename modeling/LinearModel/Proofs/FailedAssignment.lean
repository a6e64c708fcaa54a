import LinearModel.Proofs.Reached
import LinearModel.Proofs.Exact

/-!
# Failed assignments

An assignment that fails finds out before it stores anything, and then leaves the store as it was.
There are two exceptions. The values of an indexed parameter are stored one by one, so that those
before the first value that does not fit stay. And records are looked at after they have replaced
the old ones, so that records of a foreign type stay.
-/
namespace LinearModel

open Run

variable {K : Type} {α β : Type} {s s' : Store K} {x : Run K α} {f : Failure K} {v : Value K}
  {symbol : String}

/-! ## Computations that check before they store -/

namespace Run

/-- A computation that leaves the store as it was if it fails. -/
def ChecksFirst (x : Run K α) : Prop :=
  ∀ ⦃s : Store K⦄ ⦃f : Failure K⦄ ⦃s' : Store K⦄, x.Fails s f s' → s' = s

/-- A computation that leaves the store as it was. -/
def OnlyReads (x : Run K α) : Prop := ∀ s, (x.start s).2 = s

theorem OnlyReads.checksFirst (hx : x.OnlyReads) : x.ChecksFirst := by
  intro s f s' h
  have hs := hx s
  rwa [h] at hs

/-- What only reads may come before a computation that checks first. -/
theorem ChecksFirst.after {g : α → Run K β} (hx : x.OnlyReads)
    (hg : ∀ a, (g a).ChecksFirst) : (x >>= g).ChecksFirst := by
  intro s f s' h
  obtain h | ⟨a, s₁, h₁, h₂⟩ := fails_bind.1 h
  · exact hx.checksFirst h
  · have hs := hx s
    rw [h₁] at hs
    subst hs
    exact hg a h₂

/-- What never fails may come after a computation that checks first. -/
theorem ChecksFirst.before {g : α → Run K β} (hx : x.ChecksFirst)
    (hg : ∀ a s f s', ¬ (g a).Fails s f s') : (x >>= g).ChecksFirst := by
  intro s f s' h
  obtain h | ⟨a, s₁, _, h₂⟩ := fails_bind.1 h
  · exact hx h
  · exact absurd h₂ (hg a s₁ f s')

theorem onlyReads_pure (a : α) : (pure a : Run K α).OnlyReads := fun _ => rfl

theorem onlyReads_fail (c : Cause K) : (fail c : Run K α).OnlyReads := fun _ => rfl

theorem onlyReads_registry : (registry : Run K _).OnlyReads := fun _ => rfl

theorem onlyReads_ofExcept (x : Except (Cause K) α) : (ofExcept x).OnlyReads := by
  cases x with
  | ok a => exact onlyReads_pure a
  | error c => exact onlyReads_fail c

theorem checksFirst_modifyRegistry (g : Registry K → Registry K) : (modifyRegistry g).ChecksFirst :=
  fun _ _ _ h => absurd h not_fails_modifyRegistry

theorem checksFirst_fail (c : Cause K) : (fail c : Run K α).ChecksFirst :=
  (onlyReads_fail c).checksFirst

end Run

theorem not_fails_invalidate : ¬ (invalidate : Run K Unit).Fails s f s' :=
  not_fails_modifyRegistry

theorem onlyReads_itemsOf (v : Value K) : (itemsOf v).OnlyReads := by
  unfold itemsOf
  split
  exacts [onlyReads_pure _, onlyReads_fail _]

theorem returns_itemsOf {vs : List (Value K)} :
    (itemsOf v).Returns s vs s' ↔ v.items? = some vs ∧ s = s' := by
  unfold itemsOf
  split <;> simp [*]

variable [Scalar K]

/-! ## One value, and the elements of a set -/

theorem writing_checksFirst (symbol : String) (place : Option (Index K)) (v : Value K) :
    (writing symbol place v).ChecksFirst := by
  apply ChecksFirst.after onlyReads_registry
  intro r
  split
  · exact checksFirst_fail _
  · apply ChecksFirst.after (onlyReads_ofExcept _)
    intro p
    exact checksFirst_modifyRegistry _

theorem assignParameter_checksFirst (symbol : String) (idx : Option (Index K)) (v : Value K) :
    (assignParameter symbol idx v).ChecksFirst := by
  rw [assignParameter_eq]
  exact (writing_checksFirst symbol idx v).before fun _ _ _ _ => not_fails_invalidate

theorem assignElements_checksFirst (symbol : String) (v : Value K) :
    (assignElements symbol v).ChecksFirst := by
  apply ChecksFirst.after onlyReads_registry
  intro r
  split
  · rename_i d _
    have hrest : ∀ _ : Unit, (do
        let d ← Run.ofExcept (d.withElements (← itemsOf v))
        Run.modifyRegistry (·.putDomain (.primitive d))
        invalidate : Run K Unit).ChecksFirst := by
      intro _
      apply ChecksFirst.after (onlyReads_itemsOf v)
      intro vs
      apply ChecksFirst.after (onlyReads_ofExcept _)
      intro d
      exact (checksFirst_modifyRegistry _).before fun _ _ _ _ => not_fails_invalidate
    split
    · exact ChecksFirst.after (onlyReads_fail _) hrest
    · exact hrest ()
  · exact checksFirst_fail _

/-! ## Several values, and records -/

/-- Store values of an indexed parameter one by one. -/
def storeEntries (symbol : String) (entries : List (Value K × Value K)) : Run K Unit :=
  entries.forM fun e => storeAt symbol (Parameter.indexOf e.1) e.2

/-- Where storing values one by one fails, there is a first value that does not fit, and those
before it are stored. -/
theorem storeEntries_fails {entries : List (Value K × Value K)}
    (h : (storeEntries symbol entries).Fails s f s') :
    ∃ stored bad rest, entries = stored ++ bad :: rest ∧
      (storeEntries symbol stored).Returns s () s' ∧
      (storeAt symbol (Parameter.indexOf bad.1) bad.2).Fails s' f s' := by
  induction entries generalizing s with
  | nil => exact absurd h not_fails_pure
  | cons e entries ih =>
    obtain h | ⟨_, s₁, h₁, h₂⟩ := fails_bind.1 h
    · obtain rfl := writing_checksFirst symbol (some _) _ h
      exact ⟨[], e, entries, rfl, returns_pure.2 ⟨rfl, rfl⟩, h⟩
    · obtain ⟨stored, bad, rest, rfl, hstored, hbad⟩ := ih h₂
      exact ⟨e :: stored, bad, rest, rfl, returns_bind.2 ⟨_, s₁, h₁, hstored⟩, hbad⟩

/-- A store in which values of an indexed parameter are stored up to one that does not fit. -/
def StoredUpTo (symbol : String) (v : Value K) (s : Store K) (f : Failure K) (s' : Store K) :
    Prop :=
  ∃ keys values stored bad rest, v = .map keys values ∧ keys.zip values = stored ++ bad :: rest ∧
    stored ≠ [] ∧ (storeEntries symbol stored).Returns s () s' ∧
    (storeAt symbol (Parameter.indexOf bad.1) bad.2).Fails s' f s'

/-- A store in which the records of a set are replaced by given ones, one of them of a foreign
type. -/
def ReplacedByForeign (symbol : String) (v : Value K) (s s' : Store K) : Prop :=
  ∃ d vs records given, s.registry.tupleSets.find? symbol = some d ∧ v.items? = some vs ∧
    d.recordsOf vs = .ok records ∧ { d with records }.foreign? = some given ∧
    s' = { s with registry := s.registry.putDomain (.tuples { d with records }) }

theorem assignParameters_fails
    (h : (assignParameters symbol v).Fails s f s') : s' = s ∨ StoredUpTo symbol v s f s' := by
  simp only [assignParameters, fails_bind, not_fails_registry, returns_registry, false_or] at h
  obtain ⟨r, _, ⟨rfl, rfl⟩, h⟩ := h
  split at h
  · obtain h | ⟨_, _, h, _⟩ := fails_bind.1 h
    · exact .inl (fails_fail.1 h).2.symm
    · exact absurd h not_returns_fail
  · cases v with
    | map keys values =>
      obtain h | ⟨_, _, _, h⟩ := fails_bind.1 h
      · obtain ⟨stored, bad, rest, hsplit, hstored, hbad⟩ := storeEntries_fails h
        by_cases hnil : stored = []
        · subst hnil
          exact .inl (returns_pure.1 hstored).2.symm
        · exact .inr ⟨keys, values, stored, bad, rest, rfl, hsplit, hnil, hstored, hbad⟩
      · exact absurd h not_fails_invalidate
    | _ => exact .inl (fails_fail.1 h).2.symm

theorem assignRecords_fails
    (h : (assignRecords symbol v).Fails s f s') : s' = s ∨ ReplacedByForeign symbol v s s' := by
  simp only [assignRecords, fails_bind, not_fails_registry, returns_registry, false_or] at h
  obtain ⟨r, _, ⟨rfl, rfl⟩, h⟩ := h
  split at h
  · exact .inl (fails_fail.1 h).2.symm
  rename_i d hd
  obtain h | ⟨vs, _, hvs, h⟩ := fails_bind.1 h
  · exact .inl ((onlyReads_itemsOf v).checksFirst h)
  obtain ⟨hitems, rfl⟩ := returns_itemsOf.1 hvs
  obtain h | ⟨records, _, hread, h⟩ := fails_bind.1 h
  · exact .inl ((onlyReads_ofExcept _).checksFirst h)
  obtain ⟨hrecords, rfl⟩ := returns_ofExcept.1 hread
  obtain h | ⟨_, _, hput, h⟩ := fails_bind.1 h
  · exact absurd h not_fails_modifyRegistry
  obtain rfl := returns_modifyRegistry.1 hput
  -- the records have been replaced by now
  split at h
  · rename_i given hgiven
    obtain ⟨_, rfl⟩ := fails_fail.1 h
    exact .inr ⟨d, vs, records, given, hd, hitems, hrecords, hgiven, rfl⟩
  · exact absurd h not_fails_invalidate

/-- What a symbol names decides which operation assigns to it. -/
theorem start_assign (symbol : String) (v : Value K) (s : Store K) : (assign symbol v).start s =
      (if s.registry.tupleSets.contains symbol then assignRecords symbol v
        else if (s.registry.domain? symbol).isSome then assignElements symbol v
        else match s.registry.params.find? symbol with
          | some p => if p.isIndexed then assignParameters symbol v
              else assignParameter symbol none v
          | none => Run.fail (.symbolNotDeclared symbol)).start s := rfl

theorem assign_cases (symbol : String) (v : Value K) (s : Store K) :
    ∃ x : Run K Unit, (assign symbol v).start s = x.start s ∧
      (x = assignRecords symbol v ∨ x = assignParameters symbol v ∨ x.ChecksFirst) := by
  refine ⟨_, start_assign symbol v s, ?_⟩
  split
  · exact .inl rfl
  split
  · exact .inr (.inr (assignElements_checksFirst symbol v))
  split
  · split
    · exact .inr (.inl rfl)
    · exact .inr (.inr (assignParameter_checksFirst symbol none v))
  · exact .inr (.inr (checksFirst_fail _))

/-- A failed assignment of data leaves the store as it was, so that whatever is computed later is
what it would have been, unless it stored some of the values of an indexed parameter before one
that does not fit, or replaced the records of a set by records one of which is of a foreign type. -/
theorem failed_assignment_leaves {x : Run K Unit} {s s' : Store K} {f : Failure K}
    (hx : IsDataOperation x) (h : x.Fails s f s') :
    s' = s ∨ ∃ symbol v,
      (x.start s = (assignParameters symbol v).start s ∧ StoredUpTo symbol v s f s') ∨
      (x.start s = (assignRecords symbol v).start s ∧ ReplacedByForeign symbol v s s') := by
  cases hx with
  | parameter symbol idx v => exact .inl (assignParameter_checksFirst symbol idx v h)
  | elements symbol v => exact .inl (assignElements_checksFirst symbol v h)
  | parameters symbol v =>
    exact (assignParameters_fails h).imp_right fun hleft => ⟨symbol, v, .inl ⟨rfl, hleft⟩⟩
  | records symbol v =>
    exact (assignRecords_fails h).imp_right fun hleft => ⟨symbol, v, .inr ⟨rfl, hleft⟩⟩
  | any symbol v =>
    obtain ⟨x, hstart, hx⟩ := assign_cases symbol v s
    have hfails : x.Fails s f s' := hstart.symm.trans h
    obtain rfl | rfl | hx := hx
    · exact (assignRecords_fails hfails).imp_right fun hleft => ⟨symbol, v, .inr ⟨hstart, hleft⟩⟩
    · exact (assignParameters_fails hfails).imp_right fun hleft =>
        ⟨symbol, v, .inl ⟨hstart, hleft⟩⟩
    · exact .inl (hx hfails)

/-- A parameter with two values. -/
def givenPair : Run ℚ Unit := do
  let _ ← parseStatement false "range I = 1..2;"
  let _ ← parseStatement false "int p[I] = [1, 2];"

/-- A new value for the first index, and a text for the second. -/
def fiveAndText : Value ℚ := .map [.int 1, .int 2] [.int 5, .str "x"]

theorem failed_assignment_leaves_five :
    ∃ (s s' t t' : Store ℚ) (f : Failure ℚ), s.registry.Reached ∧
      (assign "p" fiveAndText).Fails s f s' ∧ (∃ symbol v, StoredUpTo symbol v s f s') ∧
      ((Expr.param "p" [.num 1]).evaluate Env.empty).Returns s 1 t ∧
      ((Expr.param "p" [.num 1]).evaluate Env.empty).Returns s' 5 t' := by
  have hgiven : (givenPair.start {}).1.toOption = some () := by decide +kernel
  obtain ⟨s, hs⟩ := returns_of_toOption hgiven
  have hstore : (givenPair.start {}).2 = s := congrArg Prod.snd hs
  have hfails : ((assign "p" fiveAndText).start s).1.toOption = none := by
    rw [← hstore]
    decide +kernel
  have hone : (((Expr.param "p" [.num 1]).evaluate Env.empty).start s).1.toOption = some 1 := by
    rw [← hstore]
    decide +kernel
  have hfive : (((Expr.param "p" [.num 1]).evaluate Env.empty).start
      ((assign "p" fiveAndText).start s).2).1.toOption = some 5 := by
    rw [← hstore]
    decide +kernel
  have hsets : s.registry.tupleSets.toList.length = 0 := by
    rw [← hstore]
    decide +kernel
  obtain ⟨f, s', hf⟩ := fails_of_toOption hfails
  obtain ⟨t, ht⟩ := returns_of_toOption hone
  rw [show ((assign "p" fiveAndText).start s).2 = s' from congrArg Prod.snd hf] at hfive
  obtain ⟨t', ht'⟩ := returns_of_toOption hfive
  simp only [givenPair, returns_bind] at hs
  obtain ⟨_, _, hI, _, _, hp, hs⟩ := hs
  obtain ⟨_, rfl⟩ := returns_pure.1 hs
  refine ⟨_, s', t, t', f, .read (.read .empty hI) hp, hf, ?_, ht, ht'⟩
  obtain rfl | ⟨symbol, v, ⟨_, hleft⟩ | ⟨_, d, _, _, _, hd, _⟩⟩ :=
    failed_assignment_leaves (.any "p" fiveAndText) hf
  · exact absurd (ht.unique ht').1 (by decide)
  · exact ⟨symbol, v, hleft⟩
  · simp [Table.find?, List.length_eq_zero_iff.1 hsets, Table.findIn] at hd

end LinearModel
