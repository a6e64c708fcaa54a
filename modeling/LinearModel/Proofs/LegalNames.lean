import LinearModel.Mps
import LinearModel.Proofs.Naming
import LinearModel.Proofs.Words
import Mathlib.Data.List.Nodup
import Mathlib.Data.List.TakeWhile

/-!
# Legal names

A name in an exchange file is made of letters, digits and underscores. A name that is in use already
gets a number at its end. The number can be read back from what follows the last underscore, so more
numbers than there are names in use give more names than there are in use, and one of them is free.
-/
namespace LinearModel.Mps

variable {used : List (List Char)} {name : List Char}

/-- A name that is legal in the format, but for its length. -/
structure IsLegal (name : List Char) : Prop where
  nonempty : name ≠ []
  legal : ∀ c ∈ name, isNameChar c = true

/-- A legal name can stand as a field. -/
theorem IsLegal.isWord (h : IsLegal name) : IsWord (String.ofList name) := by
  refine ⟨by simpa using h.nonempty, ?_⟩
  rw [String.toList_ofList]
  exact unbroken_of_forall (by simp [isNameChar]) h.legal

theorem isNameChar_of_isDigit {c : Char} (h : c.isDigit = true) : isNameChar c = true := by
  simp only [Char.isDigit, Bool.and_eq_true, decide_eq_true_eq] at h
  have hdigit : '0' ≤ c ∧ c ≤ '9' := h
  simp [isNameChar, hdigit.1, hdigit.2]

/-- A name is made legal. -/
theorem isLegal_legalName (name : List Char) : IsLegal (legalName name) := by
  simp only [legalName]
  split
  · exact ⟨by simp, by simp [isNameChar]⟩
  · rename_i cs hne
    refine ⟨?_, fun c hc => ?_⟩
    · rw [ne_eq, List.take_eq_nil_iff]
      exact not_or.2 ⟨by decide, hne⟩
    · have hmem : c ∈ name.map fun c => if isNameChar c then c else '_' := by
        refine List.Sublist.subset ?_ (List.mem_of_mem_take hc)
        refine (List.dropWhile_sublist _).reverse.trans ?_
        rw [List.reverse_reverse]
        exact List.dropWhile_sublist _
      obtain ⟨d, _, rfl⟩ := List.mem_map.1 hmem
      split
      · assumption
      · rfl

theorem IsLegal.numberedName {name : List Char} (h : IsLegal name) (n : Nat) :
    IsLegal (numberedName name n) := by
  refine ⟨by simp [Mps.numberedName], fun c hc => ?_⟩
  simp only [Mps.numberedName, natText, String.toList_ofList, List.mem_append, List.mem_cons] at hc
  obtain hc | rfl | hc := hc
  · exact h.legal c (List.mem_of_mem_take hc)
  · rfl
  · exact isNameChar_of_isDigit (Nat.isDigit_of_mem_toDigits (by decide) (by decide) hc)

/-- The number at the end of a name can be read back. -/
theorem numberedName_injective (name : List Char) {m n : Nat}
    (h : numberedName name m = numberedName name n) : m = n := by
  -- digits are what follows the last underscore
  have hdigits : ∀ k, ((numberedName name k).reverse.takeWhile (· != '_')).reverse =
      Nat.toDigits 10 k := by
    intro k
    have hk : ∀ c ∈ (Nat.toDigits 10 k).reverse, (c != '_') = true := fun c hc => by
      simpa using fun hunderscore : c = '_' =>
        Nat.underscore_not_in_toDigits (hunderscore ▸ List.mem_reverse.1 hc)
    simp only [numberedName, natText, String.toList_ofList, List.reverse_append, List.reverse_cons,
      List.append_assoc, List.takeWhile_append_of_pos hk]
    simp
  rw [← Nat.ofDigitChars_ten_toDigits (n := m), ← hdigits, h, hdigits,
    Nat.ofDigitChars_ten_toDigits]

theorem mem_used_of_freeNumbered {tries n : Nat} (h : freeNumbered used name n tries ∈ used) :
    ∀ k, k ≤ tries → numberedName name (n + k) ∈ used := by
  induction tries generalizing n with
  | zero =>
    intro k hk
    obtain rfl : k = 0 := by omega
    exact h
  | succ tries ih =>
    simp only [freeNumbered, List.contains_iff_mem] at h
    split at h
    · rename_i hused
      rintro (_ | k) hk
      · exact hused
      · have := ih h k (by omega)
        rwa [Nat.add_right_comm] at this
    · contradiction

theorem freeNumbered_eq (used : List (List Char)) (name : List Char) (n tries : Nat) :
    ∃ k ≤ n + tries, freeNumbered used name n tries = numberedName name k := by
  induction tries generalizing n with
  | zero => exact ⟨n, le_rfl, rfl⟩
  | succ tries ih =>
    simp only [freeNumbered]
    split
    · obtain ⟨k, hk, heq⟩ := ih (n + 1)
      exact ⟨k, by omega, heq⟩
    · exact ⟨n, by omega, rfl⟩

/-- A free name is found. -/
theorem freeName_not_mem (used : List (List Char)) (name : List Char) :
    freeName used name ∉ used := by
  simp only [freeName, List.contains_iff_mem]
  split
  · intro h
    have hall := mem_used_of_freeNumbered h
    have hsubset : (List.range (used.length + 1)).map (fun k => numberedName name (1 + k))
        ⊆ used := by
      intro x hx
      obtain ⟨k, hk, rfl⟩ := List.mem_map.1 hx
      exact hall k (by simpa [Nat.lt_succ_iff] using hk)
    have hnodup : ((List.range (used.length + 1)).map fun k => numberedName name (1 + k)).Nodup :=
      List.nodup_range.map fun a b hab => by
        have := numberedName_injective name hab
        omega
    have hlength := (List.subperm_of_subset hnodup hsubset).length_le
    simp at hlength
  · assumption

theorem IsLegal.freeName {name : List Char} (h : IsLegal name) (used : List (List Char)) :
    IsLegal (freeName used name) := by
  simp only [Mps.freeName]
  split
  · obtain ⟨k, _, hk⟩ := freeNumbered_eq used name 1 used.length
    exact hk ▸ h.numberedName k
  · exact h

theorem length_uniqueNames (used ns : List (List Char)) :
    (uniqueNames used ns).length = ns.length := by
  induction ns generalizing used with
  | nil => rfl
  | cons n ns ih => simp [uniqueNames, ih]

theorem isLegal_of_mem_uniqueNames {ns : List (List Char)} (h : name ∈ uniqueNames used ns) :
    IsLegal name := by
  induction ns generalizing used with
  | nil => simp [uniqueNames] at h
  | cons n ns ih =>
    simp only [uniqueNames, List.mem_cons] at h
    obtain rfl | h := h
    · exact (isLegal_legalName n).freeName used
    · exact ih h

theorem not_mem_used_of_mem_uniqueNames {ns : List (List Char)} (h : name ∈ uniqueNames used ns) :
    name ∉ used := by
  induction ns generalizing used with
  | nil => simp [uniqueNames] at h
  | cons n ns ih =>
    simp only [uniqueNames, List.mem_cons] at h
    obtain rfl | h := h
    · exact freeName_not_mem used _
    · exact fun hused => ih h (List.mem_cons_of_mem _ hused)

/-- The names that are made are pairwise different. -/
theorem nodup_uniqueNames (used ns : List (List Char)) : (uniqueNames used ns).Nodup := by
  induction ns generalizing used with
  | nil => simp [uniqueNames]
  | cons n ns ih =>
    refine List.nodup_cons.2 ⟨fun h => ?_, ih _⟩
    exact not_mem_used_of_mem_uniqueNames h List.mem_cons_self

end LinearModel.Mps
