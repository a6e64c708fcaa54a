
/-!
# Lines and fields

A text is read line by line, and a line field by field. Fields are separated by blanks, so a word,
which holds none, is read back as it was written, whatever blanks stand around it.
-/
namespace LinearModel

/-- A text without blanks. -/
def Unbroken (cs : List Char) : Prop := ∀ c ∈ cs, c.isWhitespace = false

instance (cs : List Char) : Decidable (Unbroken cs) :=
  List.decidableBAll (fun c : Char => c.isWhitespace = false) cs

/-- A text that can stand as a field: it is not empty and holds no blank. -/
structure IsWord (s : String) : Prop where
  nonempty : s.toList ≠ []
  unbroken : Unbroken s.toList

instance (s : String) : Decidable (IsWord s) :=
  decidable_of_iff (s.toList ≠ [] ∧ Unbroken s.toList)
    ⟨fun h => ⟨h.1, h.2⟩, fun h => ⟨h.nonempty, h.unbroken⟩⟩

def fields (line : List Char) : List String :=
  ((line.splitOnP (·.isWhitespace)).filter (· ≠ [])).map String.ofList

def linesOf (text : List Char) : List (List Char) := text.splitOn '\n'

/-! ## Texts without blanks -/

/-- Characters of a kind that no blank is of. -/
theorem unbroken_of_forall {p : Char → Bool} (hp : ∀ c ∈ [' ', '\t', '\x0d', '\n'], p c = false)
    {cs : List Char} (h : ∀ c ∈ cs, p c = true) : Unbroken cs := by
  intro c hc
  rw [← Bool.not_eq_true]
  intro hblank
  simp only [Char.isWhitespace, Bool.or_eq_true, decide_eq_true_eq] at hblank
  have hmem : c ∈ [' ', '\t', '\x0d', '\n'] := by
    obtain ((rfl | rfl) | rfl) | rfl := hblank <;> decide
  exact absurd (h c hc) (by simp [hp c hmem])

theorem unbroken_toDigits (n : Nat) : Unbroken (Nat.toDigits 10 n) :=
  unbroken_of_forall (p := Char.isDigit) (by simp) fun _ hc =>
    Nat.isDigit_of_mem_toDigits (by decide) (by decide) hc

theorem Unbroken.append {cs ds : List Char} (hcs : Unbroken cs) (hds : Unbroken ds) :
    Unbroken (cs ++ ds) := List.forall_mem_append.2 ⟨hcs, hds⟩

theorem Unbroken.cons {c : Char} {cs : List Char} (hc : c.isWhitespace = false)
    (hcs : Unbroken cs) : Unbroken (c :: cs) := List.forall_mem_cons.2 ⟨hc, hcs⟩

/-! ## Fields -/

/-- A line falls apart at a blank. -/
theorem fields_append_blank {c : Char} (hc : c.isWhitespace = true) (xs ys : List Char) :
    fields (xs ++ c :: ys) = fields xs ++ fields ys := by
  simp only [fields, List.splitOnP_append_cons xs ys hc, List.filter_append, List.map_append]

@[simp] theorem fields_space (cs : List Char) : fields (' ' :: cs) = fields cs :=
  fields_append_blank (c := ' ') rfl [] cs

@[simp] theorem fields_spaces (n : Nat) (cs : List Char) :
    fields (List.replicate n ' ' ++ cs) = fields cs := by
  induction n with
  | zero => rfl
  | succ n ih => rw [List.replicate_succ, List.cons_append, fields_space, ih]

theorem IsWord.fields {s : String} (hs : IsWord s) : fields s.toList = [s] := by
  have hsplit : s.toList.splitOnP (·.isWhitespace) = [s.toList] :=
    List.splitOnP_eq_singleton fun c hc => by simp [hs.unbroken c hc]
  simp [LinearModel.fields, hsplit, hs.nonempty]

/-- A word before a blank is the first field. -/
theorem IsWord.fields_space {s : String} (hs : IsWord s) (cs : List Char) :
    LinearModel.fields (s.toList ++ ' ' :: cs) = s :: LinearModel.fields cs := by
  rw [fields_append_blank rfl, hs.fields, List.singleton_append]

theorem IsWord.fields_spaces {s : String} (hs : IsWord s) (n : Nat) (cs : List Char) :
    LinearModel.fields (s.toList ++ (List.replicate n ' ' ++ ' ' :: cs))
      = s :: LinearModel.fields cs := by
  have hspaces : List.replicate n ' ' ++ ' ' :: cs = ' ' :: (List.replicate n ' ' ++ cs) := by
    rw [← List.cons_append, ← List.replicate_succ, List.replicate_succ', List.append_assoc,
      List.singleton_append]
  rw [hspaces, hs.fields_space, LinearModel.fields_spaces]

/-! ## Lines -/

/-- Lines that hold no line break are read back, with an empty one after the last break. -/
theorem linesOf_join {ls : List String} (h : ∀ l ∈ ls, '\n' ∉ l.toList) :
    linesOf (String.join (ls.map (· ++ "\n"))).toList = ls.map String.toList ++ [[]] := by
  induction ls with
  | nil => rfl
  | cons l ls ih =>
    obtain ⟨hl, hls⟩ := List.forall_mem_cons.1 h
    have hjoin : (String.join ((l :: ls).map (· ++ "\n"))).toList
        = l.toList ++ '\n' :: (String.join (ls.map (· ++ "\n"))).toList := by
      simp [String.toList_join]
    rw [hjoin, linesOf, List.splitOn, List.splitOnP_append_cons _ _ (by simp)]
    rw [List.splitOnP_eq_singleton fun c hc => by
      simpa using fun hbreak : c = '\n' => hl (hbreak ▸ hc)]
    exact congrArg (l.toList :: ·) (ih hls)

end LinearModel
