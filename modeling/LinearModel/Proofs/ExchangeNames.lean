import LinearModel.Proofs.ExchangeFile
import Mathlib.Data.Nat.Digits.Defs

/-!
# Names in an exchange file

A row or a column is named after its title. If the title, made legal, is in use already, numbers are
tried at its end one after the other, for as long as it takes. The search is stated here without a
limit and shown to end. It ends before the numbers get so long that they no longer fit into a name.
-/
namespace LinearModel.Mps

variable {K : Type} {used : List (List Char)} {name title : List Char}

/-! ## The search -/

/-- The search for a free name from a number on. It has no limit. -/
inductive Searches (used : List (List Char)) (name : List Char) : Nat → List Char → Prop
  | stop {n : Nat} (hfree : numberedName name n ∉ used) : Searches used name n (numberedName name n)
  | next {n : Nat} {found : List Char} (hused : numberedName name n ∈ used)
      (hrest : Searches used name (n + 1) found) : Searches used name n found

/-- The name that a title gets: itself, made legal, or what the search finds if that is in use. -/
inductive Gets (used : List (List Char)) (title : List Char) : List Char → Prop
  | free (hfree : legalName title ∉ used) : Gets used title (legalName title)
  | numbered {found : List Char} (hused : legalName title ∈ used)
      (hsearch : Searches used (legalName title) 1 found) : Gets used title found

/-- Titles get their names one after the other, and a name is in use from then on. -/
inductive GetAll : List (List Char) → List (List Char) → List (List Char) → Prop
  | nil {used : List (List Char)} : GetAll used [] []
  | cons {used titles names : List (List Char)} {title name : List Char}
      (hhead : Gets used title name)
      (hrest : GetAll (name :: used) titles names) : GetAll used (title :: titles) (name :: names)

/-- A free name that is found within a limit is found without one. -/
theorem searches_freeNumbered {n tries : Nat} (h : freeNumbered used name n tries ∉ used) :
    Searches used name n (freeNumbered used name n tries) := by
  induction tries generalizing n with
  | zero => exact .stop h
  | succ tries ih =>
    simp only [freeNumbered, List.contains_iff_mem] at h ⊢
    split at h
    · rename_i hused
      rw [if_pos hused]
      exact .next hused (ih h)
    · rw [if_neg ‹_›]
      exact .stop h

theorem gets_freeName (used : List (List Char)) (title : List Char) :
    Gets used title (freeName used (legalName title)) := by
  have hfree := freeName_not_mem used (legalName title)
  simp only [freeName, List.contains_iff_mem] at hfree ⊢
  split
  · rename_i hused
    rw [if_pos hused] at hfree
    exact .numbered hused (searches_freeNumbered hfree)
  · exact .free ‹_›

/-- Every search ends. -/
theorem getAll_uniqueNames (used titles : List (List Char)) :
    GetAll used titles (uniqueNames used titles) := by
  induction titles generalizing used with
  | nil => exact .nil
  | cons title titles ih => exact .cons (gets_freeName used title) (ih _)

/-! ## Lengths -/

theorem length_legalName_le (title : List Char) : (legalName title).length ≤ maxNameLength := by
  simp only [legalName]
  split
  · decide
  · exact List.length_take_le _ _

/-- A number of up to 23 digits fits into a name. -/
theorem length_numberedName_le {n : Nat} (hn : n < 10 ^ 23) :
    (numberedName name n).length ≤ maxNameLength := by
  have hdigits : (Nat.toDigits 10 n).length ≤ 23 := Nat.toDigits_length 10 n 23 (by decide) hn
  simp only [numberedName, natText, String.toList_ofList, List.length_append, List.length_take,
    List.length_cons, maxNameLength]
  omega

/-- The number in a name that is found is at most one more than there are names in use. -/
theorem length_freeName_le (hused : used.length < 10 ^ 22) (hname : name.length ≤ maxNameLength) :
    (freeName used name).length ≤ maxNameLength := by
  simp only [freeName]
  split
  · obtain ⟨k, hk, heq⟩ := freeNumbered_eq used name 1 used.length
    rw [heq]
    exact length_numberedName_le (by omega)
  · exact hname

theorem length_le_of_mem_uniqueNames {titles : List (List Char)}
    (hlength : used.length + titles.length ≤ 10 ^ 22) (h : name ∈ uniqueNames used titles) :
    name.length ≤ maxNameLength := by
  induction titles generalizing used with
  | nil => simp [uniqueNames] at h
  | cons title titles ih =>
    rw [List.length_cons] at hlength
    obtain rfl | h := List.mem_cons.1 h
    · exact length_freeName_le (by omega) (length_legalName_le title)
    · exact ih (by rw [List.length_cons]; omega) h

/-! ## Rows and columns -/

def columnNames (p : Problem K) : List (List Char) := (columns p).map (·.name.toList)

theorem columnNames_eq (p : Problem K) :
    columnNames p = uniqueNames [] (p.model.variableNames.map String.toList) := by
  have hnames := congrArg (List.map String.toList) (map_name_columns p)
  simpa [columnNames, List.map_map, Function.comp_def] using hnames

/-- Every row and every column is given a name by a search that ends. The names of the rows, that of
the objective among them, are pairwise different, and so are those of the columns. They are made of
ASCII letters, digits and underscores, are not empty and have at most 24 characters. -/
theorem names_legal_and_distinct [Scalar K] (p : Problem K) (o : Objective K)
    (hequations : p.model.equations.length < 10 ^ 20)
    (hvariables : p.model.variableNames.length < 10 ^ 20) :
    GetAll [objectiveName o] (rowTitles p.model.equations) (rowNames p o) ∧
      GetAll [] (p.model.variableNames.map String.toList) (columnNames p) ∧
      (objectiveName o :: rowNames p o).Nodup ∧ (columnNames p).Nodup ∧
      ∀ name ∈ objectiveName o :: rowNames p o ++ columnNames p,
        IsLegal name ∧ name.length ≤ maxNameLength := by
  have htitles : (rowTitles p.model.equations).length = p.model.equations.length := by
    simp [rowTitles]
  rw [columnNames_eq]
  refine ⟨getAll_uniqueNames _ _, getAll_uniqueNames _ _, List.nodup_cons.2 ⟨fun h => ?_,
    nodup_uniqueNames _ _⟩, nodup_uniqueNames _ _, fun name hname => ?_⟩
  · exact not_mem_used_of_mem_uniqueNames h List.mem_cons_self
  · obtain rfl | hrow | hcolumn : name = objectiveName o ∨ name ∈ rowNames p o ∨
        name ∈ uniqueNames [] (p.model.variableNames.map String.toList) := by simpa using hname
    · exact ⟨isLegal_legalName _, length_legalName_le _⟩
    · exact ⟨isLegal_of_mem_uniqueNames hrow,
        length_le_of_mem_uniqueNames (by rw [htitles, List.length_singleton]; omega) hrow⟩
    · refine ⟨isLegal_of_mem_uniqueNames hcolumn, length_le_of_mem_uniqueNames ?_ hcolumn⟩
      rw [List.length_map, List.length_nil]
      omega

/-- An objective without a name. -/
def unnamedGoal : Objective ℚ := { sense := .minimize, coefficients := .empty, constant := .zero }

/-- A model in which labels clash with the objective, with one another, and with a numbered name, as
the names of three variables do. -/
def clashingLabels : Problem ℚ where
  symbol := "clash"
  isBuilt := true
  model.objective := some unnamedGoal
  model.equations := ["OBJ", "OBJ_1", "OBJ!"].map fun l =>
    { coefficients := .ofList (["xa b", "xa-b", "xa_b_1"].map fun x => (x, .num 1))
      constant := .zero, op := .le, label := some l }

theorem names_legal_and_distinct_clashingLabels :
    clashingLabels.model.equations.length < 10 ^ 20 ∧
      clashingLabels.model.variableNames.length < 10 ^ 20 ∧
      rowNames clashingLabels unnamedGoal = ["OBJ_1", "OBJ_1_1", "OBJ_2"].map String.toList ∧
      columnNames clashingLabels = ["xa_b", "xa_b_1", "xa_b_1_1"].map String.toList ∧
      (objectiveName unnamedGoal :: rowNames clashingLabels unnamedGoal).Nodup ∧
      (columnNames clashingLabels).Nodup ∧
      ∀ name ∈ columnNames clashingLabels, IsLegal name ∧ name.length ≤ maxNameLength := by
  have hequations : clashingLabels.model.equations.length < 10 ^ 20 := by decide
  have hvariables : clashingLabels.model.variableNames.length < 10 ^ 20 := by decide
  obtain ⟨-, -, hrows, hcolumns, hlegal⟩ :=
    names_legal_and_distinct clashingLabels unnamedGoal hequations hvariables
  refine ⟨hequations, hvariables, by decide, ?_, hrows, hcolumns, fun name hname => ?_⟩
  · rw [columnNames_eq]
    decide
  · exact hlegal name (List.mem_append_right _ hname)

end LinearModel.Mps
