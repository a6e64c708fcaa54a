import LinearModel.Proofs.Feasibility
import LinearModel.Proofs.LegalNames
import LinearModel.Proofs.MpsReader
import LinearModel.Proofs.Repetition

/-!
# Exchange files

Writing an exchange file evaluates the objective, the equations and the bounds of the variables, and
then lays the numbers out as text. The layout can be read back: the contents of the file are
the rows, columns, entries, right-hand sides and bounds that the numbers make up.
-/
namespace LinearModel

open Run

variable {K : Type} {α β γ : Type} {as : List α}

theorem Run.mapM_congr {f g : α → Run K β} (h : ∀ a ∈ as, f a = g a) : as.mapM f = as.mapM g := by
  induction as with
  | nil => rfl
  | cons a as ih =>
    obtain ⟨ha, has⟩ := List.forall_mem_cons.1 h
    rw [List.mapM_cons, List.mapM_cons, ha, ih has]

/-- What is done with each result can be done at the end. -/
theorem Run.mapM_zipWith (f : α → Run K β) (g : α → β → γ) (as : List α) :
    (as.mapM fun a => do return g a (← f a)) = (do return List.zipWith g as (← as.mapM f)) := by
  induction as with
  | nil => simp
  | cons a as ih =>
    rw [List.mapM_cons, ih, List.mapM_cons]
    simp only [bind_assoc, pure_bind, List.zipWith_cons_cons]

variable [Scalar K]

namespace Mps

variable {p : Problem K} {c : Column K} {o : Objective K} {row : Row K}

/-! ## The numbers behind a file -/

/-- The numbers of the objective, of the equations, and of the bounds of the variables. -/
structure Numbers (K : Type) where
  objective : List (String × K) × K
  equations : List (List (String × K) × K)
  bounds : List (K × K)

/-- Evaluate what is written to a file. -/
def numbersOf (p : Problem K) (o : Objective K) : Run K (Numbers K) := do
  let objective ← o.evaluate
  let equations ← p.model.equations.mapM Equation.evaluate
  let bounds ← p.model.variableNames.mapM (MatrixForm.boundsOf p)
  return { objective, equations, bounds }

/-- The sign of the objective, which is to be minimized. -/
def sign (o : Objective K) : K := Scalar.ofInt (if o.sense = .maximize then -1 else 1)

def objectiveName (o : Objective K) : List Char := legalName (o.name.getD "OBJ").toList

def rowNames (p : Problem K) (o : Objective K) : List (List Char) :=
  uniqueNames [objectiveName o] (rowTitles p.model.equations)

def goalRow (o : Objective K) (v : List (String × K) × K) : Row K where
  name := String.ofList (objectiveName o)
  relation := none
  coefficients := v.1.map fun e => (e.1, sign o * e.2)
  constant := -sign o * v.2

/-- The row of an equation with a name. -/
def ruleRow (e : List Char × Equation K) (v : List (String × K) × K) : Row K where
  name := String.ofList e.1
  relation := some e.2.op
  coefficients := v.1
  constant := v.2

def ruleRows (p : Problem K) (o : Objective K) (vs : List (List (String × K) × K)) :
    List (Row K) :=
  List.zipWith ruleRow ((rowNames p o).zip p.model.equations) vs

def Numbers.rows (n : Numbers K) (p : Problem K) (o : Objective K) : List (Row K) :=
  goalRow o n.objective :: ruleRows p o n.equations

def Column.type (c : Column K) : TypeName := c.declaration.elim .float (·.type)

/-- What is written about the bounds of the columns. -/
def boundsWritten (p : Problem K) (bs : List (K × K)) : List (String × BoundKind) :=
  (List.zipWith (fun c b => (boundKinds c.type b.1 b.2).map (c.name, ·)) (columns p) bs).flatten

def title (p : Problem K) : String := String.ofList (legalName p.symbol.toList)

/-- The text that numbers are laid out as. -/
def layOut (p : Problem K) (o : Objective K) (n : Numbers K) : String :=
  String.join ((fileLines (title p) (n.rows p o) (columns p)
    ((boundsWritten p n.bounds).map fun b => b.2.line b.1)).map (· ++ "\n"))

/-- What numbers are read back as. -/
def contents (p : Problem K) (o : Objective K) (n : Numbers K) : Contents :=
  contentsOf (title p) (n.rows p o) (columns p) (boundsWritten p n.bounds)

section

omit [Scalar K]

theorem map_dvar_columns (p : Problem K) : (columns p).map (·.dvar) = p.model.variableNames := by
  simp only [columns, List.map_map, Function.comp_def]
  exact List.map_fst_zip (by simp [length_uniqueNames])

theorem declaration_of_mem_columns (h : c ∈ columns p) :
    c.declaration = p.declarationOf c.dvar := by
  obtain ⟨e, _, rfl⟩ := List.mem_map.1 h
  rfl

end

theorem mapM_equationRow (p : Problem K) (o : Objective K) :
    ((rowNames p o).zip p.model.equations).mapM (fun e => equationRow (String.ofList e.1) e.2) =
      (do return ruleRows p o (← p.model.equations.mapM Equation.evaluate)) := by
  have hlength : p.model.equations.length ≤ (rowNames p o).length := by
    simp [rowNames, length_uniqueNames, rowTitles]
  have hevaluate : ((rowNames p o).zip p.model.equations).mapM (fun e => e.2.evaluate) =
      p.model.equations.mapM Equation.evaluate := by
    conv_rhs => rw [← List.map_snd_zip hlength]
    rw [List.mapM_map]
    rfl
  rw [← hevaluate]
  exact Run.mapM_zipWith (fun e : List Char × Equation K => e.2.evaluate) ruleRow _

/-- Every column has bounds if its variable is declared. -/
theorem mapM_columnBounds
    (hdeclared : ∀ n ∈ p.model.variableNames, ∃ v, p.declarationOf n = some v) :
    (columns p).mapM columnBounds = (do
      let bs ← p.model.variableNames.mapM (MatrixForm.boundsOf p)
      return List.zipWith (fun c b => boundLines c.type c.name b.1 b.2) (columns p) bs) := by
  have hbounds : ∀ c ∈ columns p, columnBounds c =
      (do let b ← MatrixForm.boundsOf p c.dvar; return boundLines c.type c.name b.1 b.2) := by
    intro c hc
    have hname : c.dvar ∈ p.model.variableNames :=
      map_dvar_columns p ▸ List.mem_map_of_mem hc
    obtain ⟨v, hv⟩ := hdeclared c.dvar hname
    have hdeclaration := (declaration_of_mem_columns hc).trans hv
    simp only [columnBounds, MatrixForm.boundsOf, Column.type, hdeclaration, hv, Option.elim]
  rw [Run.mapM_congr hbounds, Run.mapM_zipWith, ← map_dvar_columns p, List.mapM_map]
  rfl

/-- Writing a file evaluates the numbers and lays them out. -/
theorem file_eq (hbuilt : p.isBuilt = true) (ho : p.model.objective = some o)
    (hdeclared : ∀ n ∈ p.model.variableNames, ∃ v, p.declarationOf n = some v) :
    file p = (do return layOut p o (← numbersOf p o)) := by
  have hlines : ∀ bs : List (K × K), (List.zipWith (fun c b => boundLines c.type c.name b.1 b.2)
      (columns p) bs).flatten = (boundsWritten p bs).map fun b => b.2.line b.1 := by
    intro bs
    simp only [boundsWritten, List.map_flatten, List.map_zipWith, List.map_map, boundLines_eq,
      Function.comp_def]
  have hrows := mapM_equationRow p o
  simp only [rowNames, objectiveName] at hrows
  simp only [file, hbuilt, ho, Bool.not_true, Bool.false_eq_true, if_false, pure_bind, numbersOf,
    bind_assoc, objectiveRow, hrows, mapM_columnBounds hdeclared, hlines]
  rfl

/-! ## Reading back what was laid out -/

theorem IsLegal.not_marker {name : List Char} (h : IsLegal name) :
    String.ofList name ≠ "'MARKER'" := by
  intro hname
  have hchars := congrArg String.toList hname
  rw [String.toList_ofList] at hchars
  exact absurd (h.legal '\'' (by rw [hchars]; decide)) (by decide)

omit [Scalar K] in
theorem map_name_columns (p : Problem K) : (columns p).map (·.name) =
    (uniqueNames [] (p.model.variableNames.map String.toList)).map String.ofList := by
  have hlength : (uniqueNames [] (p.model.variableNames.map String.toList)).length ≤
      p.model.variableNames.length := by simp [length_uniqueNames]
  conv_rhs => rw [← List.map_snd_zip hlength]
  simp only [columns, List.map_map, Function.comp_def]

theorem nodup_ofList {names : List (List Char)} (h : names.Nodup) :
    (names.map String.ofList).Nodup :=
  h.map fun _ _ heq => String.ofList_injective heq

omit [Scalar K] in
theorem nodup_columns (p : Problem K) : ((columns p).map (·.name)).Nodup := by
  rw [map_name_columns]
  exact nodup_ofList (nodup_uniqueNames _ _)

omit [Scalar K] in
theorem isLegal_column (h : c ∈ columns p) :
    ∃ name, IsLegal name ∧ c.name = String.ofList name := by
  have hmem := List.mem_map_of_mem (f := Column.name) h
  rw [map_name_columns] at hmem
  obtain ⟨name, hname, heq⟩ := List.mem_map.1 hmem
  exact ⟨name, isLegal_of_mem_uniqueNames hname, heq.symm⟩

theorem isLegal_row {n : Numbers K} (h : row ∈ n.rows p o) :
    ∃ name, IsLegal name ∧ row.name = String.ofList name := by
  obtain rfl | h := List.mem_cons.1 h
  · exact ⟨_, isLegal_legalName _, rfl⟩
  · simp only [ruleRows, ← List.map_uncurry_zip_eq_zipWith] at h
    obtain ⟨⟨⟨name, q⟩, v⟩, hmem, rfl⟩ := List.mem_map.1 h
    exact ⟨name, isLegal_of_mem_uniqueNames (List.of_mem_zip (List.of_mem_zip hmem).1).1, rfl⟩

theorem number_of_mem_boundKinds {type : TypeName} {lower upper : K} {kind : BoundKind} {n : String}
    (h : kind ∈ boundKinds type lower upper) (hn : kind.number? = some n) :
    n = Scalar.exchangeText lower ∨ n = Scalar.exchangeText upper := by
  simp only [boundKinds] at h
  split_ifs at h <;> simp at h <;> grind [BoundKind.number?]

theorem isReadableBound_of_mem {bs : List (K × K)} {b : String × BoundKind}
    (hnumbers : ∀ x : K, IsWord (Scalar.exchangeText x)) (h : b ∈ boundsWritten p bs) :
    IsReadableBound b := by
  simp only [boundsWritten, ← List.map_uncurry_zip_eq_zipWith, List.mem_flatten, List.mem_map] at h
  obtain ⟨_, ⟨⟨c, l, u⟩, hmem, rfl⟩, hb⟩ := h
  obtain ⟨kind, hkind, rfl⟩ := List.mem_map.1 hb
  obtain ⟨name, hname, hc⟩ := isLegal_column (List.of_mem_zip hmem).1
  refine ⟨hc ▸ hname.isWord, fun n hn => ?_⟩
  obtain rfl | rfl := number_of_mem_boundKinds hkind hn <;> exact hnumbers _

/-- Numbers that were laid out are read back. -/
theorem read_layOut (hnumbers : ∀ x : K, IsWord (Scalar.exchangeText x)) (p : Problem K)
    (o : Objective K) (n : Numbers K) : read? (layOut p o n) = some (contents p o n) := by
  refine IsReadableFile.read ⟨(isLegal_legalName _).isWord, fun row hrow => ?_, fun c hc => ?_,
    nodup_columns p, fun b hb => isReadableBound_of_mem hnumbers hb, hnumbers⟩
  · obtain ⟨name, hname, hrow⟩ := isLegal_row hrow
    exact hrow ▸ ⟨hname.isWord, hname.not_marker⟩
  · obtain ⟨name, hname, hc⟩ := isLegal_column hc
    exact hc ▸ hname.isWord

/-! ## What the contents say of one row, one column and one bound -/

/-- Items that are listed under distinct keys are found under them. -/
theorem filter_flatMap_of_key {f : α → List β} (key : α → String) (key' : β → String)
    (hkey : ∀ a, ∀ b ∈ f a, key' b = key a) (has : (as.map key).Nodup) {a : α}
    (ha : a ∈ as) : ((as.flatMap f).filter fun b => key' b = key a) = f a := by
  induction as with
  | nil => cases ha
  | cons a' as ih =>
    obtain ⟨hnew, has⟩ := List.nodup_cons.1 has
    rw [List.flatMap_cons, List.filter_append]
    obtain rfl | ha := List.mem_cons.1 ha
    · have hothers : ((as.flatMap f).filter fun b => key' b = key a) = [] := by
        refine List.filter_eq_nil_iff.2 fun b hb => ?_
        obtain ⟨a', ha', hb⟩ := List.mem_flatMap.1 hb
        have hne : key a' ≠ key a := fun h => hnew (h ▸ List.mem_map_of_mem ha')
        simpa [hkey a' b hb] using hne
      rw [hothers, List.append_nil, List.filter_eq_self]
      exact fun b hb => by simp [hkey a b hb]
    · have hothers : ((f a').filter fun b => key' b = key a) = [] := by
        refine List.filter_eq_nil_iff.2 fun b hb => ?_
        have hne : key a' ≠ key a := fun h => hnew (h ▸ List.mem_map_of_mem ha)
        simpa [hkey a' b hb] using hne
      rw [hothers, List.nil_append, ih has ha]

theorem filter_filterMap_of_key {f : α → Option β} (key : α → String) (key' : β → String)
    (hkey : ∀ a b, f a = some b → key' b = key a) (has : (as.map key).Nodup) {a : α}
    (ha : a ∈ as) : ((as.filterMap f).filter fun b => key' b = key a) = (f a).toList := by
  have hflat : as.filterMap f = as.flatMap fun a => (f a).toList := by
    clear has ha
    induction as with
    | nil => rfl
    | cons a as ih =>
      rw [List.filterMap_cons, List.flatMap_cons, ← ih]
      cases f a <;> rfl
  rw [hflat]
  exact filter_flatMap_of_key key key' (fun a b hb => hkey a b (by simpa using hb)) has ha

section Contents

variable {name : String} {rows : List (Row K)} {cols : List (Column K)}
  {bounds : List (String × BoundKind)}

/-- The entries of a column. -/
theorem filter_entries_of_column (hcols : (cols.map (·.name)).Nodup) (hc : c ∈ cols) :
    ((contentsOf name rows cols bounds).entries.filter fun e => e.column = c.name) =
      entriesOf rows c :=
  filter_flatMap_of_key Column.name Entry.column (fun _ _ he => column_of_mem_entriesOf he) hcols hc

/-- A column has entries exactly if a row has a number for it that does not count as zero. -/
theorem entriesOf_ne_nil_iff : entriesOf rows c ≠ [] ↔
    ∃ cs ∈ rows.map (·.coefficients), ∃ x, Table.findIn c.dvar cs = some x ∧
      Scalar.isZero x = false := by
  simp [entriesOf, List.filterMap_eq_nil_iff, Option.bind_eq_none_iff, written]

/-- The number at a column and a row, unless it counts as zero. -/
theorem numbersAt_contentsOf (hrows : (rows.map (·.name)).Nodup) (hcols : (cols.map (·.name)).Nodup)
    (hc : c ∈ cols) (hrow : row ∈ rows) :
    (contentsOf name rows cols bounds).numbersAt c.name row.name =
      ((Table.findIn c.dvar row.coefficients).bind written).toList := by
  have hentry := filter_filterMap_of_key Row.name Entry.row
    (f := fun row : Row K =>
      ((Table.findIn c.dvar row.coefficients).bind written).map fun n => ⟨c.name, row.name, n⟩)
    (fun row e he => by
      obtain ⟨n, _, rfl⟩ := Option.map_eq_some_iff.1 he
      rfl) hrows hrow
  have hsplit : (contentsOf name rows cols bounds).numbersAt c.name row.name =
      (((contentsOf name rows cols bounds).entries.filter fun e => e.column = c.name).filter
        fun e => e.row = row.name).map (·.number) := by
    simp only [Contents.numbersAt, List.filter_filter, Bool.decide_and, Bool.and_comm]
  rw [hsplit, filter_entries_of_column hcols hc, entriesOf, hentry]
  cases (Table.findIn c.dvar row.coefficients).bind written <;> rfl

/-- The right-hand side of a row, unless it counts as zero. -/
theorem constantsAt_contentsOf (hrows : (rows.map (·.name)).Nodup)
    (hrow : row ∈ rows) : (contentsOf name rows cols bounds).constantsAt row.name =
      (written row.constant).toList := by
  have hconstant := filter_filterMap_of_key Row.name (fun e : String × String => e.1)
    (f := fun row : Row K => (written row.constant).map (row.name, ·))
    (fun row e he => by
      obtain ⟨n, _, rfl⟩ := Option.map_eq_some_iff.1 he
      rfl) hrows hrow
  simp only [Contents.constantsAt, contentsOf, constantsOf]
  rw [hconstant]
  cases written row.constant <;> rfl

theorem row_of_mem_entries {e : Entry} (h : e ∈ (contentsOf name rows cols bounds).entries) :
    e.row ∈ rows.map (·.name) := by
  obtain ⟨c, _, he⟩ := List.mem_flatMap.1 h
  obtain ⟨row, hrow, he⟩ := List.mem_filterMap.1 he
  obtain ⟨n, _, rfl⟩ := Option.map_eq_some_iff.1 he
  exact List.mem_map_of_mem hrow

theorem column_of_mem_entries {e : Entry} (h : e ∈ (contentsOf name rows cols bounds).entries) :
    e.column ∈ cols.map (·.name) := by
  obtain ⟨c, hc, he⟩ := List.mem_flatMap.1 h
  rw [column_of_mem_entriesOf he]
  exact List.mem_map_of_mem hc

theorem row_of_mem_constants {c : String × String}
    (h : c ∈ (contentsOf name rows cols bounds).constants) : c.1 ∈ rows.map (·.name) := by
  obtain ⟨row, hrow, hc⟩ := List.mem_filterMap.1 h
  obtain ⟨n, _, rfl⟩ := Option.map_eq_some_iff.1 hc
  exact List.mem_map_of_mem hrow

end Contents

/-- The limits of a column are those that are written for it. -/
theorem limitsOf_contents {n : Numbers K} {b : K × K}
    (hbounds : n.bounds.length = p.model.variableNames.length)
    (h : (c, b) ∈ (columns p).zip n.bounds) : (contents p o n).limitsOf c.name =
      (boundKinds c.type b.1 b.2).foldl BoundKind.apply {} := by
  have hflat : (contents p o n).bounds = ((columns p).zip n.bounds).flatMap fun e =>
      (boundKinds e.1.type e.2.1 e.2.2).map (e.1.name, ·) := by
    simp only [contents, contentsOf, boundsWritten, ← List.map_uncurry_zip_eq_zipWith,
      List.flatMap_def]
    rfl
  have hnodup : (((columns p).zip n.bounds).map fun e => e.1.name).Nodup := by
    have hlength : (columns p).length ≤ n.bounds.length := by
      rw [hbounds, ← map_dvar_columns, List.length_map]
    have hnames := nodup_columns p
    rwa [← List.map_fst_zip hlength, List.map_map] at hnames
  have hfilter := filter_flatMap_of_key (fun e : Column K × K × K => e.1.name)
    (fun e : String × BoundKind => e.1) (by simp) hnodup h
    (f := fun e => (boundKinds e.1.type e.2.1 e.2.2).map (e.1.name, ·))
  simp only [Contents.limitsOf, hflat]
  rw [hfilter, List.map_map]
  simp [Function.comp_def]

end Mps

end LinearModel
