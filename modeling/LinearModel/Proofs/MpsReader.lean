import LinearModel.Mps
import LinearModel.Proofs.Words
import Mathlib.Data.List.Basic
import Mathlib.Tactic.SplitIfs

/-!
# Reading exchange files

A reader of the free format takes a file line by line. A line that starts with a blank belongs to
the section that was opened last, and any other line opens one. Fields are separated by blanks.
Columns between the two kinds of markers hold whole numbers. A column without bounds has zero as its
lower limit and no upper one.

What the reader finds in a written file is what the file was written from. Each kind of line is read
by one step, and each section by induction on its lines.
-/
namespace LinearModel.Mps

/-! ## The contents of a file -/

inductive RowKind where
  | free
  | atMost
  | atLeast
  | exactly
  deriving DecidableEq, Repr

def RowKind.ofLetter? : String → Option RowKind
  | "N" => some .free
  | "L" => some .atMost
  | "G" => some .atLeast
  | "E" => some .exactly
  | _ => none

/-- The kind of a row that states a relation, strict or not. -/
def RowKind.ofRelation : RelOp → RowKind
  | .le | .lt => .atMost
  | .ge | .gt => .atLeast
  | .eq | .ne => .exactly

/-- An entry: the number at a column and a row. -/
structure Entry where
  column : String
  row : String
  number : String
  deriving DecidableEq, Repr

/-- The limits of a column. A limit that is missing is infinite. -/
structure Limits where
  lower : Option String := some "0"
  upper : Option String := none
  deriving DecidableEq, Repr

/-- What a line says about the limits of a column. -/
inductive BoundKind where
  | free
  | lowerOpen
  | upperOpen
  | binary
  | lower (number : String)
  | upper (number : String)
  deriving DecidableEq, Repr

/-- The limits after a line about them. -/
def BoundKind.apply : Limits → BoundKind → Limits
  | _, .free => { lower := none, upper := none }
  | l, .lowerOpen => { l with lower := none }
  | l, .upperOpen => { l with upper := none }
  | _, .binary => { lower := some "0", upper := some "1" }
  | l, .lower n => { l with lower := some n }
  | l, .upper n => { l with upper := some n }

/-- What a file holds. Columns stand in the order of their first entries, each with whether it was
marked as one of whole numbers. -/
structure Contents where
  name : String := ""
  rows : List (String × RowKind) := []
  columns : List (String × Bool) := []
  entries : List Entry := []
  constants : List (String × String) := []
  bounds : List (String × BoundKind) := []
  deriving DecidableEq, Repr

namespace Contents

def numbersAt (x : Contents) (column row : String) : List String :=
  (x.entries.filter fun e => e.column = column ∧ e.row = row).map (·.number)

def constantsAt (x : Contents) (row : String) : List String :=
  (x.constants.filter (·.1 = row)).map (·.2)

def limitsOf (x : Contents) (column : String) : Limits :=
  ((x.bounds.filter (·.1 = column)).map (·.2)).foldl BoundKind.apply {}

/-- The contents with one more entry. -/
def addEntry (isInteger : Bool) (x : Contents) (e : Entry) : Contents :=
  { x with
    columns :=
      if x.columns.any (·.1 == e.column) then x.columns else x.columns ++ [(e.column, isInteger)]
    entries := x.entries ++ [e] }

end Contents

/-! ## The reader -/

/-- The part of a file that is being read. -/
inductive Part where
  | heading
  | rows
  | columns
  | constants
  | bounds
  | ended
  deriving DecidableEq, Repr

/-- A file that has been read in part. -/
structure State where
  part : Part := .heading
  /-- Whether the columns that follow hold whole numbers. -/
  isInteger : Bool := false
  contents : Contents := {}

namespace State

/-- Read a line that opens a section. -/
def header (s : State) : List String → Option State
  | ["NAME", name] => some { s with contents := { s.contents with name } }
  | ["ROWS"] => some { s with part := .rows }
  | ["COLUMNS"] => some { s with part := .columns }
  | ["RHS"] => some { s with part := .constants }
  | ["BOUNDS"] => some { s with part := .bounds }
  | ["ENDATA"] => some { s with part := .ended }
  | _ => none

def row (s : State) : List String → Option State
  | [letter, name] => do
    let kind ← RowKind.ofLetter? letter
    return { s with contents := { s.contents with rows := s.contents.rows ++ [(name, kind)] } }
  | _ => none

def marker (s : State) (word : String) : Option State :=
  if word = "'INTORG'" then some { s with isInteger := true }
  else if word = "'INTEND'" then some { s with isInteger := false }
  else none

/-- Read a line of a column: a marker, or one or two entries. -/
def column (s : State) : List String → Option State
  | [c, r, n] =>
    if r = "'MARKER'" then s.marker n
    else some { s with contents := s.contents.addEntry s.isInteger ⟨c, r, n⟩ }
  | [c, r, n, r', n'] =>
    some { s with contents :=
      (s.contents.addEntry s.isInteger ⟨c, r, n⟩).addEntry s.isInteger ⟨c, r', n'⟩ }
  | _ => none

def constant (s : State) : List String → Option State
  | [_, r, n] =>
    some { s with contents := { s.contents with constants := s.contents.constants ++ [(r, n)] } }
  | [_, r, n, r', n'] =>
    some { s with contents :=
      { s.contents with constants := s.contents.constants ++ [(r, n), (r', n')] } }
  | _ => none

/-- What the word of a bound stands for, with its number if there is one. -/
def boundKind? : String → Option String → Option BoundKind
  | "FR", none => some .free
  | "MI", none => some .lowerOpen
  | "PL", none => some .upperOpen
  | "BV", none => some .binary
  | "LO", some n => some (.lower n)
  | "UP", some n => some (.upper n)
  | _, _ => none

def bound (s : State) : List String → Option State
  | word :: _ :: c :: number => do
    if 1 < number.length then failure
    let kind ← boundKind? word number.head?
    return { s with contents := { s.contents with bounds := s.contents.bounds ++ [(c, kind)] } }
  | _ => none

def data (s : State) (fields : List String) : Option State :=
  if fields.isEmpty then some s
  else
    match s.part with
    | .rows => s.row fields
    | .columns => s.column fields
    | .constants => s.constant fields
    | .bounds => s.bound fields
    | .heading | .ended => none

def line (s : State) : List Char → Option State
  | [] => some s
  | c :: cs =>
    if c.isWhitespace then s.data (fields (c :: cs)) else s.header (fields (c :: cs))

end State

/-- The contents of a file that is complete. -/
def read? (text : String) : Option Contents := do
  let s ← (linesOf text.toList).foldlM State.line {}
  if s.part = .ended then some s.contents else none

/-! ## What files are written from -/

variable {K : Type} [Scalar K] {s : State} {e : Entry} {column : String} {es : List Entry}
  {rows : List (Row K)}

/-- A number as it is written, unless it counts as zero. -/
def written (x : K) : Option String :=
  if Scalar.isZero x then none else some (Scalar.exchangeText x)

/-- The name and the kind of a row. -/
def Row.shown (row : Row K) : String × RowKind :=
  (row.name, row.relation.elim .free RowKind.ofRelation)

def Entry.line (e : Entry) : String :=
  "    " ++ padRight 10 e.column ++ " " ++ padRight 10 e.row ++ " " ++ padLeft 12 e.number

def entriesOf (rows : List (Row K)) (c : Column K) : List Entry :=
  rows.filterMap fun row =>
    ((Table.findIn c.dvar row.coefficients).bind written).map (⟨c.name, row.name, ·⟩)

def constantsOf (rows : List (Row K)) : List (String × String) :=
  rows.filterMap fun row => (written row.constant).map ((row.name, ·))

/-- What the bounds of a column are written as. -/
def boundKinds (type : TypeName) (lower upper : K) : List BoundKind :=
  if type = .boolean && Scalar.eq lower Scalar.zero && Scalar.eq upper Scalar.one then [.binary]
  else if Scalar.isInfinite lower && Scalar.isInfinite upper then [.free]
  else
    let low :=
      if Scalar.isInfinite lower then [.lowerOpen]
      else if !Scalar.eq lower Scalar.zero then [.lower (Scalar.exchangeText lower)]
      else if Scalar.isInfinite upper then [.upperOpen]
      else []
    let high := if Scalar.isInfinite upper then [] else [.upper (Scalar.exchangeText upper)]
    low ++ high

def BoundKind.line (column : String) : BoundKind → String
  | .free => plainBound "FR" column
  | .lowerOpen => plainBound "MI" column
  | .upperOpen => plainBound "PL" column
  | .binary => plainBound "BV" column
  | .lower n => " LO BOUND1     " ++ padRight 10 column ++ " " ++ padLeft 12 n
  | .upper n => " UP BOUND1     " ++ padRight 10 column ++ " " ++ padLeft 12 n

theorem entryLines_eq (rows : List (Row K)) (c : Column K) :
    entryLines rows c = (entriesOf rows c).map Entry.line := by
  rw [entryLines, entriesOf, List.map_filterMap]
  refine List.filterMap_congr fun row _ => ?_
  cases Table.findIn c.dvar row.coefficients with
  | none => rfl
  | some x =>
    simp only [Option.bind_some, written]
    split <;> rfl

theorem constantLines_eq (rows : List (Row K)) :
    constantLines rows = (constantsOf rows).map fun e => Entry.line ⟨"RHS1", e.1, e.2⟩ := by
  rw [constantLines, constantsOf, List.map_filterMap]
  refine List.filterMap_congr fun row _ => ?_
  simp only [written]
  split <;> rfl

theorem boundLines_eq (type : TypeName) (column : String) (lower upper : K) :
    boundLines type column lower upper = (boundKinds type lower upper).map (·.line column) := by
  simp only [boundLines, boundKinds]
  split_ifs <;> rfl

/-! ## Reading lines -/

/-- Reading lines leads from one state to another. -/
def Reads (s : State) (lines : List String) (s' : State) : Prop :=
  (lines.map String.toList).foldlM State.line s = some s'

namespace Reads

variable {s t u : State} {l : String} {ls ms : List String}

theorem nil : Reads s [] s := rfl

theorem append (h₁ : Reads s ls t) (h₂ : Reads t ms u) : Reads s (ls ++ ms) u := by
  simp only [Reads, List.map_append, List.foldlM_append] at *
  rw [h₁]
  exact h₂

theorem single (h : s.line l.toList = some t) : Reads s [l] t := by
  simp [Reads, h]

theorem cons (h : s.line l.toList = some t) (hs : Reads t ls u) : Reads s (l :: ls) u :=
  append (single h) hs

/-- Lines that each contribute one item to a state are read one by one. -/
theorem items {α : Type} {write : α → String} (P : State → Prop) (add : State → List α → State)
    (hnil : ∀ s, add s [] = s) (hcons : ∀ s a as, add (add s [a]) as = add s (a :: as))
    (hP : ∀ s as, P s → P (add s as)) {as : List α}
    (h : ∀ s, P s → ∀ a ∈ as, s.line (write a).toList = some (add s [a])) (s : State) (hs : P s) :
    Reads s (as.map write) (add s as) := by
  induction as generalizing s with
  | nil =>
    rw [hnil]
    exact nil
  | cons a as ih =>
    obtain ⟨ha, has⟩ := List.forall_mem_cons.1 (h s hs)
    rw [← hcons s a as]
    exact cons ha <| ih (fun s hs b hb => h s hs b (List.mem_cons_of_mem _ hb)) _ (hP s [a] hs)

end Reads

/-- A line that starts with a blank is one of the section. -/
theorem line_space (s : State) {cs : List Char} {fs : List String} (h : fields cs = fs) :
    s.line (' ' :: cs) = s.data fs := by
  simp [State.line, h, show ' '.isWhitespace = true from rfl]

omit [Scalar K] in
theorem line_rowLine (hs : s.part = .rows) {row : Row K} (hname : IsWord row.name) :
    s.line (rowLine row).toList = some { s with contents :=
      { s.contents with rows := s.contents.rows ++ [row.shown] } } := by
  obtain ⟨letter, hletter, hkind, htext⟩ : ∃ letter, IsWord letter ∧
      RowKind.ofLetter? letter = some row.shown.2 ∧
      (rowLine row).toList = ' ' :: (letter.toList ++ ' ' :: ' ' :: row.name.toList) := by
    simp only [rowLine, Row.shown]
    cases row.relation with
    | none => exact ⟨"N", by decide, rfl, by simp⟩
    | some op =>
      refine ⟨rowType op, ?_, ?_, by simp⟩
      · cases op <;> decide
      · cases op <;> rfl
  rw [htext, line_space s (by rw [hletter.fields_space, fields_space, hname.fields])]
  simp [State.data, State.row, hs, hkind, Row.shown]

/-- An entry whose parts can stand as fields. -/
structure Entry.IsReadable (e : Entry) : Prop where
  column : IsWord e.column
  row : IsWord e.row
  number : IsWord e.number

theorem Entry.IsReadable.line (he : e.IsReadable) (s : State) :
    s.line e.line.toList = s.data [e.column, e.row, e.number] := by
  have htext : e.line.toList = ' ' :: ' ' :: ' ' :: ' ' :: (e.column.toList
      ++ (List.replicate (10 - e.column.length) ' ' ++ ' ' :: (e.row.toList
      ++ (List.replicate (10 - e.row.length) ' ' ++ ' ' ::
        (List.replicate (12 - e.number.length) ' ' ++ e.number.toList))))) := by
    simp [Entry.line, padRight, padLeft]
  rw [htext]
  refine line_space s ?_
  simp only [fields_space, he.column.fields_spaces, he.row.fields_spaces, fields_spaces,
    he.number.fields]

theorem line_entry (hs : s.part = .columns) (he : e.IsReadable)
    (hrow : e.row ≠ "'MARKER'") : s.line e.line.toList =
      some { s with contents := s.contents.addEntry s.isInteger e } := by
  rw [he.line]
  simp [State.data, State.column, hs, hrow]

theorem line_constant (hs : s.part = .constants) {row number : String}
    (he : Entry.IsReadable ⟨"RHS1", row, number⟩) :
    s.line (Entry.line ⟨"RHS1", row, number⟩).toList = some { s with contents :=
      { s.contents with constants := s.contents.constants ++ [(row, number)] } } := by
  rw [he.line]
  simp [State.data, State.constant, hs]

theorem isWord_marker (n : Nat) : IsWord ("MARKER" ++ natText n) := by
  have htext : ("MARKER" ++ natText n).toList = "MARKER".toList ++ Nat.toDigits 10 n := by
    simp [natText]
  refine ⟨by simp, ?_⟩
  rw [htext]
  exact .append (by decide) (unbroken_toDigits n)

theorem line_markerLine (hs : s.part = .columns) (n : Nat) (opens : Bool) :
    s.line (markerLine n opens).toList = some { s with isInteger := opens } := by
  have hmarker : IsWord "'MARKER'" := by decide
  obtain ⟨word, hword, hmeaning, htext⟩ : ∃ word, IsWord word ∧
      s.marker word = some { s with isInteger := opens } ∧
      (markerLine n opens).toList = ' ' :: ' ' :: ' ' :: ' ' :: (("MARKER" ++ natText n).toList
        ++ ' ' :: (List.replicate 5 ' ' ++ ("'MARKER'".toList
          ++ ' ' :: (List.replicate 5 ' ' ++ word.toList)))) := by
    cases opens with
    | false => exact ⟨"'INTEND'", by decide, rfl, by simp [markerLine]⟩
    | true => exact ⟨"'INTORG'", by decide, rfl, by simp [markerLine]⟩
  have hfields : fields (' ' :: ' ' :: ' ' :: (("MARKER" ++ natText n).toList
      ++ ' ' :: (List.replicate 5 ' ' ++ ("'MARKER'".toList
        ++ ' ' :: (List.replicate 5 ' ' ++ word.toList))))) =
      ["MARKER" ++ natText n, "'MARKER'", word] := by
    simp only [fields_space, fields_spaces, (isWord_marker n).fields_space, hmarker.fields_space,
      hword.fields]
  rw [htext, line_space s hfields]
  simp [State.data, State.column, hs, hmeaning]

def BoundKind.number? : BoundKind → Option String
  | .lower n | .upper n => some n
  | _ => none

theorem line_bound (hs : s.part = .bounds) (hcolumn : IsWord column)
    {kind : BoundKind} (hnumber : ∀ n, kind.number? = some n → IsWord n) :
    s.line (kind.line column).toList = some { s with contents :=
      { s.contents with bounds := s.contents.bounds ++ [(column, kind)] } } := by
  have hset : IsWord "BOUND1" := by decide
  have hplain : ∀ word, IsWord word → s.line (plainBound word column).toList =
      s.data [word, "BOUND1", column] := by
    intro word hword
    have htext : (plainBound word column).toList = ' ' :: (word.toList ++ ' ' :: ("BOUND1".toList
        ++ ' ' :: (List.replicate 4 ' ' ++ column.toList))) := by simp [plainBound]
    rw [htext]
    exact line_space s (by
      rw [hword.fields_space, hset.fields_space, fields_spaces, hcolumn.fields])
  have hvalued : ∀ word n, IsWord word → IsWord n → s.line
      (" " ++ word ++ " BOUND1     " ++ padRight 10 column ++ " " ++ padLeft 12 n).toList =
      s.data [word, "BOUND1", column, n] := by
    intro word n hword hn
    have htext : (" " ++ word ++ " BOUND1     " ++ padRight 10 column ++ " "
        ++ padLeft 12 n).toList = ' ' :: (word.toList ++ ' ' :: ("BOUND1".toList
        ++ ' ' :: (List.replicate 4 ' ' ++ (column.toList
          ++ (List.replicate (10 - column.length) ' ' ++ ' ' ::
            (List.replicate (12 - n.length) ' ' ++ n.toList)))))) := by
      simp [padRight, padLeft]
    rw [htext]
    exact line_space s (by
      rw [hword.fields_space, hset.fields_space, fields_spaces, hcolumn.fields_spaces,
        fields_spaces, hn.fields])
  have hword : ∀ word ∈ ["FR", "MI", "PL", "BV", "LO", "UP"], IsWord word := by decide
  cases kind with
  | lower n =>
    have hn := hnumber n rfl
    exact (hvalued "LO" n (hword _ (by simp)) hn).trans
      (by simp [State.data, State.bound, State.boundKind?, hs])
  | upper n =>
    have hn := hnumber n rfl
    exact (hvalued "UP" n (hword _ (by simp)) hn).trans
      (by simp [State.data, State.bound, State.boundKind?, hs])
  | free | lowerOpen | upperOpen | binary =>
    simp only [BoundKind.line]
    rw [hplain _ (hword _ (by simp))]
    simp [State.data, State.bound, State.boundKind?, hs]

/-! ## Reading sections -/

namespace Contents

/-- The contents with the entries of a column. -/
def addColumn (isInteger : Bool) (x : Contents) (es : List Entry) : Contents :=
  es.foldl (addEntry isInteger) x

theorem addColumn_of_any {x : Contents} {b : Bool}
    (hes : ∀ e ∈ es, e.column = column) (hx : x.columns.any (·.1 == column) = true) :
    x.addColumn b es = { x with entries := x.entries ++ es } := by
  induction es generalizing x with
  | nil => simp [addColumn]
  | cons e es ih =>
    obtain ⟨rfl, hes⟩ := List.forall_mem_cons.1 hes
    have hadd : x.addEntry b e = { x with entries := x.entries ++ [e] } := by
      simp [addEntry, hx]
    rw [addColumn, List.foldl_cons, hadd]
    exact (ih (x := { x with entries := x.entries ++ [e] }) hes hx).trans (by simp)

/-- A column that is new comes last, if it has an entry. -/
theorem addColumn_of_new {x : Contents} {b : Bool}
    (hes : ∀ e ∈ es, e.column = column) (hx : x.columns.any (·.1 == column) = false) :
    x.addColumn b es = { x with
      columns := x.columns ++ if es.isEmpty then [] else [(column, b)]
      entries := x.entries ++ es } := by
  cases es with
  | nil => simp [addColumn]
  | cons e es =>
    obtain ⟨rfl, hes⟩ := List.forall_mem_cons.1 hes
    have hadd : x.addEntry b e = { x with
        columns := x.columns ++ [(e.column, b)], entries := x.entries ++ [e] } := by
      simp [addEntry, hx]
    rw [addColumn, List.foldl_cons, hadd]
    exact (addColumn_of_any hes (by simp)).trans (by simp)

end Contents

theorem column_of_mem_entriesOf {c : Column K} (h : e ∈ entriesOf rows c) : e.column = c.name := by
  obtain ⟨row, _, he⟩ := List.mem_filterMap.1 h
  obtain ⟨n, _, rfl⟩ := Option.map_eq_some_iff.1 he
  rfl

/-- The columns that have an entry, each with whether it holds whole numbers. -/
def writtenColumns (rows : List (Row K)) (cols : List (Column K)) : List (String × Bool) :=
  (cols.filter fun c => !(entriesOf rows c).isEmpty).map fun c => (c.name, c.isInteger)

theorem reads_entries (hs : s.part = .columns)
    (hes : ∀ e ∈ es, e.IsReadable ∧ e.row ≠ "'MARKER'") : Reads s (es.map Entry.line)
      { s with contents := s.contents.addColumn s.isInteger es } := by
  refine Reads.items (·.part = .columns)
    (fun s es => { s with contents := s.contents.addColumn s.isInteger es })
    (fun _ => rfl) (fun _ _ _ => rfl) (fun _ _ h => h) (fun s hs e he => ?_) s hs
  exact line_entry hs (hes e he).1 (hes e he).2

/-- Columns are read one by one, with the markers between them. The columns read so far are others,
and so each column that has an entry comes last when it is read. -/
theorem reads_columnLines (n : Nat) (hs : s.part = .columns)
    {cols : List (Column K)} (hnames : (cols.map (·.name)).Nodup)
    (hnew : ∀ c ∈ cols, s.contents.columns.any (·.1 == c.name) = false)
    (hreadable : ∀ c ∈ cols, ∀ e ∈ entriesOf rows c, e.IsReadable ∧ e.row ≠ "'MARKER'") :
    Reads s (columnLines rows s.isInteger n cols) { s with
      isInteger := false
      contents := { s.contents with
        columns := s.contents.columns ++ writtenColumns rows cols
        entries := s.contents.entries ++ cols.flatMap (entriesOf rows) } } := by
  induction cols generalizing n s with
  | nil =>
    simp only [columnLines, writtenColumns, List.filter_nil, List.map_nil, List.flatMap_nil,
      List.append_nil]
    split
    · exact Reads.single (line_markerLine hs n false)
    · rename_i hclosed
      simp only [Bool.not_eq_true] at hclosed
      rw [← hclosed]
      exact Reads.nil
  | cons c cols ih =>
    obtain ⟨hname, hnames⟩ := List.nodup_cons.1 hnames
    obtain ⟨hc, hnew⟩ := List.forall_mem_cons.1 hnew
    obtain ⟨hfirst, hreadable⟩ := List.forall_mem_cons.1 hreadable
    -- what follows the marker, if there is one
    have hrest : ∀ (m : Nat) {t : State}, t.part = .columns → t.isInteger = c.isInteger →
        t.contents = s.contents → Reads t
          (entryLines rows c ++ columnLines rows c.isInteger m cols) { s with
            isInteger := false
            contents := { s.contents with
              columns := s.contents.columns ++ writtenColumns rows (c :: cols)
              entries := s.contents.entries ++ (c :: cols).flatMap (entriesOf rows) } } := by
      rintro m ⟨_, _, _⟩ rfl rfl rfl
      rw [entryLines_eq]
      refine (reads_entries rfl hfirst).append ?_
      rw [Contents.addColumn_of_new (fun e he => column_of_mem_entriesOf he) hc]
      refine (ih m rfl hnames (fun d hd => ?_) hreadable).trans ?_
      · have hne : c.name ≠ d.name := fun h => hname (List.mem_map.2 ⟨d, hd, h.symm⟩)
        rw [List.any_append, hnew d hd]
        split <;> simp [hne]
      · by_cases hempty : (entriesOf rows c).isEmpty = true <;>
          simp [writtenColumns, hempty, hs]
    simp only [columnLines]
    split
    · rename_i hsame
      rw [← hsame]
      exact hrest n hs hsame.symm rfl
    · exact Reads.cons (line_markerLine hs n c.isInteger) (hrest (n + 1) hs rfl rfl)

omit [Scalar K] in
theorem reads_rows (hs : s.part = .rows)
    (hrows : ∀ row ∈ rows, IsWord row.name) : Reads s (rows.map rowLine) { s with contents :=
      { s.contents with rows := s.contents.rows ++ rows.map Row.shown } } := by
  refine Reads.items (·.part = .rows) (fun s rows => { s with contents :=
    { s.contents with rows := s.contents.rows ++ rows.map Row.shown } })
    (by simp) (by simp) (fun _ _ h => h) (fun s hs row hrow => ?_) s hs
  exact line_rowLine hs (hrows row hrow)

theorem reads_constants (hs : s.part = .constants) {cs : List (String × String)}
    (hcs : ∀ c ∈ cs, Entry.IsReadable ⟨"RHS1", c.1, c.2⟩) :
    Reads s (cs.map fun c => Entry.line ⟨"RHS1", c.1, c.2⟩) { s with contents :=
      { s.contents with constants := s.contents.constants ++ cs } } := by
  refine Reads.items (·.part = .constants) (fun s cs => { s with contents :=
    { s.contents with constants := s.contents.constants ++ cs } })
    (by simp) (by simp) (fun _ _ h => h) (fun s hs c hc => ?_) s hs
  exact line_constant hs (hcs c hc)

/-- A bound whose parts can stand as fields. -/
structure IsReadableBound (b : String × BoundKind) : Prop where
  column : IsWord b.1
  number : ∀ n, b.2.number? = some n → IsWord n

theorem reads_bounds (hs : s.part = .bounds) {bs : List (String × BoundKind)}
    (hbs : ∀ b ∈ bs, IsReadableBound b) :
    Reads s (bs.map fun b => b.2.line b.1) { s with contents :=
      { s.contents with bounds := s.contents.bounds ++ bs } } := by
  refine Reads.items (·.part = .bounds) (fun s bs => { s with contents :=
    { s.contents with bounds := s.contents.bounds ++ bs } })
    (by simp) (by simp) (fun _ _ h => h) (fun s hs b hb => ?_) s hs
  exact line_bound hs (hbs b hb).column (hbs b hb).number

/-! ## Whole files -/

theorem line_header (s : State) {l : String} (hl : IsWord l) : s.line l.toList = s.header [l] := by
  obtain ⟨c, cs, hcs⟩ := List.exists_cons_of_ne_nil hl.nonempty
  have hc : c.isWhitespace = false := hl.unbroken c (by simp [hcs])
  have hfields := hl.fields
  rw [hcs] at hfields ⊢
  simp [State.line, hc, hfields]

theorem line_name (s : State) {name : String} (hname : IsWord name) :
    s.line ("NAME          " ++ name).toList =
      some { s with contents := { s.contents with name } } := by
  have hword : IsWord "NAME" := by decide
  have hfields : fields ("NAME          " ++ name).toList = ["NAME", name] := by
    have htext : ("NAME          " ++ name).toList =
        "NAME".toList ++ ' ' :: (List.replicate 9 ' ' ++ name.toList) := by simp
    rw [htext, hword.fields_space, fields_spaces, hname.fields]
  obtain ⟨cs, hcs⟩ : ∃ cs, ("NAME          " ++ name).toList = 'N' :: cs := by simp
  rw [hcs] at hfields ⊢
  simp [State.line, hfields, State.header, show 'N'.isWhitespace = false from rfl]

/-- The parts of a file that can be read back: names and numbers can stand as fields, no row is
called like a marker, and columns have different names. -/
structure IsReadableFile (name : String) (rows : List (Row K)) (cols : List (Column K))
    (bounds : List (String × BoundKind)) : Prop where
  name : IsWord name
  rows : ∀ row ∈ rows, IsWord row.name ∧ row.name ≠ "'MARKER'"
  columns : ∀ c ∈ cols, IsWord c.name
  distinct : (cols.map (·.name)).Nodup
  bounds : ∀ b ∈ bounds, IsReadableBound b
  numbers : ∀ x : K, IsWord (Scalar.exchangeText x)

/-- What a written file holds. -/
def contentsOf (name : String) (rows : List (Row K)) (cols : List (Column K))
    (bounds : List (String × BoundKind)) : Contents where
  name := name
  rows := rows.map Row.shown
  columns := writtenColumns rows cols
  entries := cols.flatMap (entriesOf rows)
  constants := constantsOf rows
  bounds := bounds

section

variable {name : String} {rows : List (Row K)} {cols : List (Column K)}
  {bounds : List (String × BoundKind)}

theorem isWord_of_written (hnumbers : ∀ x : K, IsWord (Scalar.exchangeText x)) {x : K} {n : String}
    (h : written x = some n) : IsWord n := by
  simp only [written] at h
  split at h
  · cases h
  · exact Option.some.inj h ▸ hnumbers x

theorem IsReadableFile.entries (h : IsReadableFile name rows cols bounds) {c : Column K}
    (hc : c ∈ cols) (he : e ∈ entriesOf rows c) : e.IsReadable ∧ e.row ≠ "'MARKER'" := by
  obtain ⟨row, hrow, he⟩ := List.mem_filterMap.1 he
  obtain ⟨n, hn, rfl⟩ := Option.map_eq_some_iff.1 he
  obtain ⟨x, _, hx⟩ := Option.bind_eq_some_iff.1 hn
  exact ⟨⟨h.columns c hc, (h.rows row hrow).1, isWord_of_written h.numbers hx⟩,
    (h.rows row hrow).2⟩

theorem IsReadableFile.constants (h : IsReadableFile name rows cols bounds)
    {c : String × String} (hc : c ∈ constantsOf rows) : Entry.IsReadable ⟨"RHS1", c.1, c.2⟩ := by
  obtain ⟨row, hrow, hc⟩ := List.mem_filterMap.1 hc
  obtain ⟨n, hn, rfl⟩ := Option.map_eq_some_iff.1 hc
  exact ⟨show IsWord "RHS1" by decide, (h.rows row hrow).1, isWord_of_written h.numbers hn⟩

/-- The sections of a written file are read one after another. -/
theorem IsReadableFile.reads (h : IsReadableFile name rows cols bounds) :
    Reads {} (fileLines name rows cols (bounds.map fun b => b.2.line b.1))
      { part := .ended, contents := contentsOf name rows cols bounds } := by
  simp only [fileLines, List.append_assoc]
  refine Reads.append (Reads.cons (line_name _ h.name)
    (Reads.single (line_header _ (by decide)))) ?_
  refine Reads.append (reads_rows rfl fun row hrow => (h.rows row hrow).1) ?_
  refine Reads.append (Reads.single (line_header _ (by decide))) ?_
  refine Reads.append (reads_columnLines 0 rfl h.distinct (by simp) fun c hc e he =>
    h.entries hc he) ?_
  refine Reads.append (Reads.single (line_header _ (by decide))) ?_
  rw [constantLines_eq]
  refine Reads.append (reads_constants rfl fun c hc => h.constants hc) ?_
  refine Reads.append (Reads.single (line_header _ (by decide))) ?_
  refine Reads.append (reads_bounds rfl h.bounds) ?_
  exact Reads.single (line_header _ (by decide))

theorem unbroken_noBreak {cs : List Char} (h : Unbroken cs) : '\n' ∉ cs := fun hmem =>
  absurd (h _ hmem) (by decide)

theorem Entry.IsReadable.noBreak (he : e.IsReadable) : '\n' ∉ e.line.toList := by
  simp [Entry.line, padRight, padLeft, unbroken_noBreak he.column.unbroken,
    unbroken_noBreak he.row.unbroken, unbroken_noBreak he.number.unbroken]

theorem IsReadableBound.noBreak {b : String × BoundKind} (hb : IsReadableBound b) :
    '\n' ∉ (b.2.line b.1).toList := by
  obtain ⟨column, kind⟩ := b
  have hcolumn := unbroken_noBreak hb.column.unbroken
  cases kind with
  | lower n | upper n =>
    have hn := unbroken_noBreak (hb.number n rfl).unbroken
    simp [BoundKind.line, padRight, padLeft, hcolumn, hn]
  | free | lowerOpen | upperOpen | binary => simp [BoundKind.line, plainBound, hcolumn]

theorem markerLine_noBreak (n : Nat) (opens : Bool) : '\n' ∉ (markerLine n opens).toList := by
  have hdigits := unbroken_noBreak (unbroken_toDigits n)
  cases opens <;> simp [markerLine, natText, hdigits]

theorem columnLines_noBreak {inBlock : Bool} {n : Nat}
    (h : ∀ c ∈ cols, ∀ e ∈ entriesOf rows c, e.IsReadable) :
    ∀ l ∈ columnLines rows inBlock n cols, '\n' ∉ l.toList := by
  induction cols generalizing inBlock n with
  | nil =>
    intro l hl
    simp only [columnLines] at hl
    split at hl
    · exact List.mem_singleton.1 hl ▸ markerLine_noBreak n false
    · cases hl
  | cons c cols ih =>
    obtain ⟨hc, h⟩ := List.forall_mem_cons.1 h
    have hentries : ∀ l ∈ entryLines rows c, '\n' ∉ l.toList := by
      rw [entryLines_eq]
      exact List.forall_mem_map.2 fun e he => (hc e he).noBreak
    simp only [columnLines]
    split
    · exact List.forall_mem_append.2 ⟨hentries, ih h⟩
    · rw [List.cons_append]
      exact List.forall_mem_cons.2 ⟨markerLine_noBreak n _,
        List.forall_mem_append.2 ⟨hentries, ih h⟩⟩

omit [Scalar K] in
theorem rowLine_noBreak {row : Row K} (h : IsWord row.name) : '\n' ∉ (rowLine row).toList := by
  have hname := unbroken_noBreak h.unbroken
  simp only [rowLine]
  cases row.relation with
  | none => simp [hname]
  | some op => cases op <;> simp [rowType, hname]

theorem IsReadableFile.noBreak (h : IsReadableFile name rows cols bounds) :
    ∀ l ∈ fileLines name rows cols (bounds.map fun b => b.2.line b.1), '\n' ∉ l.toList := by
  have hname := unbroken_noBreak h.name.unbroken
  have hcolumns : ∀ l ∈ columnLines rows false 0 cols, '\n' ∉ l.toList :=
    columnLines_noBreak fun c hc e he => (h.entries hc he).1
  have hsections : ∀ l ∈ ["ROWS", "COLUMNS", "RHS", "BOUNDS", "ENDATA"], '\n' ∉ l.toList := by
    decide
  simp only [fileLines, constantLines_eq, List.mem_append, List.mem_cons, List.mem_map,
    List.not_mem_nil, or_false, or_assoc]
  rintro l (rfl | rfl | ⟨row, hrow, rfl⟩ | rfl | hl | rfl | ⟨c, hc, rfl⟩ | rfl | ⟨b, hb, rfl⟩ | rfl)
  · simp [hname]
  · exact hsections _ (by simp)
  · exact rowLine_noBreak (h.rows row hrow).1
  · exact hsections _ (by simp)
  · exact hcolumns l hl
  · exact hsections _ (by simp)
  · exact (h.constants hc).noBreak
  · exact hsections _ (by simp)
  · exact (h.bounds b hb).noBreak
  · exact hsections _ (by simp)

/-- A written file is read back. -/
theorem IsReadableFile.read (h : IsReadableFile name rows cols bounds) :
    read? (String.join ((fileLines name rows cols (bounds.map fun b => b.2.line b.1)).map
      (· ++ "\n"))) = some (contentsOf name rows cols bounds) := by
  have hreads := h.reads
  rw [read?, linesOf_join h.noBreak, List.foldlM_append, hreads]
  rfl

end

end LinearModel.Mps
