import LinearModel.Proofs.DoubleParts
import LinearModel.Proofs.Doubles
import LinearModel.Proofs.ExchangeFile

/-!
# Exchange files and the matrix form

The matrix form and the exchange file are made of the same numbers, evaluated in different orders.
Whatever has been evaluated evaluates to the same again, so the file that is written after a matrix
form has been taken holds the numbers of the matrix form. Numbers that count as zero are left out of
the file, and so are limits that a reader assumes anyway.
-/
namespace LinearModel

open Run MatrixForm Table Simulation

variable {K : Type} [Scalar K]

namespace Mps

/-- The matrix form that numbers make up. -/
def Numbers.matrix (n : Numbers K) (p : Problem K) (o : Objective K) : MatrixForm K where
  columns := p.model.variableNames
  rows := p.model.equations.map (·.identifier)
  coefficients := n.equations.map fun v => denseRow p.model.variableNames v.1
  constants := n.equations.map (·.2)
  relations := p.model.equations.map (·.op)
  objective := denseRow p.model.variableNames n.objective.1
  objectiveConstant := n.objective.2
  lower := n.bounds.map (·.1)
  upper := n.bounds.map (·.2)
  isMaximized := o.sense == .maximize

/-! ## Numbers that were evaluated once -/

section

variable (hself : ∀ {v w : Value K}, (v == w) = true → (w == w) = true)

include hself

theorem evaluateForm_repeats (cs : Table String (Expr K)) (c : Expr K) :
    repeating.rel (evaluateForm cs c) (evaluateForm cs c) :=
  Simulation.evaluateForm (fun e => e.evaluate_repeats hself _) cs c

theorem boundsOf_repeats (p : Problem K) (n : String) :
    repeating.rel (boundsOf p n) (boundsOf p n) := by
  simp only [boundsOf]
  cases p.declarationOf n with
  | none => exact repeating.ret _
  | some v => exact bounds (R := .repeating) (fun e => e.evaluate_repeats hself _) v

/-- The numbers of a matrix form are evaluated again when a file is written. -/
theorem numbersOf_ofProblem {p : Problem K} {o : Objective K} {s s' : Store K} {m : MatrixForm K}
    (ho : p.model.objective = some o) (hs : s.registry.Keyed)
    (h : (ofProblem p).Returns s m s') : ∃ n : Numbers K, m = n.matrix p o ∧
      n.equations.length = p.model.equations.length ∧
      n.bounds.length = p.model.variableNames.length ∧
      ∀ t, s'.registry.KeptIn t → (numbersOf p o).Repeats t n := by
  obtain ⟨_, values, objective, bounds, s₁, s₂, hvalues, hobjective, hbounds, rfl⟩ :=
    returns_ofProblem h
  rw [ho] at hobjective
  obtain ⟨v, hv, rfl⟩ := returns_bind_pure.1 hobjective
  obtain ⟨h₁, hvalues⟩ := ensures_mapM p.model.equations
    (fun q => evaluateForm_repeats hself q.coefficients q.constant) hs hvalues
  have hs₁ := hs.kept h₁
  obtain ⟨h₂, hv⟩ := evaluateForm_repeats hself o.coefficients o.constant hs₁ hv
  obtain ⟨h₃, hbounds⟩ := ensures_mapM p.model.variableNames (boundsOf_repeats hself p)
    (hs₁.kept h₂) hbounds
  refine ⟨⟨v, values, bounds⟩, ?_, (hvalues (h₂.trans h₃)).length_eq.symm,
    (hbounds (.refl _)).length_eq.symm, fun t ht => ?_⟩
  · simp [Numbers.matrix, ho]
  · refine (hv (h₃.trans ht)).bind fun u hu => ?_
    refine (repeats_mapM fun u' hu' => hvalues ?_).bind fun v' hv' => ?_
    · exact (h₂.trans h₃).trans (ht.trans (hu.trans hu'))
    refine (repeats_mapM fun u' hu' => hbounds ?_).bind fun _ _ => repeats_pure
    exact ht.trans (hu.trans (hv'.trans hu'))

end

/-! ## Contents that encode a matrix form -/

/-- How a number appears in a file: not at all if it counts as zero. -/
def appearance (shown x : Float) : List String :=
  if Scalar.isZero x then [] else [Scalar.exchangeText shown]

/-- The limits that show bounds: one at its end of the line is missing, and a lower one of zero has
no sign. -/
def shownLimits (lower upper : Float) : Limits where
  lower :=
    if Scalar.eq lower (-Scalar.infinity) then none
    else some (if Scalar.eq lower Scalar.zero then "0" else Scalar.exchangeText lower)
  upper := if Scalar.eq upper Scalar.infinity then none else some (Scalar.exchangeText upper)

/-- The contents of a file encode a matrix form: they have a row for the objective and one for each
equation, a column for each variable, and the numbers of the matrix form at them. -/
structure Contents.Encodes (x : Contents) (p : Problem Float) (m : MatrixForm Float)
    (objective : String) (rows columns : List String) : Prop where
  distinctRows : (objective :: rows).Nodup
  distinctColumns : columns.Nodup
  rowCount : rows.length = m.relations.length
  columnCount : columns.length = m.columns.length
  rowKinds : x.rows = (objective, .free) :: rows.zip (m.relations.map .ofRelation)
  columnKinds : x.columns = columns.zip
    (m.columns.map fun n => (p.declarationOf n).any (·.isInteger))
  entries : ∀ r ∈ rows.zip m.coefficients, ∀ c ∈ columns.zip r.2,
    x.numbersAt c.1 r.1 = appearance c.2 c.2
  goal : ∀ c ∈ columns.zip m.objective,
    x.numbersAt c.1 objective = appearance (if m.isMaximized then -c.2 else c.2) c.2
  nothingElse : ∀ e ∈ x.entries, e.column ∈ columns ∧ e.row ∈ objective :: rows
  constants : ∀ r ∈ rows.zip m.constants, x.constantsAt r.1 = appearance r.2 r.2
  goalConstant : x.constantsAt objective =
    appearance (if m.isMaximized then m.objectiveConstant else -m.objectiveConstant)
      m.objectiveConstant
  limits : ∀ c ∈ columns.zip (m.lower.zip m.upper), x.limitsOf c.1 = shownLimits c.2.1 c.2.2

/-- The limits that are written for bounds show them. -/
theorem limits_boundKinds {type : TypeName} {lower upper : Float}
    (hlower : Scalar.eq lower Scalar.infinity = false)
    (hupper : Scalar.eq upper (-Scalar.infinity) = false) :
    (boundKinds type lower upper).foldl BoundKind.apply {} = shownLimits lower upper := by
  have hzero : Scalar.eq lower Scalar.zero = true →
      Scalar.eq lower (-Scalar.infinity) = false := by
    intro h
    obtain rfl | ⟨⟨s, hs⟩, -⟩ := double_eq_or_zeros h
    · decide +kernel
    · change lower.toModel.unpack.beq _ = false
      rw [hs]
      rfl
  have hone : Scalar.eq upper Scalar.one = true → upper = Scalar.one := by
    intro h
    refine (double_eq_or_zeros h).resolve_right ?_
    rintro ⟨-, s, hs⟩
    cases hs
  have htext : "1" = Scalar.exchangeText (Scalar.one : Float) := by decide +kernel
  simp only [boundKinds, shownLimits, Scalar.isInfinite, hlower, hupper, Bool.false_or,
    Bool.or_false]
  by_cases hbinary : (type = .boolean && Scalar.eq lower Scalar.zero
      && Scalar.eq upper Scalar.one) = true
  · rw [if_pos hbinary]
    simp only [Bool.and_eq_true] at hbinary
    obtain ⟨⟨-, hl⟩, hu⟩ := hbinary
    have hfinite : Scalar.eq (Scalar.one : Float) Scalar.infinity = false := by decide +kernel
    rw [hzero hl, hl, hone hu, hfinite, ← htext]
    rfl
  · rw [if_neg hbinary]
    cases hl : Scalar.eq lower (-Scalar.infinity) <;> cases hu : Scalar.eq upper Scalar.infinity <;>
      cases hz : Scalar.eq lower Scalar.zero <;> simp_all [BoundKind.apply]

theorem toList_written (x : Float) : (written x).toList = appearance x x := by
  simp only [written, appearance]
  split <;> rfl

theorem sign_mul (o : Objective Float) (x : Float) :
    sign o * x = if o.sense == .maximize then -x else x := by
  cases ho : o.sense with
  | minimize =>
    simp only [sign, ho, reduceCtorEq, if_false]
    exact double_one_mul x
  | maximize =>
    simp only [sign, ho, if_true]
    exact double_neg_one_mul x

theorem neg_sign_mul (o : Objective Float) (x : Float) :
    -sign o * x = if o.sense == .maximize then x else -x := by
  cases ho : o.sense with
  | minimize =>
    have hneg : -(Scalar.ofInt 1 : Float) = Scalar.ofInt (-1) := rfl
    simp only [sign, ho, reduceCtorEq, if_false, hneg]
    exact double_neg_one_mul x
  | maximize =>
    have hneg : -(Scalar.ofInt (-1) : Float) = Scalar.ofInt 1 := rfl
    simp only [sign, ho, if_true, hneg]
    exact double_one_mul x

/-- A number and its opposite are left out alike. -/
theorem appearance_self {shown x : Float} (h : shown = x ∨ shown = -x) :
    appearance shown shown = appearance shown x := by
  obtain rfl | rfl := h
  · rfl
  · simp only [appearance, isZero_neg]

/-- A coefficient that is missing counts as zero. -/
theorem written_findIn (v : String) (cs : List (String × Float)) :
    (findIn v cs).bind written = written ((findIn v cs).getD Scalar.zero) := by
  cases findIn v cs with
  | none =>
    have hzero : Scalar.isZero (Scalar.zero : Float) = true := by decide +kernel
    simp [written, hzero]
  | some x => rfl

theorem findIn_map (f : Float → Float) (v : String) (cs : List (String × Float)) :
    findIn v (cs.map fun e => (e.1, f e.2)) = (findIn v cs).map f := by
  induction cs with
  | nil => rfl
  | cons e cs ih =>
    simp only [List.map_cons, findIn]
    split
    · rfl
    · exact ih

/-- A coefficient of the objective appears with the sign that makes it one to be minimized. -/
theorem written_objective (o : Objective Float) (v : String) (cs : List (String × Float)) :
    ((findIn v (cs.map fun e => (e.1, sign o * e.2))).bind written).toList =
      let x := (findIn v cs).getD Scalar.zero
      appearance (if o.sense == .maximize then -x else x) x := by
  rw [findIn_map]
  cases findIn v cs with
  | none =>
    have hzero : Scalar.isZero (Scalar.zero : Float) = true := by decide +kernel
    simp [appearance, hzero]
  | some x =>
    simp only [Option.map_some, Option.bind_some, Option.getD_some, toList_written, sign_mul]
    exact appearance_self (by split <;> simp)

section Encoding

variable {p : Problem Float} {o : Objective Float} {n : Numbers Float} {col : Column Float}

theorem length_rowNames : (rowNames p o).length = p.model.equations.length := by
  simp [rowNames, length_uniqueNames, rowTitles]

theorem map_name_rows (hequations : n.equations.length = p.model.equations.length) :
    (n.rows p o).map (·.name) =
      String.ofList (objectiveName o) :: (rowNames p o).map String.ofList := by
  simp only [Numbers.rows, List.map_cons, goalRow, ruleRows]
  congr 1
  refine List.ext_getElem (by simp [length_rowNames, hequations]) fun i h _ => ?_
  simp [ruleRow]

/-- The rows hold the numbers of the objective, with its sign, and of the equations. -/
theorem map_coefficients_rows (hequations : n.equations.length = p.model.equations.length) :
    (n.rows p o).map (·.coefficients) =
      n.objective.1.map (fun e => (e.1, sign o * e.2)) :: n.equations.map (·.1) := by
  simp only [Numbers.rows, List.map_cons, goalRow, ruleRows]
  congr 1
  refine List.ext_getElem (by simp [length_rowNames, hequations]) fun i h _ => ?_
  simp [ruleRow]

/-- A column has entries exactly if the objective or an equation has a number for it that does not
count as zero. -/
theorem entriesOf_rows (hequations : n.equations.length = p.model.equations.length) :
    entriesOf (n.rows p o) col ≠ [] ↔ ∃ v ∈ n.objective :: n.equations,
      ∃ x, findIn col.dvar v.1 = some x ∧ Scalar.isZero x = false := by
  have hsign : ∀ x : Float, Scalar.isZero (sign o * x) = Scalar.isZero x := by
    intro x
    rw [sign_mul]
    split <;> simp only [isZero_neg]
  rw [entriesOf_ne_nil_iff, map_coefficients_rows hequations]
  simp [findIn_map, hsign]

theorem nodup_rows (hequations : n.equations.length = p.model.equations.length) :
    ((n.rows p o).map (·.name)).Nodup := by
  rw [map_name_rows hequations]
  have hnames : (objectiveName o :: rowNames p o).Nodup := by
    refine List.nodup_cons.2 ⟨fun h => ?_, nodup_uniqueNames _ _⟩
    exact not_mem_used_of_mem_uniqueNames h List.mem_cons_self
  exact nodup_ofList hnames

/-- The row of an equation stands among the rows. -/
theorem exists_ruleRow {name : List Char} {v : List (String × Float) × Float}
    (h : (name, v) ∈ (rowNames p o).zip n.equations) : ∃ q, ruleRow (name, q) v ∈ n.rows p o := by
  obtain ⟨i, hi, heq⟩ := List.mem_iff_getElem.1 h
  rw [List.length_zip, Nat.lt_min, length_rowNames] at hi
  obtain ⟨rfl, rfl⟩ := Prod.mk.inj heq
  refine ⟨p.model.equations[i], List.mem_cons_of_mem _ (List.mem_iff_getElem.2 ⟨i, ?_, ?_⟩)⟩
  · simp [ruleRows, length_rowNames, hi]
  · simp [ruleRows]

/-- What stands in a dense row at a column. -/
theorem exists_column {cs : List (String × Float)} {c : String × Float}
    (h : c ∈ ((columns p).map (·.name)).zip (denseRow p.model.variableNames cs)) :
    ∃ col ∈ columns p, col.name = c.1 ∧ (findIn col.dvar cs).getD Scalar.zero = c.2 := by
  rw [denseRow, ← map_dvar_columns, List.map_map, List.zip_map'] at h
  obtain ⟨col, hcol, rfl⟩ := List.mem_map.1 h
  exact ⟨col, hcol, rfl, rfl⟩

/-- The number at a column and a row. -/
theorem numbersAt_contents (hequations : n.equations.length = p.model.equations.length)
    (hcol : col ∈ columns p) {row : Row Float} (hrow : row ∈ n.rows p o) :
    (contents p o n).numbersAt col.name row.name =
      (written ((findIn col.dvar row.coefficients).getD Scalar.zero)).toList := by
  rw [← written_findIn]
  exact numbersAt_contentsOf (nodup_rows hequations) (nodup_columns p) hcol hrow

/-- The contents of a file encode the matrix form of its numbers. -/
theorem contents_encodes (hequations : n.equations.length = p.model.equations.length)
    (hbounds : n.bounds.length = p.model.variableNames.length)
    (hentries : ∀ c ∈ columns p, entriesOf (n.rows p o) c ≠ [])
    (hlower : ∀ b ∈ n.bounds, Scalar.eq b.1 Scalar.infinity = false)
    (hupper : ∀ b ∈ n.bounds, Scalar.eq b.2 (-Scalar.infinity) = false) :
    (contents p o n).Encodes p (n.matrix p o) (String.ofList (objectiveName o))
      ((rowNames p o).map String.ofList) ((columns p).map (·.name)) := by
  have hrows := nodup_rows (p := p) (o := o) hequations
  have hcolumns := nodup_columns p
  have hgoal : goalRow o n.objective ∈ n.rows p o := List.mem_cons_self
  constructor
  case distinctRows => exact map_name_rows hequations ▸ hrows
  case distinctColumns => exact hcolumns
  case rowCount => simp [Numbers.matrix, length_rowNames]
  case columnCount => simp [Numbers.matrix, ← map_dvar_columns]
  case rowKinds =>
    simp only [contents, contentsOf, Numbers.rows, List.map_cons, Numbers.matrix]
    congr 1
    refine List.ext_getElem (by simp [ruleRows, length_rowNames, hequations]) fun i h _ => ?_
    simp [ruleRows, ruleRow, Row.shown]
  case columnKinds =>
    have hall : (columns p).filter (fun c => !(entriesOf (n.rows p o) c).isEmpty) = columns p :=
      List.filter_eq_self.2 fun c hc => by simpa using hentries c hc
    simp only [contents, contentsOf, writtenColumns, hall, Numbers.matrix, ← map_dvar_columns,
      List.map_map, List.zip_map']
    refine List.map_congr_left fun c hc => ?_
    simp [Column.isInteger, declaration_of_mem_columns hc]
  case entries =>
    intro r hr c hc
    simp only [Numbers.matrix, List.zip_map] at hr
    obtain ⟨⟨name, v⟩, hmem, rfl⟩ := List.mem_map.1 hr
    obtain ⟨q, hrow⟩ := exists_ruleRow hmem
    obtain ⟨col, hcol, hname, hnumber⟩ := exists_column hc
    rw [← hname, ← hnumber, ← toList_written]
    exact numbersAt_contents hequations hcol hrow
  case goal =>
    intro c hc
    obtain ⟨col, hcol, hname, hnumber⟩ := exists_column hc
    rw [← hname, ← hnumber]
    exact (numbersAt_contentsOf hrows hcolumns hcol hgoal).trans (written_objective o _ _)
  case nothingElse =>
    intro e he
    rw [← map_name_rows hequations]
    exact ⟨column_of_mem_entries he, row_of_mem_entries he⟩
  case constants =>
    intro r hr
    simp only [Numbers.matrix, List.zip_map] at hr
    obtain ⟨⟨name, v⟩, hmem, rfl⟩ := List.mem_map.1 hr
    obtain ⟨q, hrow⟩ := exists_ruleRow hmem
    rw [← toList_written]
    exact constantsAt_contentsOf hrows hrow
  case goalConstant =>
    refine (constantsAt_contentsOf hrows hgoal).trans ?_
    rw [toList_written, goalRow, neg_sign_mul]
    exact appearance_self (by split <;> simp [Numbers.matrix])
  case limits =>
    intro c hc
    have hpairs : (n.bounds.map (·.1)).zip (n.bounds.map (·.2)) = n.bounds := by
      simp [List.zip_map']
    simp only [Numbers.matrix, hpairs, List.zip_map_left] at hc
    obtain ⟨⟨col, b⟩, hmem, rfl⟩ := List.mem_map.1 hc
    have hb := (List.of_mem_zip hmem).2
    simp only [Prod.map, id]
    rw [← limits_boundKinds (hlower b hb) (hupper b hb)]
    exact limitsOf_contents hbounds hmem

/-- What stands in a dense row and does not count as zero is a coefficient. -/
theorem findIn_of_denseRow {cs : List (String × Float)} {j : ℕ} {a : Float}
    (hcol : (columns p)[j]? = some col) (ha : Scalar.isZero a = false)
    (h : (denseRow p.model.variableNames cs)[j]? = some a) : findIn col.dvar cs = some a := by
  rw [denseRow, ← map_dvar_columns, List.map_map, List.getElem?_map, hcol] at h
  simp only [Option.map_some, Function.comp_apply, Option.some.injEq] at h
  cases hfind : findIn col.dvar cs with
  | none =>
    rw [hfind, Option.getD_none] at h
    subst h
    exact absurd ha (by decide +kernel)
  | some x => rw [← h, hfind, Option.getD_some]

/-- A column whose numbers do not all count as zero has entries. -/
theorem entriesOf_ne_nil (hequations : n.equations.length = p.model.equations.length) {j : ℕ}
    (hcol : (columns p)[j]? = some col)
    (h : ∃ row ∈ (n.matrix p o).objective :: (n.matrix p o).coefficients,
      ∃ a, row[j]? = some a ∧ Scalar.isZero a = false) : entriesOf (n.rows p o) col ≠ [] := by
  obtain ⟨row, hrow, a, hat, ha⟩ := h
  obtain ⟨v, hv, rfl⟩ : ∃ v ∈ n.objective :: n.equations,
      denseRow p.model.variableNames v.1 = row := by
    simpa [Numbers.matrix, eq_comm] using hrow
  exact (entriesOf_rows hequations).2 ⟨v, hv, a, findIn_of_denseRow hcol ha hat, ha⟩

end Encoding

/-- A matrix form is taken of a problem with an objective, in which no column is made of numbers
that count as zero, no lower bound is infinite and no upper bound is negatively infinite. Then a
file can be written, and what is read back from it encodes the matrix form. -/
theorem file_encodes {p : Problem Float} {ws ws' : List String} {m : MatrixForm Float}
    {s' : Store Float} {t : Registry Float} (hp : p.Reached)
    (ho : p.model.objective.isSome = true)
    (hm : (ofProblem p).Returns ⟨p.registry, ws⟩ m s') (ht : s'.registry.KeptIn t)
    (hcolumns : ∀ j < m.columns.length, ∃ row ∈ m.objective :: m.coefficients, ∃ a,
      row[j]? = some a ∧ Scalar.isZero a = false)
    (hlower : ∀ l ∈ m.lower, Scalar.eq l Scalar.infinity = false)
    (hupper : ∀ u ∈ m.upper, Scalar.eq u (-Scalar.infinity) = false) :
    ∃ text s'' x objective rows columns, (file p).Returns ⟨t, ws'⟩ text s'' ∧
      read? text = some x ∧ x.Encodes p m objective rows columns := by
  obtain ⟨o, ho⟩ := Option.isSome_iff_exists.1 ho
  have hbuilt := (returns_ofProblem hm).1
  obtain ⟨n, rfl, hequations, hbounds, hnumbers⟩ :=
    numbersOf_ofProblem Value.beq_self ho (hp.keyed Value.beq_self) hm
  obtain ⟨s'', hreturns, -⟩ := hnumbers t ht ws'
  refine ⟨layOut p o n, s'', contents p o n, _, _, _, ?_,
    read_layOut Decimal.significantText_isWord p o n,
    contents_encodes hequations hbounds (fun c hc => ?_) (fun b hb => hlower _ ?_)
      fun b hb => hupper _ ?_⟩
  · rw [file_eq hbuilt ho (hp.isRegular.declared hbuilt)]
    exact returns_bind.2 ⟨_, _, hreturns, returns_pure.2 ⟨rfl, rfl⟩⟩
  · obtain ⟨j, hj⟩ := List.mem_iff_getElem?.1 hc
    refine entriesOf_ne_nil hequations hj (hcolumns j ?_)
    have hlt := (List.getElem?_eq_some_iff.1 hj).1
    simpa [Numbers.matrix, ← map_dvar_columns] using hlt
  · exact List.mem_map_of_mem hb
  · exact List.mem_map_of_mem hb

/-- A plan with whole, binary and free variables, whose objective is to be maximized. -/
def mixedPlan : Work Float Unit :=
  Work.addScript false "float w = 2.5; range I = 1..2; dvar int x[I] in 1..4; dvar boolean b;
    dvar float y; maximize w*x[1] - y + 5; forall(i in I) c: x[i] + b <= 4; d: y == 2*x[2] + 1;"

theorem file_encodes_mixedPlan :
    ∃ (p : Problem Float) (ws : List String) (m : MatrixForm Float) (s' : Store Float), p.Reached ∧
      (ofProblem p).Returns ⟨p.registry, ws⟩ m s' ∧ m.columns = ["x1", "y", "b", "x2"] ∧
      ∃ text s'' x objective rows columns, (file p).Returns ⟨s'.registry, ws⟩ text s'' ∧
        read? text = some x ∧ x.Encodes p m objective rows columns := by
  have hrun : ((do
      mixedPlan
      Work.build
      let p ← Work.problem
      let m ← Work.ofRun (ofProblem p)
      return (m.columns, p.model.objective.isSome,
        (List.range m.columns.length).all (fun j => (m.objective :: m.coefficients).any fun row =>
          row[j]?.any fun a => !Scalar.isZero a),
        m.lower.all (fun l => !Scalar.eq l Scalar.infinity),
        m.upper.all fun u => !Scalar.eq u (-Scalar.infinity)) :
          Work Float (List String × Bool × Bool × Bool × Bool)).carry blankWorkspace).1.toOption
      = some (["x1", "y", "b", "x2"], true, true, true, true) := by
    decide +kernel
  obtain ⟨_, h⟩ := Work.returns_of_toOption hrun
  obtain ⟨_, w₀, hscript, h⟩ := Work.returns_bind.1 h
  obtain ⟨_, w, hbuild, h⟩ := Work.returns_bind.1 h
  replace h := Work.returns_problem_bind.1 h
  obtain ⟨m, _, hform, h⟩ := Work.returns_bind.1 h
  obtain ⟨s', hm, rfl⟩ := Work.returns_ofRun.1 hform
  obtain ⟨hnames, h⟩ := Prod.mk.inj (Work.returns_pure.1 h).1
  simp only [Prod.mk.injEq, List.all_eq_true, List.any_eq_true, Option.any_eq_true,
    Bool.not_eq_true', List.mem_range] at h
  obtain ⟨ho, hcolumns, hlower, hupper⟩ := h
  have hw : w.problem.Reached := .built (.script (.start none none none) hscript) hbuild
  exact ⟨w.problem, _, m, s', hw, hm, hnames,
    file_encodes hw ho hm (.refl _) hcolumns hlower hupper⟩

/-- A plan with a coefficient that is the undefined number. -/
def undefinedCoefficient : Work Float Unit :=
  Work.addScript false "float p = 1e400 - 1e400; dvar float x; dvar float y; minimize x + y;
    c: p*x + y <= 1;"

/-- Whether the first of two coefficients is not as large as the tolerance. -/
def startsSmall : List (List Float) → Bool
  | [[a, _]] => !Scalar.le Scalar.epsilon (Scalar.abs a)
  | _ => false

/-- The undefined number is not as large as the tolerance, but it does not count as zero either, so
it is written. -/
theorem undefined_coefficient_written :
    ∃ (p : Problem Float) (ws : List String) (m : MatrixForm Float) (s' s'' : Store Float)
      (text : String) (a b : Float), p.Reached ∧
      (ofProblem p).Returns ⟨p.registry, ws⟩ m s' ∧ (file p).Returns s' text s'' ∧
      m.columns = ["x", "y"] ∧ (∀ x ∈ m.objective, Scalar.le Scalar.epsilon (Scalar.abs x) = true) ∧
      (∀ l ∈ m.lower, Scalar.eq l (-Scalar.infinity) = true) ∧
      (∀ u ∈ m.upper, Scalar.eq u Scalar.infinity = true) ∧ m.coefficients = [[a, b]] ∧
      Scalar.le Scalar.epsilon (Scalar.abs a) = false ∧
      (read? text).map (·.numbersAt "x" "c") = some ["nan"] := by
  have hrun : ((do
      undefinedCoefficient
      Work.build
      let p ← Work.problem
      let m ← Work.ofRun (ofProblem p)
      let shown ← Work.ofRun (p.model.objective.mapM fun o => do
        return (contents p o (← numbersOf p o)).numbersAt "x" "c")
      return (m.columns, m.objective.all (fun x => Scalar.le Scalar.epsilon (Scalar.abs x))
          && m.lower.all (fun l => Scalar.eq l (-Scalar.infinity))
          && m.upper.all (fun u => Scalar.eq u Scalar.infinity),
        startsSmall m.coefficients, shown) :
          Work Float (List String × Bool × Bool × Option (List String))).carry
            blankWorkspace).1.toOption = some (["x", "y"], true, true, some ["nan"]) := by
    decide +kernel
  obtain ⟨_, h⟩ := Work.returns_of_toOption hrun
  obtain ⟨_, w₀, hscript, h⟩ := Work.returns_bind.1 h
  obtain ⟨_, w, hbuild, h⟩ := Work.returns_bind.1 h
  replace h := Work.returns_problem_bind.1 h
  obtain ⟨m, _, hform, h⟩ := Work.returns_bind.1 h
  obtain ⟨s', hm, rfl⟩ := Work.returns_ofRun.1 hform
  obtain ⟨shown, _, hentries, h⟩ := Work.returns_bind.1 h
  obtain ⟨s'', hshown, rfl⟩ := Work.returns_ofRun.1 hentries
  have hw : w.problem.Reached := .built (.script (.start none none none) hscript) hbuild
  obtain ⟨hnames, h⟩ := Prod.mk.inj (Work.returns_pure.1 h).1
  simp only [Prod.mk.injEq, Bool.and_eq_true, List.all_eq_true] at h
  obtain ⟨⟨⟨hobjective, hlower⟩, hupper⟩, hsmall, rfl⟩ := h
  -- the text is the layout of the numbers, and is read back as its contents
  obtain ⟨text, htext, hread⟩ : ∃ text, (file w.problem).Returns s' text s'' ∧
      (read? text).map (·.numbersAt "x" "c") = some ["nan"] := by
    cases ho : w.problem.model.objective with
    | none =>
      rw [ho] at hshown
      cases hshown
    | some o =>
      rw [ho, Option.mapM_some, map_eq_pure_bind] at hshown
      obtain ⟨ns, hns, hsome⟩ := returns_bind_pure.1 hshown
      obtain rfl := Option.some.inj hsome
      obtain ⟨n, hn, hat⟩ := returns_bind_pure.1 hns
      have hbuilt := (returns_ofProblem hm).1
      refine ⟨layOut w.problem o n, ?_, ?_⟩
      · rw [file_eq hbuilt ho (hw.isRegular.declared hbuilt)]
        exact returns_bind.2 ⟨n, _, hn, returns_pure.2 ⟨rfl, rfl⟩⟩
      · rw [read_layOut Decimal.significantText_isWord, Option.map_some, hat]
  unfold startsSmall at hsmall
  split at hsmall
  · rename_i a b hab
    exact ⟨w.problem, _, m, s', s'', text, a, b, hw, hm, htext, hnames, hobjective, hlower, hupper,
      hab, by simpa using hsmall, hread⟩
  · cases hsmall

end Mps

end LinearModel
