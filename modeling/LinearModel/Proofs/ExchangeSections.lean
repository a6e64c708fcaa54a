import LinearModel.Proofs.ExchangeMatrix

/-!
# Sections of an exchange file

The rows that entries and right-hand sides name are declared, and the entries of a column stand
together. Bounds are written for every variable of the model, entries only for numbers that do not
count as zero. A coefficient that folded to zero has been dropped from the model, but one that is
evaluated when the file is written may still turn out to count as zero. So a column with bounds has
entries exactly if one of its coefficients evaluates to a number that does not.
-/
namespace LinearModel

open Run

namespace Mps

variable {p : Problem Float} {t : Registry Float} {cs : Table String (Expr Float)}

/-! ## Entries of a column -/

/-- Between two occurrences of an item there is no other item. -/
def Contiguous (ks : List String) : Prop := ∀ a b, List.Sublist [a, b, a] ks → b = a

/-- Groups under distinct keys are contiguous. -/
theorem contiguous_flatMap {α : Type} {f : α → List String} (key : α → String) {as : List α}
    (hkey : ∀ a, ∀ k ∈ f a, k = key a) (has : (as.map key).Nodup) : Contiguous (as.flatMap f) := by
  induction as with
  | nil => exact fun x y h => by simp at h
  | cons a as ih =>
    obtain ⟨hnew, has⟩ := List.nodup_cons.1 has
    intro x y h
    rw [List.flatMap_cons, List.sublist_append_iff] at h
    obtain ⟨first, rest, hsplit, hfirst, hrest⟩ := h
    -- the first two items tell whether the second one belongs to the first group
    obtain _ | ⟨z, _ | ⟨z', first⟩⟩ := first
    · rw [List.nil_append] at hsplit
      exact ih has x y (hsplit ▸ hrest)
    · obtain ⟨rfl, rfl⟩ := List.cons.inj hsplit
      obtain ⟨a', ha', hx⟩ := List.mem_flatMap.1 (hrest.subset (a := x) (by simp))
      have hsame : key a' = key a :=
        (hkey a' x hx).symm.trans (hkey a x (hfirst.subset List.mem_cons_self))
      exact absurd (hsame ▸ List.mem_map_of_mem ha') hnew
    · simp only [List.cons_append, List.cons.injEq] at hsplit
      obtain ⟨rfl, rfl, -⟩ := hsplit
      rw [hkey a x (hfirst.subset List.mem_cons_self), hkey a y (hfirst.subset (by simp))]

theorem contiguous_contents (p : Problem Float) (o : Objective Float) (n : Numbers Float) :
    Contiguous ((contents p o n).entries.map (·.column)) := by
  have hentries : (contents p o n).entries = (columns p).flatMap (entriesOf (n.rows p o)) := rfl
  rw [hentries, List.map_flatMap]
  refine contiguous_flatMap Column.name (fun c k hk => ?_) (nodup_columns p)
  obtain ⟨e, he, rfl⟩ := List.mem_map.1 hk
  exact column_of_mem_entriesOf he

/-! ## Coefficients behind the entries -/

/-- Coefficients evaluate to numbers, in the same order. -/
def Shown (t : Registry Float) (cs : Table String (Expr Float)) (xs : List (String × Float)) :
    Prop :=
  List.Forall₂ (fun c x => c.1 = x.1 ∧ (c.2.evaluate Env.empty).Repeats t x.2) cs.toList xs

theorem evaluateForm_shown (cs : Table String (Expr Float)) (c : Expr Float) :
    (evaluateForm cs c).Ensures fun t v => Shown t cs v.1 := by
  refine EnsuresFrom.bind (ensures_mapM _ fun e => ?_) fun xs =>
    EnsuresFrom.bind (c.evaluate_repeats Value.beq_self Env.empty) fun x =>
      ensures_pure fun t _ hxs => hxs
  exact EnsuresFrom.bind (e.2.evaluate_repeats Value.beq_self Env.empty) fun x =>
    ensures_pure fun t hx => ⟨rfl, hx⟩

/-- The numbers behind a file are those of the objective and of the equations. -/
theorem numbersOf_shown (p : Problem Float) (o : Objective Float) :
    (numbersOf p o).Ensures fun t n => Shown t o.coefficients n.objective.1 ∧
      List.Forall₂ (fun q v => Shown t q.coefficients v.1) p.model.equations n.equations ∧
      n.bounds.length = p.model.variableNames.length := by
  refine EnsuresFrom.bind (evaluateForm_shown o.coefficients o.constant) fun objective =>
    EnsuresFrom.bind (ensures_mapM _ fun q => evaluateForm_shown q.coefficients q.constant)
      fun equations => EnsuresFrom.bind
        (ensures_mapM _ fun v => boundsOf_repeats Value.beq_self p v) fun bounds =>
          ensures_pure fun t hbounds hequations hobjective =>
            ⟨hobjective, hequations, hbounds.length_eq.symm⟩

/-- A coefficient and the number that it evaluates to are found under the same name. -/
theorem Shown.findIn {xs : List (String × Float)} (h : Shown t cs xs) (k : String) :
    (cs.find? k = none ∧ Table.findIn k xs = none) ∨ ∃ e x, cs.find? k = some e ∧
      Table.findIn k xs = some x ∧ (e.evaluate Env.empty).Repeats t x := by
  obtain ⟨es⟩ := cs
  simp only [Shown, Table.find?] at h ⊢
  induction h with
  | nil => exact .inl ⟨rfl, rfl⟩
  | @cons c x es xs hcx _ ih =>
    simp only [Table.findIn, ← hcx.1]
    split
    · exact .inr ⟨_, _, rfl, rfl, hcx.2⟩
    · exact ih

theorem Shown.exists_iff
    {xs : List (String × Float)} (h : Shown t cs xs) (k : String) {P : Float → Prop} :
    (∃ x, Table.findIn k xs = some x ∧ P x) ↔
      ∃ e a, cs.find? k = some e ∧ (e.evaluate Env.empty).Repeats t a ∧ P a := by
  obtain ⟨hnone, hnone'⟩ | ⟨e, x, he, hx, hrepeats⟩ := h.findIn k
  · simp [hnone, hnone']
  · simp only [he, hx, Option.some.injEq, exists_eq_left', exists_and_left]
    constructor
    · exact fun hP => ⟨x, hrepeats, hP⟩
    · rintro ⟨a, ha, hP⟩
      exact hrepeats.unique ha ▸ hP

/-- Some coefficient of a variable evaluates to a number that does not count as zero. -/
def IsWeighed (p : Problem Float) (t : Registry Float) (v : String) : Prop :=
  ∃ cs ∈ p.model.coefficientTables, ∃ e a, cs.find? v = some e ∧
    (e.evaluate Env.empty).Repeats t a ∧ Scalar.isZero a = false

/-- A column has entries exactly if its variable is weighed. -/
theorem entriesOf_ne_nil_iff_isWeighed {o : Objective Float} {n : Numbers Float}
    (ho : p.model.objective = some o) (hobjective : Shown t o.coefficients n.objective.1)
    (hequations : List.Forall₂ (fun q v => Shown t q.coefficients v.1) p.model.equations
      n.equations)
    (col : Column Float) : entriesOf (n.rows p o) col ≠ [] ↔ IsWeighed p t col.dvar := by
  have hforms : List.Forall₂ (fun cs v => Shown t cs v.1) p.model.coefficientTables
      (n.objective :: n.equations) := by
    simp only [Model.coefficientTables, ho, Option.map_some, Option.toList_some,
      List.singleton_append]
    exact .cons hobjective (List.forall₂_map_left_iff.2 hequations)
  rw [entriesOf_rows hequations.length_eq.symm, IsWeighed]
  constructor
  · rintro ⟨v, hv, hx⟩
    obtain ⟨cs, hcs, hshown⟩ := exists_of_forall₂ hforms.flip hv
    exact ⟨cs, hcs, (Shown.exists_iff hshown _).1 hx⟩
  · rintro ⟨cs, hcs, ha⟩
    obtain ⟨v, hv, hshown⟩ := exists_of_forall₂ hforms hcs
    exact ⟨v, hv, (hshown.exists_iff _).2 ha⟩

/-! ## References between the sections -/

/-- The sections of a file refer to one another: `columns` are the names of the variables. -/
structure Contents.Refers (x : Contents) (p : Problem Float) (t : Registry Float)
    (columns : List String) : Prop where
  distinctRows : (x.rows.map (·.1)).Nodup
  rowCount : x.rows.length = p.model.equations.length + 1
  distinct : columns.Nodup
  count : columns.length = p.model.variableNames.length
  entryRows : ∀ e ∈ x.entries, e.row ∈ x.rows.map (·.1)
  entryColumns : ∀ e ∈ x.entries, e.column ∈ columns
  constantRows : ∀ c ∈ x.constants, c.1 ∈ x.rows.map (·.1)
  contiguous : Contiguous (x.entries.map (·.column))
  boundColumns : ∀ b ∈ x.bounds, b.1 ∈ columns
  entered : ∀ c ∈ p.model.variableNames.zip columns,
    c.2 ∈ x.entries.map (·.column) ↔ IsWeighed p t c.1
  symbolic : ∀ c ∈ p.model.variableNames.zip columns, c.2 ∉ x.entries.map (·.column) →
    ∀ cs ∈ p.model.coefficientTables, ∀ e, cs.find? c.1 = some e → e.isNum = false

theorem column_of_mem_boundsWritten {bs : List (Float × Float)} {b : String × BoundKind}
    (h : b ∈ boundsWritten p bs) : b.1 ∈ (columns p).map (·.name) := by
  simp only [boundsWritten, ← List.map_uncurry_zip_eq_zipWith, List.mem_flatten, List.mem_map] at h
  obtain ⟨_, ⟨⟨c, l, u⟩, hmem, rfl⟩, hb⟩ := h
  obtain ⟨kind, hkind, rfl⟩ := List.mem_map.1 hb
  exact List.mem_map_of_mem (List.of_mem_zip hmem).1

/-- A column is named by entries exactly if it has some. -/
theorem mem_columns_iff {o : Objective Float} {n : Numbers Float} {col : Column Float}
    (hcol : col ∈ columns p) :
    col.name ∈ (contents p o n).entries.map (·.column) ↔ entriesOf (n.rows p o) col ≠ [] := by
  have hfilter : ((contents p o n).entries.filter fun e => e.column = col.name) =
      entriesOf (n.rows p o) col := filter_entries_of_column (nodup_columns p) hcol
  rw [← hfilter, ne_eq, List.filter_eq_nil_iff]
  simp

/-- A file is written of problems that have been built and have an objective. -/
theorem isBuilt_of_returns {s s' : Store Float} {text : String} (h : (file p).Returns s text s') :
    p.isBuilt = true ∧ ∃ o, p.model.objective = some o := by
  simp only [file] at h
  split at h
  · obtain ⟨_, _, hfail, _⟩ := returns_bind.1 h
    exact absurd hfail not_returns_fail
  · rename_i hbuilt
    cases ho : p.model.objective with
    | none =>
      rw [ho] at h
      exact absurd h not_returns_fail
    | some o => exact ⟨by simpa using hbuilt, o, rfl⟩

/-- A variable with a number for a coefficient is weighed, because numbers that count as zero have
been dropped. -/
theorem isWeighed_of_isNum (hp : p.model.IsRegular) {v : String}
    (hcs : cs ∈ p.model.coefficientTables) {e : Expr Float}
    (he : cs.find? v = some e) (hnum : e.isNum = true) : IsWeighed p t v := by
  have hkept := (hp.traced cs hcs).kept _ (Table.mem_of_find? he)
  cases e with
  | num a => exact ⟨cs, hcs, .num a, a, he, repeats_pure, hkept⟩
  | _ => cases hnum

/-- Whenever a file is written, it can be read back, and its sections refer to one another. -/
theorem file_refers {p : Problem Float} {ws : List String} {text : String} {s' : Store Float}
    (hp : p.Reached) (h : (file p).Returns ⟨p.registry, ws⟩ text s') :
    ∃ x columns, read? text = some x ∧ x.Refers p s'.registry columns := by
  obtain ⟨hbuilt, o, ho⟩ := isBuilt_of_returns h
  rw [file_eq hbuilt ho (hp.isRegular.declared hbuilt)] at h
  obtain ⟨n, s₁, hn, h⟩ := returns_bind.1 h
  obtain ⟨rfl, rfl⟩ := returns_pure.1 h
  have hs : (⟨p.registry, ws⟩ : Store Float).registry.Keyed := hp.keyed Value.beq_self
  obtain ⟨_, hknown⟩ := numbersOf_shown p o hs hn
  obtain ⟨hobjective, hequations, hbounds⟩ := hknown (.refl _)
  have hrows : (contents p o n).rows.map (·.1) = (n.rows p o).map (·.name) := by
    simp [contents, contentsOf, Row.shown]
  have hcolumn : ∀ c ∈ p.model.variableNames.zip ((columns p).map (·.name)),
      c.2 ∈ (contents p o n).entries.map (·.column) ↔ IsWeighed p s₁.registry c.1 := by
    intro c hc
    rw [← map_dvar_columns, List.zip_map'] at hc
    obtain ⟨col, hcol, rfl⟩ := List.mem_map.1 hc
    rw [mem_columns_iff hcol]
    exact entriesOf_ne_nil_iff_isWeighed ho hobjective hequations col
  refine ⟨contents p o n, (columns p).map (·.name),
    read_layOut Decimal.significantText_isWord p o n, ?_⟩
  constructor
  case distinctRows => exact hrows ▸ nodup_rows hequations.length_eq.symm
  case rowCount =>
    rw [← List.length_map, hrows, map_name_rows hequations.length_eq.symm]
    simp [length_rowNames]
  case distinct => exact nodup_columns p
  case count => rw [← map_dvar_columns, List.length_map, List.length_map]
  case entryRows => exact fun e he => hrows ▸ row_of_mem_entries he
  case entryColumns => exact fun e he => column_of_mem_entries he
  case constantRows => exact fun c hc => hrows ▸ row_of_mem_constants hc
  case contiguous => exact contiguous_contents p o n
  case boundColumns => exact fun b hb => column_of_mem_boundsWritten hb
  case entered => exact hcolumn
  case symbolic =>
    intro c hc hnone cs hcs e he
    by_contra hnum
    exact hnone ((hcolumn c hc).2
      (isWeighed_of_isNum hp.isRegular.model hcs he (by simpa using hnum)))

/-- A plan in which the only coefficient of a variable is a parameter that evaluates to zero. -/
def vanishingCoefficient : Work Float Unit :=
  Work.addScript false "int n = 1; float p = n - 1; dvar float x; dvar float y; minimize y;
    c: p*x + y <= 1;"

/-- The bounds of a variable are written even if the variable has no entry. -/
theorem file_refers_vanishingCoefficient :
    ∃ (p : Problem Float) (ws : List String) (text : String) (s' : Store Float) (x : Contents)
      (columns : List String), p.Reached ∧ (file p).Returns ⟨p.registry, ws⟩ text s' ∧
      read? text = some x ∧ x.Refers p s'.registry columns ∧ x.bounds.map (·.1) = ["y", "x"] ∧
      x.entries.map (·.column) = ["y", "y"] := by
  have hrun : ((do
      vanishingCoefficient
      Work.build
      let p ← Work.problem
      let text ← Work.ofRun (file p)
      return (read? text).map fun x => (x.bounds.map (·.1), x.entries.map (·.column)) :
        Work Float (Option (List String × List String))).carry blankWorkspace).1.toOption
      = some (some (["y", "x"], ["y", "y"])) := by
    decide +kernel
  obtain ⟨_, h⟩ := Work.returns_of_toOption hrun
  obtain ⟨_, w₀, hscript, h⟩ := Work.returns_bind.1 h
  obtain ⟨_, w, hbuild, h⟩ := Work.returns_bind.1 h
  replace h := Work.returns_problem_bind.1 h
  obtain ⟨text, _, hfile, h⟩ := Work.returns_bind.1 h
  obtain ⟨s', htext, rfl⟩ := Work.returns_ofRun.1 hfile
  have hread := (Work.returns_pure.1 h).1
  have hw : w.problem.Reached := .built (.script (.start none none none) hscript) hbuild
  obtain ⟨x, columns, hx, hrefers⟩ := file_refers hw htext
  rw [hx, Option.map_some, Option.some.injEq, Prod.mk.injEq] at hread
  exact ⟨w.problem, _, text, s', x, columns, hw, htext, hx, hrefers, hread⟩

end Mps

end LinearModel
