import LinearModel.Proofs.Columns

/-!
# Subscripts

A name is read as a variable without an index only where a scalar variable is declared, and a
variable with an empty index is read only where the variable has dimensions, so that counting the
index fails. The origin of a variable of the model therefore has no index exactly if the variable is
scalar, and else one component for each dimension. Declarations are never taken back, so this holds
of the model of every problem that is reached, also once further statements have been added.
-/
namespace LinearModel

open Run Judgement

variable {K : Type}

/-- An expression that leaves out the index only of a variable with dimensions, as far as its terms
show variables. -/
def Expr.Subscripted (vars : Table String (Variable K)) : Expr K → Prop
  | .var _ _ idx => idx = none
  | .ivar s idx => idx = [] → ∃ v, vars.find? s = some v ∧ v.dim ≠ 0
  | .arith _ l r => l.Subscripted vars ∧ r.Subscripted vars
  | .neg e => e.Subscripted vars
  | .sum _ body _ => body.Subscripted vars
  | _ => True

theorem Expr.Subscripted.mono {vars vars' : Table String (Variable K)}
    (hvars : vars.Extends vars') :
    ∀ {e : Expr K}, e.Subscripted vars → e.Subscripted vars'
  | .var _ _ _, h => h
  | .ivar _ _, h => fun hnil => (h hnil).imp fun _ hv => ⟨hvars hv.1, hv.2⟩
  | .arith _ _ _, h => ⟨h.1.mono hvars, h.2.mono hvars⟩
  | .neg e, h => Subscripted.mono (e := e) hvars h
  | .sum _ body _, h => Subscripted.mono (e := body) hvars h
  | .num _, _ | .str _, _ | .record _ _, _ | .name _, _ | .param _ _, _ | .dexpr _ _, _
  | .rel _ _ _, _ | .logic _ _, _ | .field _ _, _ | .item _ _, _ => trivial

theorem Registry.forms_subscripted [Scalar K] (r : Registry K) :
    r.Forms (Expr.Subscripted r.vars) where
  num _ := trivial
  str _ := trivial
  name _ := trivial
  resolve {symbol idx e} _ h := by
    unfold Grammar.resolve at h
    split at h
    · rename_i v hv
      split at h
      · cases h
        rfl
      · rename_i hdim
        cases h
        rintro rfl
        exact ⟨v, hv, by simpa using hdim⟩
    · split at h
      · split at h <;> cases h <;> trivial
      · split at h <;> cases h <;> trivial
  arith _ _ _ hl hr := ⟨hl, hr⟩
  neg he := he
  rel _ _ _ _ _ := trivial
  logic _ _ _ _ := trivial
  field _ _ := trivial
  item _ _ _ := trivial
  iter _ _ _ _ _ := trivial
  sum _ hbody _ := hbody

theorem Expr.isLasting_subscripted [Scalar K] : Expr.IsLasting (Expr.Subscripted (K := K)) :=
  ⟨Registry.forms_subscripted, fun hvars => Subscripted.mono hvars⟩

/-! ## References -/

/-- No reference has an empty index. -/
def Judgement.subscripted : Judgement K where
  names _ _ o := o.2 ≠ some []
  fits t _ e := e.Subscripted t.vars
  binds _ _ _ _ := True

theorem Judgement.admits_subscripted {t : Registry K} {stmt : Statement K}
    (h : stmt.Has (Expr.Subscripted t.vars)) : subscripted.Admits t stmt := by
  cases stmt with
  | rule R => exact fun c inner hat => h c hat.states
  | goal g => exact h
  | _ => trivial

variable [Scalar K]

theorem Judgement.subscripted_sound (r : Registry K) :
    (subscripted : Judgement K).Sound Progress.declared r where
  lookups := Progress.declared_absorbs.lookups _
  dexprs h := h.2
  var h := by
    obtain rfl := h
    simp [subscripted]
  ivar s idx env := by
    have hL := Progress.declared_absorbs.lookups (K := K) (r.size + familyDepth)
    intro st p st' hst hp
    obtain ⟨hlater, hnames⟩ := variableAt_names (G := Progress.declared) (fun h => h.1) s
      (Simulation.exprElements hL idx (rfl : env = env)) hst hp
    obtain ⟨-, hindex⟩ := variableAt_index s (elements_bound hL env idx) hst hp
    refine ⟨hlater, fun t ht _ hfits hnil => ?_⟩
    -- an empty index is counted against the dimensions of the variable
    have hempty : p.2 = [] := Option.some.inj hnil
    have hlengths : idx.length = p.2.length := (hindex ht).length_eq
    rw [hempty] at hlengths
    obtain ⟨v, hv, hdim⟩ := hfits (List.length_eq_zero_iff.1 hlengths)
    obtain ⟨v', hv', hlength⟩ := (hnames ht).declared
    obtain rfl : v = v' := Option.some.inj (hv.symm.trans hv')
    rw [hempty] at hlength
    exact hdim hlength.symm
  dexpr s e env :=
    (Simulation.exprSubstitute (Progress.declared_absorbs.lookups _) trivial e rfl).mono
    fun _ _ _ _ _ => trivial
  index s e env := (Simulation.exprValue (Progress.declared_absorbs.lookups _) e rfl).mono
    fun _ _ _ _ _ => trivial
  arith h := h
  neg h := h
  sum h _ := h
  enumerate its c env hf :=
    (enumerate_advances (Progress.declared_absorbs.lookups _) hf its c env).mono fun t xs h _ => h

/-! ## Columns -/

/-- A name stands for a variable at an index: the variable is declared, it is scalar exactly if
there is no index, an index has as many components as the variable has dimensions, and the name is
the one that they give. -/
structure Registry.Locates (r : Registry K) (n : String) (o : Origin K) (v : Variable K) :
    Prop where
  declared : r.vars.find? o.1 = some v
  scalar : o.2 = none ↔ v.dim = 0
  counted : ∀ idx, o.2 = some idx → idx.length = v.dim
  named : n = Variable.nameAt o.1 (o.2.getD [])

theorem Registry.Names.locates {r : Registry K} {n : String} {o : Origin K} (h : r.Names n o)
    (hindex : o.2 ≠ some []) : ∃ v, r.Locates n o v := by
  obtain ⟨v, hv, hlength⟩ := h.declared
  refine ⟨v, hv, ?_, fun idx hidx => by simpa [hidx] using hlength, h.named⟩
  rw [← hlength]
  cases hidx : o.2 with
  | none => simp
  | some idx =>
    have hne : idx ≠ [] := by
      rintro rfl
      exact hindex hidx
    simpa using hne

theorem Registry.Locates.mono {r t : Registry K} {n : String} {o : Origin K} {v : Variable K}
    (h : r.Locates n o v) (hvars : r.vars.Extends t.vars) : t.Locates n o v :=
  { h with declared := hvars h.declared }

/-- Every variable of a model has an origin, and a declared variable is located by it. -/
def Problem.LocatesColumns (p : Problem K) : Prop :=
  ∀ n ∈ p.model.variableNames, ∃ o v, p.model.origins.find? n = some o ∧ p.registry.Locates n o v

theorem Problem.LocatesColumns.of_extends {p q : Problem K} (hp : p.LocatesColumns)
    (hmodel : q.model = p.model) (hvars : p.registry.vars.Extends q.registry.vars) :
    q.LocatesColumns := by
  intro n hn
  rw [hmodel] at hn ⊢
  obtain ⟨o, v, ho, hv⟩ := hp n hn
  exact ⟨o, v, ho, hv.mono hvars⟩

theorem Work.locatesColumns_of_build {w w' : Workspace K} (hw : w.problem.Reached)
    (h : Work.build.Returns w () w') : w'.problem.LocatesColumns := by
  have hw' : w'.problem.Reached := .built hw h
  have hhas := hw'.has Expr.isLasting_subscripted
  obtain ⟨qs, _, _, _, hrefers, _, _, hjudged⟩ := Work.references_of_build h
  have hindex := hjudged subscripted subscripted_sound
    (fun s d hd env => ⟨fun _ => hhas.bodies hd, fun _ _ _ _ => hhas.bodies hd⟩)
    fun stmt hstmt => admits_subscripted (hhas.statements stmt hstmt)
  have hnames := hjudged declared declared_sound
    (fun s d hd env => ⟨fun _ => hw'.isDeclared.bodies hd, fun _ _ _ _ => hw'.isDeclared.bodies hd⟩)
    fun stmt hstmt => admits_declared (hw'.isDeclared.statements stmt hstmt)
  intro n hn
  obtain ⟨t, ht, hkey⟩ := Model.mem_variableNames.1 hn
  obtain ⟨o, ho⟩ := Table.mem_keys_iff.1 ((hw'.isRegular.model.traced t ht).traced n hkey)
  have hmem := hrefers.origins _ (Table.mem_of_find? ho)
  obtain ⟨v, hv⟩ := (hnames _ hmem).locates (hindex _ hmem)
  exact ⟨o, v, ho, hv⟩

/-- The columns of every problem that is reached are located. -/
theorem Problem.Reached.locatesColumns {p : Problem K} (h : p.Reached) : p.LocatesColumns := by
  induction h with
  | start name file description =>
    exact fun n hn => by simp [Problem.start, Model.mem_variableNames,
      Model.mem_coefficientTables] at hn
  | @added w w' textual text stmt hw h ih =>
    obtain ⟨s', hread, hregistry, -⟩ := Work.returns_addStatement h
    refine ih.of_extends (Work.model_of_addStatement h).1 ?_
    rw [hregistry]
    exact (parseStatement_has Expr.isLasting_scalars hw.isDeclared.bodies hread).1
  | @data w w' x _ hx h ih =>
    obtain ⟨s', hs', rfl⟩ := Work.returns_ofRun.1 h
    obtain ⟨⟨hvars, _⟩, _⟩ := hx.leads (Registry.renewed_declared w.problem.registry) ⟨rfl, rfl⟩ hs'
    exact ih.of_extends rfl fun s v hv => by rw [hvars, hv]
  | @evaluated w w' e env v _ h ih =>
    obtain ⟨s', hs', rfl⟩ := Work.returns_ofRun.1 h
    obtain ⟨⟨hvars, _⟩, _⟩ := Progress.declared_absorbs.evaluateValue e env trivial hs'
    exact ih.of_extends rfl fun s v hv => by rw [hvars, hv]
  | built hw h _ => exact Work.locatesColumns_of_build hw h

/-- Every variable of the model of a problem that is reached has an entry among the origins. It
names a declared variable, with no index exactly if the variable is scalar and else with as many
components as the variable has dimensions, and symbol and index give the name back. So the
declaration of every column is found. -/
theorem column_has_declaration {p : Problem K} (hp : p.Reached) {n : String}
    (hn : n ∈ p.model.variableNames) :
    ∃ o v, p.model.origins.find? n = some o ∧ p.registry.vars.find? o.1 = some v ∧
      (o.2 = none ↔ v.dim = 0) ∧ (∀ idx, o.2 = some idx → idx.length = v.dim) ∧
      Variable.nameAt o.1 (o.2.getD []) = n ∧ p.declarationOf n = some v := by
  obtain ⟨o, v, ho, hv⟩ := hp.locatesColumns n hn
  refine ⟨o, v, ho, hv.declared, hv.scalar, hv.counted, hv.named.symm, ?_⟩
  simp [Problem.declarationOf, ho, hv.declared]

/-- A scalar variable and a family of two, in a family of constraints. -/
def sharedSlack : Work ℚ Unit := do
  Work.addScript false "range I = 1..2; dvar float x[I]; dvar float y; minimize y;
    forall(i in I) x[i] + y <= 1;"
  Work.build

theorem column_has_declaration_sharedSlack : ∃ p : Problem ℚ, p.Reached ∧ p.isBuilt = true ∧
    p.model.variableNames = ["y", "x1", "x2"] ∧
    ∀ n ∈ ["y", "x1", "x2"], ∃ o v, p.model.origins.find? n = some o ∧
      p.registry.vars.find? o.1 = some v ∧ (o.2 = none ↔ v.dim = 0) ∧
      (∀ idx, o.2 = some idx → idx.length = v.dim) ∧ Variable.nameAt o.1 (o.2.getD []) = n ∧
      p.declarationOf n = some v := by
  have hrun : ((do
      sharedSlack
      let p ← Work.problem
      return (p.isBuilt, p.model.variableNames) : Work ℚ (Bool × List String)).carry
        blankWorkspace).1.toOption = some (true, ["y", "x1", "x2"]) := by
    decide +kernel
  obtain ⟨w, h⟩ := Work.returns_of_toOption hrun
  obtain ⟨_, w, hslack, h⟩ := Work.returns_bind.1 h
  replace h := Work.returns_problem_bind.1 h
  obtain ⟨hbuilt, hnames⟩ := Prod.mk.inj (Work.returns_pure.1 h).1
  obtain ⟨_, w₁, hscript, hbuild⟩ := Work.returns_bind.1 hslack
  have hp : w.problem.Reached := .built (.script (.start none none none) hscript) hbuild
  exact ⟨w.problem, hp, hbuilt, hnames, fun n hn => column_has_declaration hp (hnames ▸ hn)⟩

end LinearModel
