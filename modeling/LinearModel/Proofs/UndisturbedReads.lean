import LinearModel.Proofs.BuildHistory
import LinearModel.Proofs.Termination

/-!
# Reading after a failed build

A build that fails leaves the model of the problem and its mark as they were. The registry keeps
what was found until then, so it is no longer the same. What is read from it is: bounds, members and
values of parameters that were found are those that would be found anyway.

This rests on the members of families, which are kept by outer index. Where members differ at
indices that compare equal, a failed build may have left the one for the other.
-/
namespace LinearModel

open Run Registry Workspace

variable {K : Type} {α : Type} [Scalar K] {B : Registry K} {x : Run K α} {s : Store K}

/-! ## Evaluation -/

/-- The operations that evaluate something: reads, linear forms and exports. -/
inductive IsEvaluation : ∀ {α : Type}, Run K α → Prop
  | parameter (symbol : String) (idx : Index K) : IsEvaluation (readParameter symbol idx)
  | elements (symbol : String) (env : Env K) (given : Option (Value K)) :
      IsEvaluation (resolveDomain symbol env given)
  | value (e : Expr K) (env : Env K) : IsEvaluation (e.evaluateValue env)
  | form (e : Expr K) (env : Env K) : IsEvaluation (linearize e env)
  | equation (q : Equation K) : IsEvaluation q.evaluate
  | objective (o : Objective K) : IsEvaluation o.evaluate
  | matrix (p : Problem K) : IsEvaluation (MatrixForm.ofProblem p)
  | exchange (p : Problem K) : IsEvaluation (Mps.file p)

/-- Every evaluation leaves a current registry current, whether it succeeds or fails. -/
theorem IsEvaluation.maintains (hx : IsEvaluation x) (hB : B.Keyed) (hdata : B.IsData)
    (hfamilies : B.FamiliesAgree) : Maintains (·.CurrentFor B) x := by
  have hsingle := single_currently hB hdata hfamilies
  have hevaluate : ∀ e : Expr K, (Simulation.maintaining (·.CurrentFor B)).rel
      (e.evaluate Env.empty) (e.evaluate Env.empty) := fun e =>
    (hsingle.evaluate e fun _ _ => trivial).current
  cases hx with
  | parameter symbol idx =>
    exact (hsingle.looking (f := fun L => L.parameter symbol idx) fun n =>
      (hsingle.lookups n).parameter (A := []) symbol idx trivial).current
  | elements symbol env given =>
    exact (hsingle.looking (f := fun L => L.elements symbol env given) fun n =>
      (hsingle.lookups n).elements symbol given (hsingle.meets env).sees trivial).current
  | value e env => exact (hsingle.evaluateValue e fun _ _ => trivial).current
  | form e env => exact (hsingle.linearize e fun _ _ => trivial).current
  | equation q => exact Simulation.evaluateForm hevaluate q.coefficients q.constant
  | objective o => exact Simulation.evaluateForm hevaluate o.coefficients o.constant
  | matrix p => exact Simulation.matrixForm hevaluate p
  | exchange p => exact Simulation.exchangeFile hevaluate p

/-- The stores that evaluations lead to from a store, whether they succeed or fail. -/
inductive Evaluates (s : Store K) : Store K → Prop
  | refl : Evaluates s s
  | step {α : Type} {t : Store K} {x : Run K α} (ht : Evaluates s t) (hx : IsEvaluation x) :
      Evaluates s (x.start t).2

theorem Evaluates.current {s t : Store K} (h : Evaluates s t) (hB : B.Keyed) (hdata : B.IsData)
    (hfamilies : B.FamiliesAgree) (hs : s.registry.CurrentFor B) : t.registry.CurrentFor B := by
  induction h with
  | refl => exact hs
  | step _ hx ih => exact hx.maintains hB hdata hfamilies ih

/-! ## Problems -/

/-- The problems that work leads to, where a property holds of each registry in which something is
evaluated. Statements are read and data is assigned with success, and declared parameters and
domains mention no decision variables and no decision expressions. Evaluations and builds may
fail. -/
inductive Problem.Visited (P : Registry K → Prop) : Problem K → Prop
  | start (name file description : Option String) :
      Visited P (Problem.start name file description)
  | added {w w' : Workspace K} {textual : Bool} {text : String} {stmt : Statement K}
      (hw : Visited P w.problem) (hP : P w.problem.registry)
      (h : (Work.addStatement textual text).Returns w stmt w')
      (hdata : w'.problem.registry.IsData) :
      Visited P w'.problem
  | data {w w' : Workspace K} {x : Run K Unit} (hw : Visited P w.problem) (hx : IsDataOperation x)
      (h : (Work.ofRun x).Returns w () w') : Visited P w'.problem
  | evaluated {α : Type} {w : Workspace K} {x : Run K α} (hw : Visited P w.problem)
      (hP : P w.problem.registry) (hx : IsEvaluation x) :
      Visited P ((Work.ofRun x).carry w).2.problem
  | built {w : Workspace K} (hw : Visited P w.problem) (hP : P w.problem.registry) :
      Visited P (Work.build.carry w).2.problem

/-- Reading a statement leaves a registry current, if what it declares is data. -/
theorem parseStatement_current {textual : Bool} {text : String} {s s' : Store K}
    {stmt : Statement K} (hs : s.registry.IsCurrent)
    (hfamilies : s.registry.invalidate.FamiliesAgree)
    (h : (parseStatement textual text).Returns s stmt s') (hdata : s'.registry.IsData) :
    s'.registry.IsCurrent := by
  have hB := hs.current.keyed.invalidate
  have hBdata := isData_invalidate.2 hs.isData
  have hcurrent : ∀ {t : Registry K}, t.CurrentFor s.registry.invalidate → t.IsCurrent :=
    fun ht => ⟨isData_invalidate.1 (ht.base ▸ hBdata), ht.base ▸ ht⟩
  have hInv : ReadsTo (·.CurrentFor s.registry.invalidate)
      (fun t => t.IsData → t.IsCurrent) Expr.Indexed := by
    refine ⟨currentFor_keptByEvaluation hB hBdata hfamilies, fun ht _ => hcurrent ht,
      fun {t e t'} ht hnew hdeclare htdata => ?_⟩
    unfold declare at hdeclare
    split at hdeclare
    · cases hdeclare
    · rename_i hfree
      cases hdeclare
      exact (hcurrent ht).put hnew (isData_of_put htdata) (Bool.eq_false_iff.2 hfree)
  exact (parseStatement_leads hInv (forms_indexed _) rfl hs.current h).1 hdata

/-- A build leaves a registry current, whether it succeeds or fails. -/
theorem Model.ofStatements_maintains (hB : B.Keyed) (hdata : B.IsData) (hfamilies : B.FamiliesAgree)
    (symbol : String) (stmts : List (Statement K)) :
    Maintains (·.CurrentFor B) (Model.ofStatements symbol stmts) :=
  ((single_currently hB hdata hfamilies).ofStatements symbol stmts).current

/-- A computation that keeps a registry current for what it declares. -/
theorem Registry.IsCurrent.of_maintains (hs : s.registry.IsCurrent)
    (hx : Maintains (·.CurrentFor s.registry.invalidate) x) : (x.start s).2.registry.IsCurrent := by
  have hcurrent := hx hs.current
  have hsame : (x.start s).2.registry.invalidate = s.registry.invalidate := hcurrent.base
  exact ⟨isData_invalidate.1 (hsame ▸ isData_invalidate.2 hs.isData),
    hsame ▸ hcurrent⟩

/-- A build does to the registry what going through the statements does. -/
theorem Work.registry_build (w : Workspace K) : (Work.build.carry w).2.problem.registry =
    ((Model.ofStatements w.problem.symbol w.problem.statements).start
      ⟨w.problem.registry, w.warnings⟩).2.registry := by
  simp only [Work.build, Work.carry_bind, Work.carry_problem, Work.carry_ofRun]
  cases (Model.ofStatements w.problem.symbol w.problem.statements).start
    ⟨w.problem.registry, w.warnings⟩ with
  | mk a s => cases a <;> rfl

/-- A problem that work leads to has a current registry, if the members of families agree at outer
indices that compare equal. -/
theorem Problem.Visited.isCurrent {p : Problem K}
    (h : p.Visited fun r => r.invalidate.FamiliesAgree) : p.registry.IsCurrent := by
  induction h with
  | start name file description => exact isCurrent_empty
  | added _ hfamilies h hdata ih =>
    obtain ⟨s', hread, hregistry, -⟩ := Work.returns_addStatement h
    rw [hregistry] at hdata ⊢
    exact parseStatement_current ih hfamilies hread hdata
  | data _ hx h ih =>
    obtain ⟨s', hs', rfl⟩ := Work.returns_ofRun.1 h
    exact (hx.leads renewed_isCurrent ⟨ih.current.keyed, ih.isData⟩ hs').1
  | @evaluated α w x _ hfamilies hx ih =>
    exact IsCurrent.of_maintains (s := ⟨w.problem.registry, w.warnings⟩) ih
      (hx.maintains ih.current.keyed.invalidate (isData_invalidate.2 ih.isData) hfamilies)
  | @built w _ hfamilies ih =>
    rw [Work.registry_build]
    exact IsCurrent.of_maintains (s := ⟨w.problem.registry, w.warnings⟩) ih
      (Model.ofStatements_maintains ih.current.keyed.invalidate
        (isData_invalidate.2 ih.isData) hfamilies _ _)

/-! ## Reading -/

/-- In a grounded registry every read ends. -/
theorem IsRead.ends (hx : IsRead x) (hs : s.registry.Keyed)
    (hg : s.registry.IsGrounded) : Ends (x.start s).1 := by
  have hn : (s.registry.invalidate.rest []).size + 2 ≤ s.registry.size + familyDepth := by
    rw [size_rest_nil]
    exact Nat.add_le_add_left (by decide) _
  have hdeep := hg.invalidate.deep hn hn
  have hallows := hg.invalidate.allows hn hn (A := []) (List.nil_subset _)
  have hmeets := hg.invalidate.meets_self hn hn (Env.empty : Env K)
  cases hx with
  | elements symbol given =>
    have hpermits := hallows [([], .domain symbol)] _ List.mem_cons_self
    rw [show (resolveDomain symbol Env.empty given).start s = _ from start_lookup _ s]
    exact Regime.RelAt.ends (hdeep.lookups.elements symbol given hmeets.sees hpermits hs.like_self)
  | parameter symbol idx =>
    have hpermits := hallows [([], .parameter symbol)] _ List.mem_cons_self
    rw [show (readParameter symbol idx).start s = _ from start_lookup _ s]
    exact Regime.RelAt.ends (hdeep.lookups.parameter symbol idx hpermits hs.like_self)
  | value e he =>
    rw [show (e.evaluateValue Env.empty).start s = _ from start_lookup _ s]
    exact (hg.invalidate.value_alike hn hn e Env.empty hs.like_self).ends

/-- A read that ends gives the same in all registries that are current for the same declarations. -/
theorem IsRead.answer_eq (hx : IsRead x) (hB : B.Keyed) (hdata : B.IsData)
    (hfamilies : B.FamiliesAgree) {s t : Store K} (hs : s.registry.CurrentFor B)
    (ht : t.registry.CurrentFor B) (hends : Ends (x.start s).1) (hends' : Ends (x.start t).1) :
    (x.start s).1 = (x.start t).1 := by
  obtain ⟨y, hy⟩ := hx.inStepAt hB hdata hfamilies
  have hanswer : ∀ {u : Store K}, u.registry.CurrentFor B → Ends (x.start u).1 →
      (x.start u).1 = (y.start ⟨B, []⟩).1 := by
    intro u hu hends
    obtain ⟨f, _, hf, hendless, _⟩ | ⟨_, _, hfalse⟩ | hsame := (hy hu).answers
    · exact absurd hendless (hends f hf)
    · exact hfalse.elim
    · exact hsame
  rw [hanswer hs hends, hanswer ht hends']

/-- A build that fails leaves the model and the mark of the problem as they were. Whatever is
evaluated afterwards, a domain, a parameter or the value of a data expression is read as before the
build, if it is read at all before and after. Where no definition leads back to itself it always is.
-/
theorem failed_build_undisturbed {w w' : Workspace K}
    (hw : w.problem.Visited fun r => r.invalidate.FamiliesAgree)
    (hfamilies : w.problem.registry.invalidate.FamiliesAgree) {f : Failure K}
    (h : Work.build.Fails w f w') :
    w'.problem.model = w.problem.model ∧ w'.problem.isBuilt = w.problem.isBuilt ∧
    ∀ {α : Type} {x : Run K α} {t : Store K}, IsRead x →
      Evaluates ⟨w'.problem.registry, w'.warnings⟩ t →
      let before := (x.start ⟨w.problem.registry, w.warnings⟩).1
      (Ends before → Ends (x.start t).1 → (x.start t).1 = before) ∧
        (w.problem.registry.IsGrounded → (x.start t).1 = before) := by
  have hcurrent := hw.isCurrent
  have hB := hcurrent.current.keyed.invalidate
  have hdata := isData_invalidate.2 hcurrent.isData
  obtain ⟨s', hfails, rfl⟩ := Work.fails_build h
  refine ⟨rfl, rfl, fun {α x t} hx ht => ?_⟩
  have hs' := (Model.ofStatements_maintains hB hdata hfamilies w.problem.symbol
    w.problem.statements).fails (s := ⟨w.problem.registry, w.warnings⟩) hcurrent.current hfails
  have ht' := ht.current hB hdata hfamilies hs'
  have hsame := hx.answer_eq hB hdata hfamilies ht'
    (t := ⟨w.problem.registry, w.warnings⟩) hcurrent.current
  refine ⟨fun hends hends' => hsame hends' hends, fun hg => ?_⟩
  have hgt : t.registry.IsGrounded := hg.congr fun m => by
    rw [← t.registry.mentionsOf_invalidate, ht'.base, mentionsOf_invalidate]
  exact hsame (hx.ends ht'.keyed hgt) (hx.ends hcurrent.current.keyed hg)

/-! ## Squares and signed zeros -/

/-- Add statements one after the other, as long as they can be added and the registry passes a
test. -/
def Workspace.addingWhile (passes : Registry K → Bool) : List String → Workspace K →
    Option (Workspace K)
  | [], w => some w
  | text :: texts, w =>
    match (Work.addStatement false text).carry w with
    | (.ok _, w') => if passes w'.problem.registry then addingWhile passes texts w' else none
    | (.error _, _) => none

theorem Problem.Visited.adding {P : Registry K → Prop} {passes : Registry K → Bool}
    (hpasses : ∀ r, passes r = true → r.IsData ∧ P r) {texts : List String} {w w₀ : Workspace K}
    (hw : w.problem.Visited P) (hP : P w.problem.registry)
    (h : (addingWhile passes texts w).isSome = true) :
    ((addingWhile passes texts w).getD w₀).problem.Visited P := by
  obtain ⟨w', hw'⟩ := Option.isSome_iff_exists.1 h
  rw [hw', Option.getD_some]
  clear h
  induction texts generalizing w with
  | nil =>
    cases hw'
    exact hw
  | cons text texts ih =>
    unfold addingWhile at hw'
    split at hw'
    · rename_i hadded
      split at hw'
      · rename_i hpassed
        exact ih (.added hw hP hadded (hpasses _ hpassed).1) (hpasses _ hpassed).2 hw'
      · cases hw'
    · cases hw'

/-- Squares whose sum bounds a variable, and a bound that is not linear. -/
def squaresScript : List String :=
  ["int n = 2;", "range I = 1..n;", "{int} S = {i*i | i in I};", "int total = sum(s in S) s;",
    "dvar float x;", "forall(s in S) c: s*x <= total;", "d: x*x <= 1;"]

def squaresAndBound : Workspace ℚ :=
  (addingWhile isSimple squaresScript blankWorkspace).getD blankWorkspace

/-- Where a definition of the squares stands above what it mentions. -/
def rankInSquares : Mention → Nat
  | .parameter "total" => 3
  | .domain "S" => 2
  | .domain "I" => 1
  | _ => 0

/-- How many lists of members of a set are known. -/
def Workspace.knownMembers (w : Workspace K) (symbol : String) : Option Nat :=
  (w.problem.registry.computedSets.find? symbol).map (·.known.toList.length)

theorem squaresAndBound_evaluated :
    (addingWhile isSimple squaresScript blankWorkspace).isSome = true ∧
    squaresAndBound.problem.registry.isSimple = true ∧
    (∀ m ∈ squaresAndBound.problem.registry.definitions,
      ∀ q ∈ squaresAndBound.problem.registry.mentionsOf m,
        rankInSquares q.2 < rankInSquares m ∧ q.2.isDexpr = false) ∧
    squaresAndBound.problem.isBuilt = false ∧
    squaresAndBound.knownMembers "S" = some 0 ∧
    (Work.build.carry squaresAndBound).1.toOption = none ∧
    (Work.build.carry squaresAndBound).2.knownMembers "S" = some 1 := by
  decide +kernel

/-- The squares are found in a build that fails, and are the same squares afterwards. -/
theorem failed_build_undisturbed_squares : ∃ f w', Work.build.Fails squaresAndBound f w' ∧
    w'.problem.isBuilt = false ∧ squaresAndBound.knownMembers "S" = some 0 ∧
    w'.knownMembers "S" = some 1 ∧
    ((resolveDomain "S" Env.empty none).start
        ((readParameter "total" []).start ⟨w'.problem.registry, w'.warnings⟩).2).1 =
      ((resolveDomain "S" Env.empty none).start
        ⟨squaresAndBound.problem.registry, squaresAndBound.warnings⟩).1 := by
  obtain ⟨hadded, hsimple, hrank, hunbuilt, hunknown, hfails, hknown⟩ := squaresAndBound_evaluated
  have hvisited : squaresAndBound.problem.Visited fun r => r.invalidate.FamiliesAgree :=
    (Problem.Visited.start none none none).adding (w := blankWorkspace)
      (fun _ hr => ⟨isData_of_isSimple hr, familiesAgree_of_isSimple hr⟩)
      (familiesAgree_of_isSimple rfl) hadded
  obtain ⟨f, hf⟩ := Work.fails_carry hfails
  obtain ⟨-, hbuilt, hread⟩ :=
    failed_build_undisturbed hvisited (familiesAgree_of_isSimple hsimple) hf
  refine ⟨f, _, hf, hbuilt.trans hunbuilt, hunknown, hknown, ?_⟩
  exact (hread (.elements "S" none) (.step .refl (.parameter "total" []))).2
    (.of_rank rankInSquares hrank)

/-- Registries of data. -/
def Registry.holdsData (r : Registry K) : Bool :=
  r.params.toList.all (·.2.isData) &&
    r.boundRanges.toList.all (fun e => (Domain.range e.2).isData) &&
    r.computedSets.toList.all (fun e => (Domain.computed e.2).isData)

omit [Scalar K] in
theorem Registry.isData_of_holdsData {r : Registry K} (h : r.holdsData = true) : r.IsData := by
  simp only [holdsData, Bool.and_eq_true, List.all_eq_true] at h
  refine ⟨fun hp => ?_, fun hd => ?_, fun hd => ?_⟩
  · obtain ⟨_, hmem, _⟩ := Table.exists_of_find? hp
    exact h.1.1 _ hmem
  · obtain ⟨_, hmem, _⟩ := Table.exists_of_find? hd
    exact h.1.2 _ hmem
  · obtain ⟨_, hmem, _⟩ := Table.exists_of_find? hd
    exact h.2 _ hmem

/-- Reciprocals of the fields of records, and a set of records that is left open. -/
def reciprocalsScript : List String :=
  ["tuple T { float f; };", "{T} A = {<0.0>};", "{T} B = ...;",
    "{float} S[a in A] = {1/a.f | k in 1..1};", "{float} U = {s | b in B, s in S[b]};",
    "dvar float x;", "forall(a in A, s in S[a]) c: x*x <= s;"]

def openZeros : Workspace Float :=
  (addingWhile holdsData reciprocalsScript blankWorkspace).getD blankWorkspace

/-- The open set has a record with the negative zero. -/
def signedZeros : Workspace Float :=
  ((Work.ofRun (assignRecords "B" (.list [.list [.real (-Scalar.zero)]]))).carry openZeros).2

/-- The reciprocals of the records of the open set, where they are positive. -/
def Workspace.positives (w : Workspace Float) : Option (List Bool) :=
  ((resolveDomain "U" Env.empty none).start ⟨w.problem.registry, w.warnings⟩).1.toOption.map
    (·.map (· == .real Scalar.infinity))

theorem signedZeros_evaluated : (addingWhile holdsData reciprocalsScript
      (blankWorkspace : Workspace Float)).isSome = true ∧
    ((Work.ofRun (assignRecords "B" (.list [.list [.real (-Scalar.zero)]]))).carry
      openZeros).1.toOption = some () ∧
    (Work.build.carry signedZeros).1.toOption = none ∧ signedZeros.positives = some [false] ∧
    (Work.build.carry signedZeros).2.positives = some [true] := by
  decide +kernel

/-- A build that fails leaves the reciprocal of one zero as that of the other, since the records
compare equal. -/
theorem failed_build_swaps_members : ∃ w : Workspace Float, (w.problem.Visited fun _ => True) ∧
    ∃ f w', Work.build.Fails w f w' ∧
    ∃ x : Run Float (List (Value Float)), IsRead x ∧
      ∃ vs vs', (x.start ⟨w.problem.registry, w.warnings⟩).1 = .ok vs ∧
        (x.start ⟨w'.problem.registry, w'.warnings⟩).1 = .ok vs' ∧ vs ≠ vs' := by
  obtain ⟨hadded, hassigned, hfails, hnegative, hpositive⟩ := signedZeros_evaluated
  have hopen : openZeros.problem.Visited fun _ => True :=
    (Problem.Visited.start none none none).adding (w := blankWorkspace)
      (fun _ hr => ⟨isData_of_holdsData hr, trivial⟩) trivial hadded
  obtain ⟨f, hf⟩ := Work.fails_carry hfails
  obtain ⟨vs, hvs, hsigns⟩ := Option.map_eq_some_iff.1 hnegative
  obtain ⟨vs', hvs', hsigns'⟩ := Option.map_eq_some_iff.1 hpositive
  obtain ⟨_, hread⟩ := returns_of_toOption hvs
  obtain ⟨_, hread'⟩ := returns_of_toOption hvs'
  refine ⟨signedZeros, .data hopen (.records "B" _) (Work.returns_carry hassigned), f, _, hf, _,
    .elements "U" none, vs, vs', congrArg Prod.fst hread, congrArg Prod.fst hread', ?_⟩
  rintro rfl
  rw [hsigns] at hsigns'
  exact absurd hsigns' (by decide)

end LinearModel
