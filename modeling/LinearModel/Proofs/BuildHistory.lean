import LinearModel.Proofs.FailedAssignment
import LinearModel.Proofs.FailedBuild
import LinearModel.Proofs.RepeatedExpansion
import LinearModel.Proofs.Workspace

/-!
# The model of a problem over time

Statements are read and added, data is assigned, and the model is built, over and over, and each of
these may fail. Adding a statement takes the mark of a built problem away. Assigning data does not:
the model stays marked as built, and belongs to the data that it was built from. As long as, or as
soon as, the data is the same as then, a new build gives the same model.
-/
namespace LinearModel

open Run Registry Work Workspace

variable {K : Type} {α : Type} {s : Store ℚ} {B : Registry ℚ}

/-! ## Registries that work leads to -/

/-- A registry of data whose decision expressions refer to parameters by proper indices. -/
structure Registry.IsProper (r : Registry K) : Prop where
  keyed : r.Keyed
  isData : r.IsData
  wellIndexed : r.WellIndexed

namespace Registry

variable {r t : Registry K}

theorem IsProper.sound (h : r.IsProper) : r.invalidate.IsSound :=
  isSound_invalidate h.keyed h.wellIndexed

theorem IsProper.of_same (h : r.IsProper) (ht : t.Keyed) (hsame : t.invalidate = r.invalidate) :
    t.IsProper where
  keyed := ht
  isData := isData_invalidate.1 (hsame ▸ isData_invalidate.2 h.isData)
  wellIndexed := by
    intro s d hd
    have hdexprs := congrArg dexprs hsame
    exact h.wellIndexed (hdexprs ▸ hd)

theorem WellIndexed.put (h : r.WellIndexed) {e : Entity K} (he : e.IsFresh) :
    (r.put e).WellIndexed := by
  cases e with
  | dexpr d => exact Table.forall_insert (P := fun _ d => (Entity.dexpr d).IsFresh) h he
  | domain d => cases d <;> exact h
  | _ => exact h

theorem isData_of_put {e : Entity K} (h : (r.put e).IsData) : e.isData = true := by
  cases e with
  | parameter p => exact h.params (Table.find?_insert_self _ _ _)
  | domain d =>
    cases d with
    | range d => exact h.ranges (Table.find?_insert_self _ _ _)
    | computed d => exact h.sets (Table.find?_insert_self _ _ _)
    | _ => rfl
  | _ => rfl

variable [Scalar K]

/-- A proper registry in which everything that has been computed is what it amounts to. -/
structure IsLive (r : Registry K) : Prop extends r.IsProper where
  current : r.CurrentFor r.invalidate

theorem IsProper.live (h : r.IsProper) (ht : t.CurrentFor r.invalidate) : t.IsLive :=
  ⟨h.of_same ht.keyed ht.base, ht.base ▸ ht⟩

theorem isLive_empty : ({} : Registry K).IsLive where
  keyed := isCurrent_empty.current.keyed
  isData := isCurrent_empty.isData
  wellIndexed h := by cases h
  current := isCurrent_empty.current

theorem IsLive.upToDate (h : r.IsLive) (htidy : r.Tidy) : r.UpToDate r.invalidate :=
  ⟨h.current, htidy⟩

/-- Assigned data makes a registry forget what it has computed. -/
theorem renewed_isLive : Renewed (K := K) IsProper IsLive where
  stored hp hpq hr := by
    have hdata := renewed_isCurrent.stored hp hpq ⟨hr.keyed, hr.isData⟩
    exact ⟨hdata.1, hdata.2, hr.wellIndexed⟩
  elements hd hr := by
    have hdata := renewed_isCurrent.elements hd ⟨hr.keyed, hr.isData⟩
    exact ⟨hdata.1, hdata.2, hr.wellIndexed⟩
  records hd hr := by
    have hdata := renewed_isCurrent.records hd ⟨hr.keyed, hr.isData⟩
    exact ⟨hdata.1, hdata.2, hr.wellIndexed⟩
  forgotten hr := by
    have hdata := renewed_isCurrent.forgotten ⟨hr.keyed, hr.isData⟩
    exact ⟨⟨hdata.current.keyed, hdata.isData, hr.wellIndexed⟩, hdata.current⟩

/-- An assignment that fails may have stored something, and keeps a registry proper. -/
theorem Renewed.assign_fails {Inv Inv' : Registry K → Prop} (h : Renewed Inv Inv')
    {symbol : String} {v : Value K} {s s' : Store K} {f : Failure K} (hs : Inv s.registry)
    (hfails : (LinearModel.assign symbol v).Fails s f s') : Inv s'.registry := by
  have hentries : ∀ es : List (Value K × Value K), Run.Preserves Inv (storeEntries symbol es) := by
    intro es
    induction es with
    | nil => exact Steady.preserves (steady_pure _) Inv
    | cons e es ih => exact Preserves.bind (h.writing symbol (some _) _) fun _ => ih
  obtain ⟨x, hstart, hx⟩ := assign_cases symbol v s
  have hfails : x.Fails s f s' := hstart.symm.trans hfails
  obtain rfl | rfl | hx := hx
  · obtain rfl | ⟨_, _, _, _, _, _, hrecords, _, rfl⟩ := assignRecords_fails hfails
    · exact hs
    · exact h.records hrecords hs
  · obtain rfl | ⟨_, _, stored, _, _, _, _, _, hstored, _⟩ := assignParameters_fails hfails
    · exact hs
    · exact hentries stored hs hstored
  · rwa [hx hfails]

/-- A build, whether it succeeds or fails, leaves a registry live. -/
theorem IsLive.build {s s' : Store K} (hs : s.registry.IsLive)
    (hfamilies : s.registry.invalidate.FamiliesAgree) {symbol : String}
    {stmts : List (Statement K)} {a : Except (Failure K) (Model K)}
    (h : (Model.ofStatements symbol stmts).start s = (a, s')) : s'.registry.IsLive := by
  have hsingle := single_currently hs.keyed.invalidate (isData_invalidate.2 hs.isData) hfamilies
  have hcurrent := (hsingle.ofStatements symbol stmts).current hs.current
  rw [h] at hcurrent
  exact hs.toIsProper.live hcurrent

end Registry

/-! ## Statements -/

section Reading

variable [Scalar K] {B : Registry K}

/-- Evaluation that returns leaves a registry current. -/
theorem Registry.currentFor_keptByEvaluation (hB : B.Keyed) (hdata : B.IsData)
    (hfamilies : B.FamiliesAgree) : KeptByEvaluation (·.CurrentFor B) where
  value e s v s' hs h := by
    have hrel := (single_currently hB hdata hfamilies).evaluateValue (a := Env.empty) e
      fun _ _ => trivial
    exact hrel.current.returns hs h
  elements symbol s vs s' hs h := by
    have hsingle := single_currently hB hdata hfamilies
    have hrel : B.currently.Rel (resolveDomain symbol Env.empty none)
        (resolveDomain symbol Env.empty none) :=
      hsingle.looking fun n => (hsingle.lookups n).elements symbol none
        (hsingle.meets Env.empty).sees trivial
    exact hrel.current.returns hs h

/-- Reading a statement leaves a registry live, if what it declares is data. -/
theorem parseStatement_live {textual : Bool} {text : String} {s s' : Store K} {stmt : Statement K}
    (hs : s.registry.IsLive) (hfamilies : s.registry.invalidate.FamiliesAgree)
    (h : (parseStatement textual text).Returns s stmt s') (hdata : s'.registry.IsData) :
    s'.registry.IsLive ∧ stmt.WellIndexed := by
  have hkept := currentFor_keptByEvaluation hs.keyed.invalidate
    (isData_invalidate.2 hs.isData) hfamilies
  have hInv : ReadsTo (·.CurrentFor s.registry.invalidate)
      (fun t => t.IsData → t.IsLive) Expr.Indexed := by
    refine ⟨hkept, fun ht _ => hs.toIsProper.live ht, fun {t e t'} ht hnew hdeclare hdata => ?_⟩
    have hlive := hs.toIsProper.live ht
    unfold declare at hdeclare
    split at hdeclare
    · cases hdeclare
    · rename_i hfree
      cases hdeclare
      have hput := IsCurrent.put ⟨hlive.isData, hlive.current⟩ hnew
        (isData_of_put hdata) (Bool.eq_false_iff.2 hfree)
      exact ⟨⟨hput.current.keyed, hdata, WellIndexed.put hlive.wellIndexed hnew.isFresh⟩,
        hput.current⟩
  obtain ⟨hlive, hstmt⟩ := parseStatement_leads hInv (forms_indexed _) rfl hs.current h
  exact ⟨hlive hdata, hstmt.wellIndexed⟩

end Reading

/-! ## Histories -/

/-- What has been done in a workspace since its problem was started. A history ends in a workspace,
and it says what the problem declared and what its data was when the model was last built, and
whether data was last assigned as a whole. An assignment that fails may stop half way. Then nothing
is read or built until data has been assigned again.

Data that is loaded is assigned entry by entry, and the model may be built after the last one. Where
a build fails, it fails in other ways than by a definition that never ends, and where it succeeds,
no parameter is half evaluated when it begins. -/
inductive Workspace.History : Workspace ℚ → Registry ℚ → Bool → Prop
  | start (name file description : Option String) :
      History ⟨.start name file description, []⟩ {} true
  | read {w w' B textual text stmt} (hw : History w B true)
      (hfamilies : w.problem.registry.invalidate.FamiliesAgree)
      (h : (ofRun (parseStatement textual text)).Returns w stmt w')
      (hdata : w'.problem.registry.IsData) : History w' B true
  | added {w B isWhole stmt p} (hw : History w B isWhole) (hstmt : stmt.WellIndexed)
      (h : w.problem.add stmt = .ok p) : History ⟨p, w.warnings⟩ B isWhole
  | assigned {w w' B isWhole symbol v} (hw : History w B isWhole)
      (h : (ofRun (assign symbol v)).Returns w () w') : History w' B true
  | unassigned {w w' B isWhole symbol v f} (hw : History w B isWhole)
      (h : (ofRun (assign symbol v)).Fails w f w') : History w' B false
  | built {w w' B} (hw : History w B true)
      (hfamilies : w.problem.registry.invalidate.FamiliesAgree) (htidy : w.problem.registry.Tidy)
      (h : build.Returns w () w') : History w' w.problem.registry.invalidate true
  | unbuilt {w w' B f} (hw : History w B true)
      (hfamilies : w.problem.registry.invalidate.FamiliesAgree)
      (h : build.Fails w f w') (hends : ¬ f.IsEndless) : History w' B true
  | consulted {α : Type} {x : Run ℚ α} {w w' B a} (hw : History w B true)
      (hfamilies : w.problem.registry.invalidate.FamiliesAgree) (htidy : w.problem.registry.Tidy)
      (hx : IsConsultation x) (h : (ofRun x).Returns w a w') : History w' B true

/-- The model of a problem comes from its statements, and from data. -/
structure Problem.BuiltFrom (p : Problem ℚ) (B : Registry ℚ) : Prop where
  sound : B.IsSound
  isData : B.IsData
  families : B.FamiliesAgree
  model : ∃ s s' : Store ℚ, s.registry.UpToDate B ∧
    (Model.ofStatements p.symbol p.statements).Returns s p.model s'

/-- What every history keeps. -/
structure Workspace.Keeps (w : Workspace ℚ) (B : Registry ℚ) (isWhole : Bool) : Prop where
  proper : w.problem.registry.IsProper
  live : isWhole = true → w.problem.registry.IsLive
  statements : ∀ stmt ∈ w.problem.statements, stmt.WellIndexed
  model : w.problem.isBuilt = true → w.problem.BuiltFrom B

namespace Workspace.Keeps

variable {w w' : Workspace ℚ} {B : Registry ℚ} {isWhole isWhole' : Bool}

/-- A change of the registry. -/
theorem withStore (hw : w.Keeps B isWhole) (hproper : s.registry.IsProper)
    (hlive : isWhole' = true → s.registry.IsLive) :
    Keeps ⟨{ w.problem with registry := s.registry }, s.warnings⟩ B isWhole' where
  proper := hproper
  live := hlive
  statements := hw.statements
  model hbuilt := { hw.model hbuilt with }

theorem ofLive (hw : w.Keeps B isWhole) (hlive : s.registry.IsLive) :
    Keeps ⟨{ w.problem with registry := s.registry }, s.warnings⟩ B true :=
  hw.withStore hlive.toIsProper fun _ => hlive

theorem start (name file description : Option String) :
    Keeps ⟨.start name file description, []⟩ {} true where
  proper := isLive_empty.toIsProper
  live _ := isLive_empty
  statements _ h := by cases h
  model h := by cases h

theorem added (hw : w.Keeps B isWhole) {stmt : Statement ℚ} (hstmt : stmt.WellIndexed)
    {p : Problem ℚ} (h : w.problem.add stmt = .ok p) : Keeps ⟨p, w.warnings⟩ B isWhole := by
  unfold Problem.add at h
  split at h
  · cases h
  · cases h
    refine ⟨hw.proper, hw.live, ?_, fun hbuilt => by cases hbuilt⟩
    exact List.forall_mem_append.2 ⟨hw.statements, List.forall_mem_singleton.2 hstmt⟩

theorem built (hw : w.Keeps B true) (hfamilies : w.problem.registry.invalidate.FamiliesAgree)
    (htidy : w.problem.registry.Tidy) (h : build.Returns w () w') :
    w'.Keeps w.problem.registry.invalidate true := by
  have hlive := hw.live rfl
  obtain ⟨m, s', hm, hw'⟩ := returns_build h
  have hlive' : s'.registry.IsLive := hlive.build hfamilies hm
  obtain ⟨p, warnings⟩ := w'
  cases hw'
  refine ⟨hlive'.toIsProper, fun _ => hlive', hw.statements, fun _ => ?_⟩
  refine ⟨hw.proper.sound, isData_invalidate.2 hw.proper.isData, hfamilies, ?_⟩
  exact ⟨_, _, hlive.upToDate htidy, hm⟩

end Workspace.Keeps

/-- Every history keeps what one step of it keeps. -/
theorem Workspace.History.keeps {w : Workspace ℚ} {isWhole : Bool}
    (h : w.History B isWhole) : w.Keeps B isWhole := by
  induction h with
  | start name file description => exact Keeps.start name file description
  | read _ hfamilies h hdata ih =>
    obtain ⟨s', hs', rfl⟩ := returns_ofRun.1 h
    exact ih.ofLive (parseStatement_live (ih.live rfl) hfamilies hs' hdata).1
  | added _ hstmt h ih => exact ih.added hstmt h
  | assigned _ h ih =>
    obtain ⟨s', hs', rfl⟩ := returns_ofRun.1 h
    exact ih.ofLive (renewed_isLive.assign _ _ ih.proper hs').1
  | unassigned _ h ih =>
    obtain ⟨s', hs', rfl⟩ := fails_ofRun.1 h
    exact ih.withStore (renewed_isLive.assign_fails ih.proper hs') nofun
  | built _ hfamilies htidy h ih => exact ih.built hfamilies htidy h
  | unbuilt _ hfamilies h _ ih =>
    obtain ⟨s', hs', rfl⟩ := fails_build h
    exact ih.ofLive ((ih.live rfl).build hfamilies hs')
  | consulted _ hfamilies htidy hx h ih =>
    obtain ⟨s', hs', rfl⟩ := returns_ofRun.1 h
    have hlive := ih.live rfl
    have hup := hlive.upToDate htidy
    have hagrees := hx.agrees hlive.toIsProper.sound (isData_invalidate.2 hlive.isData)
      hfamilies hup hup hs' hs'
    exact ih.ofLive (hlive.toIsProper.live hagrees.1.current)

/-- Models that are alike have the same equations and the same objective wherever they evaluate. -/
theorem Model.Alike.sameAfter (hB : B.IsSound) (hdata : B.IsData)
    (hfamilies : B.FamiliesAgree) (hs : s.registry.UpToDate B) {m m' : Model ℚ}
    (h : m.Alike B.foreseen m') : List.Forall₂ (Equation.SameAfter s) m.equations m'.equations ∧
      Option.Rel (Objective.SameAfter s) m.objective m'.objective := by
  refine ⟨h.equations.imp fun _ _ hq => hq.sameAfter hB hdata hfamilies hs, ?_⟩
  have hobjective := h.objective
  generalize m.objective = a, m'.objective = a' at hobjective ⊢
  cases hobjective with
  | none => exact .none
  | some ho => exact .some (ho.sameAfter hB hdata hfamilies hs)

/-- The model that a problem has is the one that a new build gives, wherever the two evaluate from
here on. They have equations with the same names, relations, coefficients and constants, and the
same objective. -/
def Workspace.IsInStep (w : Workspace ℚ) : Prop :=
  ∀ ⦃w' : Workspace ℚ⦄, build.Returns w () w' →
    List.Forall₂ (Equation.SameAfter ⟨w.problem.registry, w.warnings⟩) w.problem.model.equations
        w'.problem.model.equations ∧
      Option.Rel (Objective.SameAfter ⟨w.problem.registry, w.warnings⟩) w.problem.model.objective
        w'.problem.model.objective

namespace Workspace

variable {w w' : Workspace ℚ} {B : Registry ℚ} {isWhole : Bool}

/-- A model is in step with the data that it was built from. -/
theorem Keeps.isInStep (hw : w.Keeps B true) (hbuilt : w.problem.isBuilt = true)
    (hsame : w.problem.registry.invalidate = B) (htidy : w.problem.registry.Tidy) : w.IsInStep := by
  intro w' h
  obtain ⟨hB, hdata, hfamilies, s, _, hs, hstored⟩ := hw.model hbuilt
  have hup : w.problem.registry.UpToDate B := hsame ▸ (hw.live rfl).upToDate htidy
  obtain ⟨m, s', hm, hw'⟩ := returns_build h
  obtain ⟨-, -, halike⟩ := Model.ofStatements_agrees hB hdata hfamilies _ hw.statements hs
    (t := ⟨w.problem.registry, w.warnings⟩) hup hstored hm
  rw [hw']
  exact halike.sameAfter hB hdata hfamilies hup

/-- A build leaves the data as it was. -/
theorem build_invalidate (hw : w.problem.registry.Keyed) (h : build.Returns w () w') :
    w'.problem.registry.invalidate = w.problem.registry.invalidate := by
  obtain ⟨m, s', hm, hw'⟩ := returns_build h
  have hrel := w.problem.registry.single_unrestricted.ofStatements w.problem.symbol
    w.problem.statements
  rw [hw']
  exact (hrel.maintains.returns ⟨hw, rfl⟩ hm).same

/-- A build that succeeds leaves no parameter half evaluated. -/
theorem Keeps.build_tidy (hw : w.Keeps B true)
    (hfamilies : w.problem.registry.invalidate.FamiliesAgree) (htidy : w.problem.registry.Tidy)
    (h : build.Returns w () w') : w'.problem.registry.Tidy := by
  have hup := (hw.live rfl).upToDate htidy
  obtain ⟨m, s', hm, hw'⟩ := returns_build h
  have hagrees := Model.ofStatements_agrees hw.proper.sound
    (isData_invalidate.2 hw.proper.isData) hfamilies _ hw.statements hup hup hm hm
  rw [hw']
  exact hagrees.1.tidy

/-- Assigning some data, one entry after the other. -/
theorem History.assignedAll {es : List (String × Value ℚ)} (hes : es ≠ [])
    (hw : w.History B isWhole)
    (h : (es.forM fun e => assign e.1 e.2).Returns ⟨w.problem.registry, w.warnings⟩ () s) :
    History ⟨{ w.problem with registry := s.registry }, s.warnings⟩ B true ∧ s.registry.Tidy := by
  induction es generalizing w isWhole with
  | nil => exact absurd rfl hes
  | cons e es ih =>
    obtain ⟨_, s₁, h₁, h⟩ := returns_bind.1 h
    have hw₁ := History.assigned hw (returns_ofRun.2 ⟨s₁, h₁, rfl⟩)
    cases es with
    | nil =>
      obtain ⟨_, rfl⟩ := returns_pure.1 h
      have hproper := hw.keeps.proper
      exact ⟨hw₁, (renewed_isSound.assign _ _ ⟨hproper.keyed, hproper.wellIndexed⟩ h₁).1.toTidy⟩
    | cons e' es =>
      have hrest := ih (List.cons_ne_nil _ _) hw₁ h
      exact hrest

/-- Loading data with a build. -/
theorem History.loaded {data : Table String (Value ℚ)} (hw : w.History B isWhole)
    (hdata : data.toList ≠ []) (h : (Work.load data true).Returns w () w')
    (hfamilies : w'.problem.registry.invalidate.FamiliesAgree) :
    w'.History w'.problem.registry.invalidate true ∧ w'.problem.isBuilt = true ∧
      w'.problem.registry.Tidy := by
  obtain ⟨_, w₁, hassigned, hbuild⟩ := returns_bind.1 h
  obtain ⟨s₁, hs₁, rfl⟩ := returns_ofRun.1 hassigned
  obtain ⟨hw₁, htidy⟩ := hw.assignedAll hdata hs₁
  have hsame := build_invalidate hw₁.keeps.proper.keyed hbuild
  rw [hsame] at hfamilies ⊢
  obtain ⟨m, s', _, hw'⟩ := returns_build hbuild
  exact ⟨.built hw₁ hfamilies htidy hbuild, by rw [hw'],
    hw₁.keeps.build_tidy hfamilies htidy hbuild⟩

end Workspace

/-- After any history, a problem that is marked as built is in step with its data, if the data is
the same as when the model was last built. Loading data with a build always puts it in step. Loading
data without one leaves both the model and the mark as they were. -/
theorem built_isInStep {w : Workspace ℚ} {B : Registry ℚ} {isWhole : Bool}
    (hw : w.History B isWhole) :
    (isWhole = true → w.problem.isBuilt = true → w.problem.registry.invalidate = B →
      w.problem.registry.Tidy → w.IsInStep) ∧
    (∀ {data : Table String (Value ℚ)} {w' : Workspace ℚ}, data.toList ≠ [] →
      (Work.load data true).Returns w () w' → w'.problem.registry.invalidate.FamiliesAgree →
        w'.problem.isBuilt = true ∧ w'.IsInStep) ∧
    ∀ {data : Table String (Value ℚ)} {w' : Workspace ℚ}, (Work.load data false).Returns w () w' →
      w'.problem.isBuilt = w.problem.isBuilt ∧ w'.problem.model = w.problem.model := by
  refine ⟨?_, fun hdata h hfamilies => ?_, fun h => ?_⟩
  · rintro rfl
    exact hw.keeps.isInStep
  · obtain ⟨hw', hbuilt, htidy⟩ := hw.loaded hdata h hfamilies
    exact ⟨hbuilt, hw'.keeps.isInStep hbuilt rfl htidy⟩
  · obtain ⟨_, w₁, hassigned, hrest⟩ := returns_bind.1 h
    obtain ⟨s₁, _, rfl⟩ := returns_ofRun.1 hassigned
    obtain ⟨_, rfl⟩ := returns_pure.1 hrest
    exact ⟨rfl, rfl⟩

/-- Registries of data without families of sets. -/
def Registry.isSimple (r : Registry ℚ) : Bool :=
  r.params.toList.all (·.2.isData) &&
    r.boundRanges.toList.all (fun e => (Domain.range e.2).isData) &&
    r.computedSets.toList.all (fun e => (Domain.computed e.2).isData && e.2.outer.isNone)

theorem Registry.isData_of_isSimple {r : Registry ℚ} (h : r.isSimple = true) : r.IsData := by
  simp only [isSimple, Bool.and_eq_true, List.all_eq_true] at h
  refine ⟨fun hp => ?_, fun hd => ?_, fun hd => ?_⟩
  · obtain ⟨_, hmem, _⟩ := Table.exists_of_find? hp
    exact h.1.1 _ hmem
  · obtain ⟨_, hmem, _⟩ := Table.exists_of_find? hd
    exact h.1.2 _ hmem
  · obtain ⟨_, hmem, _⟩ := Table.exists_of_find? hd
    exact (h.2 _ hmem).1

theorem Registry.familiesAgree_of_isSimple {r : Registry ℚ} (h : r.isSimple = true) :
    r.invalidate.FamiliesAgree := by
  simp only [isSimple, Bool.and_eq_true, List.all_eq_true] at h
  refine familiesAgree_of_outer (List.all_eq_true.2 fun e he => ?_)
  obtain ⟨d, hd, rfl⟩ := List.mem_map.1 he
  exact (h.2 d hd).2

/-- Add statements one after the other, as long as they can be added and declare simple data. -/
def Workspace.adding : List String → Workspace ℚ → Option (Workspace ℚ)
  | [], w => some w
  | text :: texts, w =>
    match (addStatement false text).carry w with
    | (.ok _, w') => if w'.problem.registry.isSimple then adding texts w' else none
    | (.error _, _) => none

theorem Workspace.History.adding {w w' : Workspace ℚ} {texts : List String}
    (hw : w.History B true) (hsimple : w.problem.registry.isSimple = true)
    (h : adding texts w = some w') : w'.History B true := by
  induction texts generalizing w with
  | nil =>
    cases h
    exact hw
  | cons text texts ih =>
    unfold Workspace.adding at h
    split at h
    · rename_i stmt w₁ hadded
      split at h
      · rename_i hsimple₁
        obtain ⟨w₂, p, hread, hadd, rfl⟩ := addStatement_steps hadded
        have hregistry : w₂.problem.registry = p.registry := by
          unfold Problem.add at hadd
          split at hadd
          · cases hadd
          · cases hadd
            rfl
        have hfamilies := familiesAgree_of_isSimple hsimple
        have hdata : w₂.problem.registry.IsData := by
          rw [hregistry]
          exact isData_of_isSimple hsimple₁
        obtain ⟨s', hs', rfl⟩ := returns_ofRun.1 hread
        have hstmt := (parseStatement_live (hw.keeps.live rfl) hfamilies hs' hdata).2
        exact ih (.added (.read hw hfamilies hread hdata) hstmt hadd) hsimple₁ h
      · cases h
    · cases h

/-- A variable that is at least a number, which is left open. -/
def openBound : Workspace ℚ :=
  (adding ["int p = ...;", "dvar float x;", "c: x >= p;"] blankWorkspace).getD
    blankWorkspace

/-- The number is one when the model is built. -/
def builtBound : Workspace ℚ := ((Work.load ⟨[("p", .int 1)]⟩ true).carry openBound).2

/-- The number is two afterwards. -/
def laterBound : Workspace ℚ := ((Work.load ⟨[("p", .int 2)]⟩ false).carry builtBound).2

/-- What the constants of some equations evaluate to. -/
def constantsIn (s : Store ℚ) (qs : List (Equation ℚ)) : List (Option ℚ) :=
  qs.map fun q => ((q.constant.evaluate Env.empty).start s).1.toOption

/-- Equations that are the same have the same constants, where they evaluate. -/
theorem constantsIn_sameAfter {qs qs' : List (Equation ℚ)}
    (h : List.Forall₂ (Equation.SameAfter s) qs qs') :
    List.Forall₂ (fun x x' => ∀ a b, x = some a → x' = some b → a = b) (constantsIn s qs)
      (constantsIn s qs') := by
  rw [constantsIn, constantsIn, List.forall₂_map_left_iff, List.forall₂_map_right_iff]
  refine h.imp fun q q' hq a b ha hb => ?_
  obtain ⟨v, hv⟩ := returns_of_toOption ha
  obtain ⟨v', hv'⟩ := returns_of_toOption hb
  exact hq.constant .refl .refl hv hv'

theorem history_openBound : openBound.History {} true := by
  have hsome : (adding ["int p = ...;", "dvar float x;", "c: x >= p;"]
      blankWorkspace).isSome = true := by decide +kernel
  obtain ⟨w, hw⟩ := Option.isSome_iff_exists.1 hsome
  have hopen : openBound = w := by rw [openBound, hw, Option.getD_some]
  rw [hopen]
  exact (History.start none none none).adding rfl hw

/-- The model is in step when it has been built. It stays marked as built when the number is changed
without a build, and is not in step then. -/
theorem built_isInStep_bound : (builtBound.problem.isBuilt = true ∧ builtBound.IsInStep) ∧
    laterBound.problem.isBuilt = true ∧ ¬ laterBound.IsInStep := by
  have hload : (Work.load ⟨[("p", .int 1)]⟩ true).Returns openBound () builtBound :=
    returns_carry (by decide +kernel)
  have hfamilies : builtBound.problem.registry.invalidate.FamiliesAgree :=
    familiesAgree_of_isSimple (by decide +kernel)
  have hlater : (Work.load ⟨[("p", .int 2)]⟩ false).Returns builtBound () laterBound :=
    returns_carry (by decide +kernel)
  have hagain : build.Returns laterBound () (build.carry laterBound).2 :=
    returns_carry (by decide +kernel)
  obtain ⟨hw, hbuilt, htidy⟩ :=
    history_openBound.loaded (List.cons_ne_nil _ _) hload hfamilies
  refine ⟨⟨hbuilt, (built_isInStep hw).1 rfl hbuilt rfl htidy⟩, ?_, fun h => ?_⟩
  · rw [((built_isInStep hw).2.2 hlater).1]
    exact ((built_isInStep history_openBound).2.1 (List.cons_ne_nil _ _) hload hfamilies).1
  · have hconstants := constantsIn_sameAfter (h hagain).1
    have hone : constantsIn ⟨laterBound.problem.registry, laterBound.warnings⟩
        laterBound.problem.model.equations = [some 1] := by decide +kernel
    have htwo : constantsIn ⟨laterBound.problem.registry, laterBound.warnings⟩
        (build.carry laterBound).2.problem.model.equations = [some 2] := by decide +kernel
    rw [hone, htwo, List.forall₂_cons] at hconstants
    exact absurd (hconstants.1 1 2 rfl rfl) (by decide)

end LinearModel
