import LinearModel.Problem
import LinearModel.Proofs.Histories

/-!
# Failed builds

A build that fails has evaluated a part of the model, and the registry keeps what was found. If
everything that a registry has computed is what it amounts to, then this is still so after any
evaluation and any build, whether it succeeds or fails.
-/
namespace LinearModel

open Run

variable {K : Type} {α β : Type} [Scalar K]

/-! ## Builds under a regime -/

namespace Regime.Single

variable {W : Regime K} (h : W.Single fun _ _ => True)

include h

theorem folds : (comparison h.lawful).Folds where
  lookups := h.lookups
  looking := h.looking
  sees {a b} := by
    change b = a.hide W.hidden ↔ _
    rw [h.whole, Env.hide_nothing]
  permits _ _ := trivial
  folding hg hplain := rel_registry fun r t hr => by
    rw [hr.hide, h.whole, Registry.hide_nothing]
    exact rel_ofExcept fun c hc => h.lawful.plain (hplain r c hc)
  leftover e := rel_fail (h.lawful.leftover e)
  endless := @fun _ => rel_fail h.endless
  noting hf hx := rel_mapFailure hf hx

theorem extend (m : Model K) (stmt : Statement K) : W.Rel (m.extend stmt) (m.extend stmt) := by
  cases stmt with
  | rule r => exact Rel.bind (h.folds.equations r) fun _ => rel_pure _
  | goal g => exact Rel.bind (h.folds.objective g) fun _ => rel_pure _
  | declaration _ _ | ignored _ => exact rel_pure _

/-- A build follows any regime that evaluation follows. -/
theorem ofStatements (symbol : String) (stmts : List (Statement K)) :
    W.Rel (Model.ofStatements symbol stmts) (Model.ofStatements symbol stmts) := by
  have hfold : ∀ (stmts : List (Statement K)) (m : Model K),
      W.Rel (stmts.foldlM Model.extend m) (stmts.foldlM Model.extend m) := by
    intro stmts
    induction stmts with
    | nil => exact fun m => rel_pure m
    | cons stmt stmts ih =>
      intro m
      exact (h.extend m stmt).bind ih
  have hwarn : ∀ (text : String → String) (labels : List String),
      W.Rel (labels.forM fun l => warn (text l)) (labels.forM fun l => warn (text l)) := by
    intro text labels
    induction labels with
    | nil => exact rel_pure _
    | cons l labels ih => exact (rel_warn _).bind fun _ => ih
  exact (hfold stmts {}).bind fun m => (hwarn _ _).bind fun _ => rel_pure m

end Regime.Single

/-! ## Registries that stay current -/

namespace Registry

/-- Evaluation in the states of a registry in which everything computed is what it amounts to. -/
def currently (B : Registry K) : Regime K where
  base := B
  hidden _ := false
  excused _ := False
  barred _ := False
  kept r := r.CurrentFor B

variable {B : Registry K}

theorem lawful_currently : B.currently.Lawful fun _ _ => True where
  plain _ h := h
  leftover _ h := h
  visible _ _ := rfl
  undeclared _ _ h := h
  cyclic _ _ _ := ⟨fun h => h, .inr rfl⟩

/-- An evaluation that leaves a current registry current. -/
theorem rel_currently {x : Run K α} (hx : B.unrestricted.Rel x x)
    (hcurrent : Maintains (·.CurrentFor B) x) : B.currently.Rel x x := by
  intro s t hst
  have hB : B.invalidate = B := by
    rw [← show s.registry.invalidate = B from hst.base, invalidate_invalidate]
  have hlike : B.unrestricted.Like s.registry t.registry :=
    ⟨hst.keyed, hst.base.trans hB.symm, hst.hide, trivial⟩
  refine ⟨?_, fun _ _ _ h => h⟩
  obtain ⟨_, _, _, hfalse⟩ | ⟨_, _, _, hfalse⟩ | ⟨a, s', t', hs', ht', hlike'⟩ := (hx hlike).1
  · exact hfalse.elim
  · exact hfalse.elim
  · have hkept := hcurrent hst.kept
    rw [hs'] at hkept
    exact .inr (.inr ⟨a, s', t', hs', ht', hlike'.keyed, hkept.base, hlike'.hide, hkept⟩)

section Evaluation

variable (hB : B.Keyed) (hdata : B.IsData) (hfamilies : B.FamiliesAgree)

include hB hdata hfamilies

theorem parameter_current (n : Nat) (symbol : String) (idx : Index K) :
    Maintains (·.CurrentFor B) ((LinearModel.lookup n).parameter symbol idx) := by
  rw [(lookup_asks n).parameter]
  refine Maintains.bind (fun _ hs => ?_) fun p => maintains_ofExcept _
  exact (resolving_amounts hB hdata hfamilies n (q := .parameter symbol) trivial hs).1

theorem elements_current (n : Nat) (symbol : String) (env : Env K) (given : Option (Value K)) :
    Maintains (·.CurrentFor B) ((LinearModel.lookup n).elements symbol env given) := by
  intro s hs
  have hisData : s.registry.IsData := isData_invalidate.1 (hs.base ▸ hdata)
  have hbare := ((lookup_forgets hisData n).elements (a := env) (b := env.bare) symbol given rfl).2
    ⟨hs.keyed, rfl⟩
  rw [hbare, (lookup_asks n).elements]
  exact (resolving_amounts hB hdata hfamilies n (q := .elements symbol env.bare given) rfl hs).1

theorem lookups_currently (n : Nat) : (Regime.comparison (lawful_currently (B := B))).Lookups
    (LinearModel.lookup n) (LinearModel.lookup n) := by
  have hfree := B.single_unrestricted.lookups
  induction n with
  | zero =>
    exact ⟨fun _ _ _ => Regime.rel_fail id, fun _ _ _ _ => Regime.rel_fail id,
      fun _ _ _ => Regime.rel_fail id⟩
  | succ n ih =>
    refine ⟨fun symbol idx _ => ?_, fun {a b} symbol given hab _ => ?_, fun hab _ _ => ?_⟩
    · refine rel_currently ((hfree (n + 1)).parameter (A := []) symbol idx trivial) ?_
      exact parameter_current hB hdata hfamilies (n + 1) symbol idx
    · obtain rfl : b = a := by
        have hsees : b = a.hide fun _ => false := hab
        rw [hsees, Env.hide_nothing]
      refine rel_currently ((hfree (n + 1)).elements symbol given hab trivial) ?_
      exact elements_current hB hdata hfamilies (n + 1) symbol b given
    · exact Comparison.exprNumber ih _ ⟨hab.sees, rfl, Env.binds_nil _⟩ fun _ _ => trivial

theorem single_currently : B.currently.Single fun _ _ => True where
  whole := rfl
  lawful := lawful_currently
  descends _ _ _ _ := trivial
  params _ _ := trivial
  endless h := h
  lookups := lookups_currently hB hdata hfamilies

end Evaluation

end Registry

/-- A computation that follows the regime leaves a current registry current. -/
theorem Regime.Rel.current {B : Registry K} {x : Run K α} (h : B.currently.Rel x x) :
    Maintains (·.CurrentFor B) x := by
  intro s hs
  have hlike : B.currently.Like s.registry s.registry :=
    ⟨hs.keyed, hs.base, (Registry.hide_nothing _).symm, hs⟩
  obtain ⟨_, _, _, hfalse⟩ | ⟨_, _, _, hfalse⟩ | ⟨a, s', t', hx, -, hlike'⟩ := (h hlike).1
  · exact hfalse.elim
  · exact hfalse.elim
  · rw [hx]
    exact hlike'.kept

end LinearModel
