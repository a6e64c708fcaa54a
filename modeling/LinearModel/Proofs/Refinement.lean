import LinearModel.Proofs.Exact

/-!
# Refinement

Substitution and simplification replace an expression by another one that evaluates to the same
element wherever the first evaluates to anything. The second may evaluate in more places: a sum
that was multiplied by zero is gone. Every constructor of expressions keeps this relation.
-/
namespace LinearModel

open Expr

/-- Only the decision expressions that are being looked into decide whether another one may be. -/
theorem Env.enter_of_spawn {K : Type} {a b inside : Env K} {s : String} (hab : a.spawn = b.spawn)
    (h : a.enter s = .ok inside) : ∃ inside', b.enter s = .ok inside' ∧
      inside.spawn = inside'.spawn := by
  obtain ⟨hvalues, hactive⟩ : a.values = b.values ∧ a.active = b.active := by
    simpa [Env.spawn] using hab
  simp only [Env.enter] at h ⊢
  rw [← hactive]
  split at h
  · cases h
  · rename_i hs
    cases h
    simp only [hs]
    exact ⟨_, rfl, by simp [Env.spawn, hvalues]⟩

namespace Expr

open Run

/-- Where the first expression has a value in the first environment, the second one has the same in
the second. -/
def Refines (t : Registry ℚ) (m : Nat) (a b : Env ℚ) (e e' : Expr ℚ) : Prop :=
  ∀ v, (e.value (known m) a).Gives t v → ∃ w, (e'.value (known m) b).Gives t w ∧ w.Same v

variable {t : Registry ℚ} {m : Nat} {a b : Env ℚ} {e e' : Expr ℚ} {es es' : List (Expr ℚ)}

namespace Refines

theorem refl (e : Expr ℚ) : Refines t m a a e e := fun v hv => ⟨v, hv, .refl v⟩

theorem trans {c : Env ℚ} {e'' : Expr ℚ} (h₁ : Refines t m a b e e')
    (h₂ : Refines t m b c e' e'') : Refines t m a c e e'' := by
  intro v hv
  obtain ⟨w, hw, hwv⟩ := h₁ v hv
  obtain ⟨u, hu, huw⟩ := h₂ w hw
  exact ⟨u, hu, huw.trans hwv⟩

theorem number (h : Refines t m a b e e') {x : ℚ} (hx : (e.number (known m) a).Gives t x) :
    (e'.number (known m) b).Gives t x := by
  obtain ⟨v, hv, hvx⟩ := gives_number.1 hx
  obtain ⟨w, hw, hwv⟩ := h v hv
  exact gives_number.2 ⟨w, hw, hwv.scalar?.trans hvx⟩

/-- An expression that is always a number is refined by one that is the same number. -/
theorem of_number (h : ∀ v, (e.value (known m) a).Gives t v → ∃ x, v.scalar? = some x ∧
    (e'.number (known m) b).Gives t x) : Refines t m a b e e' := by
  intro v hv
  obtain ⟨x, hvx, hx⟩ := h v hv
  obtain ⟨w, hw, hwx⟩ := gives_number.1 hx
  exact ⟨w, hw, Value.same_of_scalar? hwx hvx⟩

/-! ## Lists of expressions -/

theorem elements (h : List.Forall₂ (Refines t m a b) es es') {idx : Index ℚ}
    (hidx : (elements (known m) es a).Gives t idx) : (elements (known m) es' b).Gives t idx := by
  induction h generalizing idx with
  | nil => exact hidx
  | cons he _ ih =>
    obtain ⟨v, vs, hv, hvs, rfl⟩ := gives_elements_cons.1 hidx
    obtain ⟨w, hw, hwv⟩ := he v hv
    exact gives_elements_cons.2 ⟨w, vs, hw, ih hvs, by rw [show w.normalize = v.normalize from hwv]⟩

theorem firstTruth (h : List.Forall₂ (Refines t m a b) es es') {o : Option Bool}
    (ho : (firstTruth (known m) es a).Gives t o) : (firstTruth (known m) es' b).Gives t o := by
  cases h with
  | nil => exact ho
  | cons he _ =>
    rw [gives_firstTruth] at ho ⊢
    obtain ⟨hnil, _⟩ | ⟨_, _, x, hes, hx, rfl⟩ := ho
    · cases hnil
    · cases hes
      exact .inr ⟨_, _, x, rfl, he.number hx, rfl⟩

theorem allTrue (h : List.Forall₂ (Refines t m a b) es es') {c : Bool}
    (hc : (allTrue (known m) es a).Gives t c) : (allTrue (known m) es' b).Gives t c := by
  induction h with
  | nil => exact hc
  | cons he _ ih =>
    obtain ⟨x, hx, hc⟩ := gives_allTrue_cons.1 hc
    exact gives_allTrue_cons.2 ⟨x, he.number hx, hc.imp_left fun hc => ⟨hc.1, ih hc.2⟩⟩

theorem anyTrue (h : List.Forall₂ (Refines t m a b) es es') {c : Bool}
    (hc : (anyTrue (known m) es a).Gives t c) : (anyTrue (known m) es' b).Gives t c := by
  induction h with
  | nil => exact hc
  | cons he _ ih =>
    obtain ⟨x, hx, hc⟩ := gives_anyTrue_cons.1 hc
    exact gives_anyTrue_cons.2 ⟨x, he.number hx, hc.imp_right fun hc => ⟨hc.1, ih hc.2⟩⟩

/-! ## Constructors -/

theorem arith {l l' r r' : Expr ℚ} (op : ArithOp) (hl : Refines t m a b l l')
    (hr : Refines t m a b r r') : Refines t m a b (.arith op l r) (.arith op l' r') := by
  intro v hv
  obtain ⟨x, y, hx, hy, rfl⟩ := gives_value_arith.1 hv
  exact ⟨_, gives_value_arith.2 ⟨x, y, hl.number hx, hr.number hy, rfl⟩, .refl _⟩

theorem neg (h : Refines t m a b e e') : Refines t m a b (.neg e) (.neg e') := by
  intro v hv
  obtain ⟨x, hx, rfl⟩ := gives_value_neg.1 hv
  exact ⟨_, gives_value_neg.2 ⟨x, h.number hx, rfl⟩, .refl _⟩

theorem rel {l l' r r' : Expr ℚ} (op : RelOp) (hl : Refines t m a b l l')
    (hr : Refines t m a b r r') : Refines t m a b (.rel op l r) (.rel op l' r') := by
  intro v hv
  obtain ⟨x, y, c, hx, hy, hc, rfl⟩ := gives_value_rel.1 hv
  obtain ⟨x', hx', hxx'⟩ := hl x hx
  obtain ⟨y', hy', hyy'⟩ := hr y hy
  refine ⟨_, gives_value_rel.2 ⟨x', y', c, hx', hy', ?_, rfl⟩, .refl _⟩
  rw [Value.compare_same op hxx' hyy', hc]

theorem logic (op : LogicOp) (h : List.Forall₂ (Refines t m a b) es es') :
    Refines t m a b (.logic op es) (.logic op es') := by
  intro v hv
  cases op with
  | and =>
    obtain ⟨c, hc, rfl⟩ := gives_value_and.1 hv
    exact ⟨_, gives_value_and.2 ⟨c, allTrue h hc, rfl⟩, .refl _⟩
  | or =>
    obtain ⟨c, hc, rfl⟩ := gives_value_or.1 hv
    exact ⟨_, gives_value_or.2 ⟨c, anyTrue h hc, rfl⟩, .refl _⟩
  | not =>
    obtain ⟨c, hc, rfl⟩ := gives_value_not.1 hv
    exact ⟨_, gives_value_not.2 ⟨c, firstTruth h hc, rfl⟩, .refl _⟩

theorem field (f : String) (h : Refines t m a b e e') :
    Refines t m a b (.field e f) (.field e' f) := by
  intro v hv
  obtain ⟨s, vs, hrecord, hf⟩ := gives_value_field.1 hv
  obtain ⟨w, hw, hsame⟩ := h _ hrecord
  obtain rfl := hsame.eq_record
  exact ⟨v, gives_value_field.2 ⟨s, vs, hw, hf⟩, .refl v⟩

theorem param (s : String) (h : List.Forall₂ (Refines t m a b) es es') :
    Refines t m a b (.param s es) (.param s es') := by
  intro v hv
  obtain ⟨idx, hidx, hv⟩ := gives_value_param.1 hv
  exact ⟨v, gives_value_param.2 ⟨idx, elements h hidx, hv⟩, .refl v⟩

theorem ivar (s : String) (hvalues : a.values = b.values)
    (h : List.Forall₂ (Refines t m a b) es es') : Refines t m a b (.ivar s es) (.ivar s es') := by
  intro v hv
  obtain ⟨n, x, hn, hx, rfl⟩ := gives_value_ivar.1 hv
  obtain ⟨u, idx, hu, hidx, hn⟩ := (gives_variableAt (steady_elements es a)).1 hn
  have hn' := (gives_variableAt (steady_elements es' b)).2 ⟨u, idx, hu, elements h hidx, hn⟩
  refine ⟨_, gives_value_ivar.2 ⟨n, x, hn', ?_, rfl⟩, .refl _⟩
  simpa only [Env.variableValue, hvalues] using hx

theorem item (set : String) (h : List.Forall₂ (Refines t m a b) es es') :
    Refines t m a b (.item set es) (.item set es') := by
  intro v hv
  obtain ⟨d, key, hd, hkey, hv⟩ := (gives_recordAt (steady_elements es a)).1 (gives_value_item.1 hv)
  refine ⟨v, gives_value_item.2 ((gives_recordAt (steady_elements es' b)).2 ?_), .refl v⟩
  exact ⟨d, key, h.length_eq ▸ hd, elements h hkey, hv⟩

theorem dexpr_none (s : String) (hab : a.spawn = b.spawn) :
    Refines t m a b (.dexpr s none) (.dexpr s none) := by
  intro v hv
  obtain ⟨inside, d, inner, x, hin, hscope, hx, rfl⟩ := gives_value_dexpr.1 hv
  obtain ⟨inside', hin', hspawn⟩ := Env.enter_of_spawn hab hin
  obtain ⟨hd, ⟨hi, _, rfl⟩ | ⟨_, _, _, _, he, _⟩⟩ := gives_dexprScope.1 hscope
  · refine ⟨_, gives_value_dexpr.2 ⟨inside', d, inside.spawn, x, hin', ?_, hx, rfl⟩, .refl _⟩
    exact gives_dexprScope.2 ⟨hd, .inl ⟨hi, rfl, hspawn⟩⟩
  · cases he

/-- The index of a decision expression is evaluated inside of it. -/
theorem dexpr (s : String) (hab : a.spawn = b.spawn)
    (h : ∀ {inside inside'}, a.enter s = .ok inside → b.enter s = .ok inside' →
      Refines t m inside inside' e e') :
    Refines t m a b (.dexpr s (some e)) (.dexpr s (some e')) := by
  intro v hv
  obtain ⟨inside, d, inner, x, hin, hscope, hx, rfl⟩ := gives_value_dexpr.1 hv
  obtain ⟨inside', hin', hspawn⟩ := Env.enter_of_spawn hab hin
  obtain ⟨hd, ⟨_, hnone, _⟩ | ⟨i, e₁, u, hi, he, hu, rfl⟩⟩ := gives_dexprScope.1 hscope
  · cases hnone
  · cases he
    obtain ⟨w, hw, hwu⟩ := h hin hin' u hu
    refine ⟨_, gives_value_dexpr.2 ⟨inside', d, inside.spawn.bind i u.normalize, x, hin', ?_, hx,
      rfl⟩, .refl _⟩
    refine gives_dexprScope.2 ⟨hd, .inr ⟨i, e', w, hi, rfl, hw, ?_⟩⟩
    rw [hspawn, show w.normalize = u.normalize from hwu]

theorem holds {c c' : Option (Expr ℚ)} (h : Option.Rel (Refines t m a b) c c') {holds : Bool}
    (hc : (Expr.holds (known m) c a).Gives t holds) :
    (Expr.holds (known m) c' b).Gives t holds := by
  cases h with
  | none => exact hc
  | some h =>
    obtain ⟨x, hx, hholds⟩ := (gives_bind (steady_number _ _) fun _ => steady_pure _).1 hc
    exact (h.number hx).bind hholds

/-- The body and the condition of a sum are evaluated where its iterators are bound. -/
theorem sum {its : List (Iter ℚ)} {c c' : Option (Expr ℚ)}
    (hbody : ∀ inner, Refines t m inner inner e e')
    (hc : ∀ inner, Option.Rel (Refines t m inner inner) c c') :
    Refines t m a a (.sum its e c) (.sum its e' c') := by
  intro v hv
  rw [value_sum, gives_bind (steady_enumerate (steady_number e)) fun _ => steady_pure _] at hv
  obtain ⟨xs, hxs, hv⟩ := hv
  refine ⟨v, ?_, .refl v⟩
  rw [value_sum]
  refine Gives.bind ?_ hv
  simp only [enumerate, Stage.enumerate] at hxs ⊢
  split at hxs
  · exact absurd hxs not_gives_fail
  · rename_i hdepth
    rw [if_neg hdepth]
    have hstages : List.Forall₂ Simulation.steady.Stages (stages (known m) its)
        (stages (known m) its) := Simulation.exprStages (known_steady m) its (.inl trivial)
    have hholds : ∀ inner, (Expr.holds (known m) c inner).Steady := fun inner =>
      Simulation.exprHolds (known_steady m) c rfl (.inl trivial)
    have hfound : ∀ inner (holds : Bool), (if holds then return [← e.number (known m) inner]
        else return [] : Run ℚ (List ℚ)).Steady := by
      intro inner holds
      cases holds with
      | true => exact (steady_number e inner).bind fun _ => steady_pure _
      | false => exact steady_pure _
    refine gives_visit_mono hstages (fun inner => (hholds inner).bind (hfound inner))
      (fun inner ys hys => ?_) hxs
    obtain ⟨holds, hholds, hys⟩ := (gives_bind (hholds inner) (hfound inner)).1 hys
    refine (Refines.holds (hc inner) hholds).bind ?_
    cases holds with
    | true =>
      obtain ⟨x, hx, hys⟩ := (gives_bind (steady_number e inner) fun _ => steady_pure _).1 hys
      exact ((hbody inner).number hx).bind hys
    | false => exact hys

end Refines

end Expr

end LinearModel
