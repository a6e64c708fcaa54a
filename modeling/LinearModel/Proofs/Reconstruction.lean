import LinearModel.Proofs.LinearForm
import LinearModel.Proofs.Reached

/-!
# Linearization reconstructs expressions

In every registry that declarations and data lead to, the linear form of an expression evaluates to
what the expression evaluates to, less the dropped coefficients times the values of their variables.
-/
namespace LinearModel

open Run LinearForm

theorem returns_linearize {K : Type} [Scalar K] {e : Expr K} {env : Env K} {s s' : Store K}
    {f : LinearForm K} : (linearize e env).Returns s f s' ↔
      ∃ ts, (affineTerms e env).Returns s ts s' ∧ ofTerms s'.registry ts = .ok f := by
  simp only [linearize, returns_bind, returns_registry, returns_ofExcept]
  constructor
  · rintro ⟨ts, s₁, hts, r, s₂, ⟨rfl, rfl⟩, hf, rfl⟩
    exact ⟨ts, hts, hf⟩
  · rintro ⟨ts, hts, hf⟩
    exact ⟨ts, s', hts, _, s', ⟨rfl, rfl⟩, hf, rfl⟩

theorem returns_collected {K : Type} [Scalar K] {e : Expr K} {env : Env K} {s s' : Store K}
    {cs : List (String × Expr K)} : (collected e env).Returns s cs s' ↔
      ∃ ts, (affineTerms e env).Returns s ts s' ∧ collect s'.registry ts = .ok cs := by
  simp only [collected, returns_bind, returns_registry, returns_ofExcept]
  constructor
  · rintro ⟨ts, s₁, hts, r, s₂, ⟨rfl, rfl⟩, hcs, rfl⟩
    exact ⟨ts, hts, hcs⟩
  · rintro ⟨ts, hts, hcs⟩
    exact ⟨ts, s', hts, _, s', ⟨rfl, rfl⟩, hcs, rfl⟩

theorem LinearForm.weigh_eq_zero {σ : Assignment} {cs : List (String × ℚ)}
    (h : ∀ c ∈ cs, c.2 = 0) : weigh σ cs = 0 := by
  refine List.sum_eq_zero fun x hx => ?_
  obtain ⟨c, hc, rfl⟩ := List.mem_map.1 hx
  rw [h c hc, zero_mul]

/-- An expression is linearized, and then evaluated under an assignment. If it refers to parameters
by proper indices and no parameter is hidden by a binding, then its linear form evaluates to the
same number, less the coefficients that were dropped times the values of their variables. -/
theorem linearize_reconstructs {s s₁ s₂ : Store ℚ} {e : Expr ℚ} {env : Env ℚ} {σ : Assignment}
    {f : LinearForm ℚ} {v : ℚ} (hs : s.registry.Reached) (he : e.Indexed)
    (hfree : ∀ symbol, s.registry.params.contains symbol = true → env.get? symbol = none)
    (hvalues : ∀ n u, env.values.find? n = some u → σ.values.find? n = some u)
    (hf : (linearize e env).Returns s f s₁)
    (hv : (e.evaluate (env.under σ.values)).Returns s₁ v s₂) :
    ∃ cs, (collected e env).Returns s cs s₁ ∧
      (f.evaluate σ.values).Gives s₂.registry
        (v - weigh σ (droppedAmong cs)) ∧
      ((∀ d ∈ droppedAmong cs, d.2 = 0) →
        (f.evaluate σ.values).Gives s₂.registry v) := by
  have hsound := hs.isSound
  obtain ⟨ts, hts, hform⟩ := returns_linearize.1 hf
  obtain ⟨hkept₁, hadd⟩ := affineTerms_secures e env hsound.toTidy hts
  have htidy₁ := hsound.toTidy.kept hkept₁
  obtain ⟨hkept₂, hgives⟩ := evaluate_keeps e _ htidy₁.toKeyed hv
  have hkept := hkept₁.trans hkept₂
  have hfits : env.Fits s₂.registry σ := by
    refine ⟨fun symbol hsymbol => hfree symbol ?_, hvalues⟩
    rwa [hkept.params.contains]
  have hsum := hadd hkept₂ (hsound.kept hkept).wellIndexed hfits he (hgives (.refl _))
  obtain ⟨cs, hcs, hevaluate⟩ := hsum.ofTerms htidy₁ hkept₂ hform
  refine ⟨cs, returns_collected.2 ⟨ts, hts, hcs⟩, hevaluate, fun hzero => ?_⟩
  rwa [weigh_eq_zero hzero, sub_zero] at hevaluate

/-- Twice one variable, and a parameter times another. -/
def weightedPair : Expr ℚ :=
  .arith .add (.arith .mul (.num 2) (.var "x" "x" none))
    (.arith .mul (.param "p" [.num 1]) (.var "y" "y" none))

/-- An assignment to the two variables. -/
def pairAssignment : Assignment := .ofNumbers [("x", 5), ("y", 7)]

theorem linearize_reconstructs_small :
    ∃ (s s₁ s₂ : Store ℚ) (f : LinearForm ℚ), s.registry.Reached ∧
      (linearize weightedPair Env.empty).Returns s f s₁ ∧
      (weightedPair.evaluate (Env.empty.under pairAssignment.values)).Returns s₁
        (10 + 7 / 10 ^ 12) s₂ ∧
      (f.evaluate pairAssignment.values).Gives s₂.registry 10 := by
  have hrun : (((do
      let _ ← parseStatement false "range I = 1..1;"
      let _ ← parseStatement false "float p[I] = [0.000000000001];"
      let f ← linearize weightedPair Env.empty
      weightedPair.evaluate (Env.empty.under pairAssignment.values)) :
        Run ℚ ℚ).start {}).1.toOption =
        some (10 + 7 / 10 ^ 12) := by decide +kernel
  have hdropped : (((do
      let _ ← parseStatement false "range I = 1..1;"
      let _ ← parseStatement false "float p[I] = [0.000000000001];"
      let cs ← collected weightedPair Env.empty
      return droppedAmong cs) : Run ℚ _).start {}).1.toOption =
        some [("y", 1 / 10 ^ 12)] := by decide +kernel
  obtain ⟨s₂, h⟩ := returns_of_toOption hrun
  simp only [returns_bind] at h
  obtain ⟨_, s₀, hrange, _, s, hp, f, s₁, hf, hv⟩ := h
  have hs : s.registry.Reached := .read (.read .empty hrange) hp
  have he : weightedPair.Indexed := by simp [weightedPair, Expr.Indexed, Expr.AllIndexed]
  obtain ⟨cs, hcs, hevaluate, _⟩ := linearize_reconstructs hs he (fun _ _ => rfl)
    (fun _ _ h => by cases h) hf hv
  obtain ⟨_, h⟩ := returns_of_toOption hdropped
  simp only [returns_bind] at h
  obtain ⟨_, s₀', hrange', _, s', hp', cs', s₁', hcs', h⟩ := h
  obtain ⟨_, rfl⟩ := hrange.unique hrange'
  obtain ⟨_, rfl⟩ := hp.unique hp'
  obtain ⟨rfl, rfl⟩ := hcs.unique hcs'
  rw [(returns_pure.1 h).1] at hevaluate
  refine ⟨s, s₁, s₂, f, hs, hf, hv, ?_⟩
  convert hevaluate using 1
  decide +kernel

end LinearModel
