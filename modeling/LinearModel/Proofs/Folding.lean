import LinearModel.Proofs.LinearForm
import LinearModel.Proofs.NormalForm

/-!
# Folding

Simplification folds a parameter once the registry holds its value, so how far an expression is
folded depends on what has been computed. Folding with all values that parameters will ever have
makes up for the difference: an expression that has been simplified on the way folds to the same as
one that has not.

An operation that fails to fold is left as it is. An operand multiplied by zero is gone before it
can fail, so an expression may fold to a number although it never evaluates. If it does evaluate,
then it evaluates to what it folds to.
-/
namespace LinearModel

open Run

namespace Expr

section Definition

variable {K : Type} [Scalar K]

mutual
/-- An expression in which everything is folded that the values of parameters allow. -/
def folded (ps : Table String (Parameter K)) : Expr K → Expr K
  | .name s => (foldName (some { params := ps }) s).toOption.getD (.name s)
  | .param s es =>
    (foldParam (some { params := ps }) s (allFolded ps es)).toOption.getD
      (.param s (allFolded ps es))
  | .arith op l r => foldArith op (folded ps l) (folded ps r)
  | .neg e => foldNeg (folded ps e)
  | .rel op l r =>
    (foldRel op (folded ps l) (folded ps r)).toOption.getD (.rel op (folded ps l) (folded ps r))
  | .logic op es => (foldLogic op (allFolded ps es)).toOption.getD (.logic op (allFolded ps es))
  | .field e f => (foldField (folded ps e) f).toOption.getD (.field (folded ps e) f)
  | e => e

/-- Expressions in which everything is folded that the values of parameters allow. -/
def allFolded (ps : Table String (Parameter K)) : List (Expr K) → List (Expr K)
  | [] => []
  | e :: es => folded ps e :: allFolded ps es
end

theorem folded_of_isLiteral (ps : Table String (Parameter K)) {e : Expr K}
    (h : e.isLiteral = true) : e.folded ps = e := by
  cases e with
  | num x | str s | record s vs => simp only [folded]
  | _ => simp [isLiteral] at h

theorem allFolded_of_isLiteral (ps : Table String (Parameter K)) {es : List (Expr K)}
    (h : es.all isLiteral = true) : allFolded ps es = es := by
  induction es with
  | nil => simp only [allFolded]
  | cons e es ih =>
    rw [List.all_cons, Bool.and_eq_true] at h
    rw [allFolded, folded_of_isLiteral ps h.1, ih h.2]

end Definition

variable {e e' l r : Expr ℚ} {es es' : List (Expr ℚ)} {ps : Table String (Parameter ℚ)}

/-! ## Neutral elements -/

theorem eq_num_of_isNumber {c : ℚ} (h : e.isNumber c = true) : e = .num c := by
  cases e with
  | num x =>
    obtain rfl : x = c := by simpa [isNumber] using h
    rfl
  | _ => simp [isNumber] at h

theorem foldArith_zero_add (e : Expr ℚ) : foldArith .add (.num 0) e = e := by
  cases e <;> simp [foldArith, isNumber]

theorem foldArith_add_zero (e : Expr ℚ) : foldArith .add e (.num 0) = e := by
  cases e <;> simp [foldArith, isNumber]

theorem foldArith_sub_zero (e : Expr ℚ) : foldArith .sub e (.num 0) = e := by
  cases e <;> simp [foldArith, isNumber]

theorem foldArith_zero_sub (e : Expr ℚ) : foldArith .sub (.num 0) e = foldNeg e := by
  cases e <;> simp [foldArith, isNumber, foldNeg]

theorem foldArith_zero_mul (e : Expr ℚ) : foldArith .mul (.num 0) e = .num 0 := by
  cases e <;> simp [foldArith, isNumber, zero]

theorem foldArith_mul_zero (e : Expr ℚ) : foldArith .mul e (.num 0) = .num 0 := by
  cases e <;> simp [foldArith, isNumber, zero]

theorem foldArith_one_mul (e : Expr ℚ) : foldArith .mul (.num 1) e = e := by
  cases e <;> simp [foldArith, isNumber]

theorem foldArith_mul_one (e : Expr ℚ) : foldArith .mul e (.num 1) = e := by
  cases e <;> simp [foldArith, isNumber]

theorem foldArith_div_one (e : Expr ℚ) : foldArith .div e (.num 1) = e := by
  cases e <;> simp [foldArith, isNumber]

/-! ## Negations -/

theorem foldNeg_foldNeg (h : ∀ e', e ≠ .neg e') : foldNeg (foldNeg e) = e := by
  cases e with
  | num x => simp [foldNeg]
  | neg e' => exact absurd rfl (h e')
  | _ => rfl

/-- A literal is not a negation, and neither is an operation that is left as it is. -/
theorem foldNeg_foldNeg_getD {x : Except (Cause ℚ) (Expr ℚ)} (he : ∀ e', e ≠ .neg e')
    (h : ∀ e', x = .ok e' → e'.isLiteral = true ∨ e' = e) :
    foldNeg (foldNeg (x.toOption.getD e)) = x.toOption.getD e := by
  refine foldNeg_foldNeg fun e₁ he₁ => ?_
  cases x with
  | error c => exact he e₁ he₁
  | ok e' =>
    obtain hlit | rfl := h e' rfl
    · obtain rfl : e' = .neg e₁ := he₁
      simp [isLiteral] at hlit
    · exact he e₁ he₁

/-- In a folded expression no number and no negation is negated, so that undoing a negation is
negating it. -/
theorem foldNeg_foldNeg_folded : ∀ e : Expr ℚ, foldNeg (foldNeg (e.folded ps)) = e.folded ps
  | .num _ | .str _ | .record _ _ | .var _ _ _ | .ivar _ _ | .dexpr _ _ | .item _ _
  | .sum _ _ _ => by
    simp only [folded]
    exact foldNeg_foldNeg (by simp)
  | .name s => by
    exact foldNeg_foldNeg_getD (by simp) fun _ h => (foldName_cases h).imp_right And.left
  | .param s es => by
    exact foldNeg_foldNeg_getD (by simp) fun _ h => (foldParam_cases h).imp_right And.left
  | .arith op l r => by
    simp only [folded]
    obtain ⟨x, h⟩ | h | h | h | h := foldArith_cases op (l.folded ps) (r.folded ps) <;> rw [h]
    exacts [by simp [foldNeg], foldNeg_foldNeg_folded l, foldNeg_foldNeg_folded r,
      congrArg foldNeg (foldNeg_foldNeg_folded r), rfl]
  | .neg e => by
    simp only [folded]
    rw [foldNeg_foldNeg_folded e]
  | .rel op l r => by
    exact foldNeg_foldNeg_getD (by simp) fun _ h => (foldRel_cases h).imp And.right And.right
  | .logic op es => by
    exact foldNeg_foldNeg_getD (by simp) fun _ h => (foldLogic_cases h).imp And.right And.right
  | .field e f => by
    exact foldNeg_foldNeg_getD (by simp) fun _ h => (foldField_cases h).imp And.right And.right

/-! ## Folding on the way -/

theorem folded_foldNeg (e : Expr ℚ) : (foldNeg e).folded ps = (Expr.neg e).folded ps := by
  cases e with
  | num x => simp only [foldNeg, folded]
  | neg e =>
    exact (foldNeg_foldNeg_folded e).symm
  | _ => simp only [foldNeg]

theorem folded_foldArith (op : ArithOp) (l r : Expr ℚ) :
    (foldArith op l r).folded ps = (Expr.arith op l r).folded ps := by
  have hnum : ∀ x : ℚ, (Expr.num x).folded ps = .num x := fun x => folded_of_isLiteral ps rfl
  conv_lhs => unfold foldArith
  split
  · simp only [folded, foldArith]
  · cases op with
    | add =>
      dsimp only
      split_ifs with hl hr
      · rw [eq_num_of_isNumber hl, folded, hnum]
        exact (foldArith_zero_add _).symm
      · rw [eq_num_of_isNumber hr, folded, hnum]
        exact (foldArith_add_zero _).symm
      · rfl
    | sub =>
      dsimp only
      split_ifs with hr hl
      · rw [eq_num_of_isNumber hr, folded, hnum]
        exact (foldArith_sub_zero _).symm
      · rw [eq_num_of_isNumber hl, folded_foldNeg, folded, folded, hnum]
        exact (foldArith_zero_sub _).symm
      · rfl
    | mul =>
      dsimp only
      split_ifs with hzero hl hr
      · rw [show (zero : Expr ℚ) = .num 0 from rfl, hnum, folded]
        obtain hl | hr := Bool.or_eq_true_iff.1 hzero
        · rw [eq_num_of_isNumber hl, hnum]
          exact (foldArith_zero_mul _).symm
        · rw [eq_num_of_isNumber hr, hnum]
          exact (foldArith_mul_zero _).symm
      · rw [eq_num_of_isNumber hl, folded, hnum]
        exact (foldArith_one_mul _).symm
      · rw [eq_num_of_isNumber hr, folded, hnum]
        exact (foldArith_mul_one _).symm
      · rfl
    | div =>
      dsimp only
      split_ifs with hr
      · rw [eq_num_of_isNumber hr, folded, hnum]
        exact (foldArith_div_one _).symm
      · rfl

theorem folded_foldRel {op : RelOp} (h : foldRel op l r = .ok e') :
    e'.folded ps = (Expr.rel op l r).folded ps := by
  obtain ⟨hlit, he'⟩ | ⟨_, rfl⟩ := foldRel_cases h
  · obtain ⟨hl, hr⟩ := Bool.and_eq_true_iff.1 hlit
    rw [folded_of_isLiteral ps he', folded, folded_of_isLiteral ps hl, folded_of_isLiteral ps hr, h]
    rfl
  · rfl

theorem folded_foldLogic {op : LogicOp} (h : foldLogic op es = .ok e') :
    e'.folded ps = (Expr.logic op es).folded ps := by
  obtain ⟨hnum, he'⟩ | ⟨_, rfl⟩ := foldLogic_cases h
  · have hes : es.all isLiteral = true := List.all_eq_true.2 fun e he =>
      isLiteral_of_isNum (List.all_eq_true.1 hnum e he)
    rw [folded_of_isLiteral ps he', folded, allFolded_of_isLiteral ps hes, h]
    rfl
  · rfl

theorem folded_foldField {f : String} (h : foldField e f = .ok e') :
    e'.folded ps = (Expr.field e f).folded ps := by
  obtain ⟨he, he'⟩ | ⟨_, rfl⟩ := foldField_cases h
  · rw [folded_of_isLiteral ps he', folded, folded_of_isLiteral ps (isLiteral_of_isRecord he), h]
    rfl
  · rfl

end Expr

/-- Every value that a registry holds is among the given ones. -/
def Registry.Foretold (r : Registry ℚ) (ps : Table String (Parameter ℚ)) : Prop :=
  ∀ ⦃s p⦄, r.params.find? s = some p → p.isSettled = true → ps.find? s = some p

/-- A parameter that holds something is settled. -/
theorem Registry.Tidy.isSettled {r : Registry ℚ} (hr : r.Tidy) {s : String} {p : Parameter ℚ}
    (hp : r.params.find? s = some p) (hheld : p.value ≠ none ∨ p.values ≠ Table.empty) :
    p.isSettled = true := by
  by_contra hopen
  obtain ⟨hvalue, hvalues⟩ := hr.unsettled hp (Bool.eq_false_iff.2 hopen)
  exact hheld.elim (absurd hvalue) (absurd hvalues)

namespace Expr

variable {e e' : Expr ℚ} {es : List (Expr ℚ)} {ps : Table String (Parameter ℚ)} {r t : Registry ℚ}

theorem folded_foldName (hr : r.Tidy) (hps : r.Foretold ps) {s : String}
    (h : foldName (some r) s = .ok e') : e'.folded ps = (Expr.name s).folded ps := by
  unfold foldName at h
  split at h
  · cases h
    rfl
  · rename_i p hp
    split_ifs at h with hindexed
    · cases h
      rfl
    · split at h
      · rename_i v hv
        have hfound := hps hp (hr.isSettled hp (.inl (by simp [hv])))
        rw [folded_of_isLiteral ps (isLiteral_ofValue h), folded]
        simp [foldName, hfound, hindexed, hv, h, Except.toOption]
      · cases h
        rfl

theorem folded_foldParam (hr : r.Tidy) (hps : r.Foretold ps) {s : String}
    (h : foldParam (some r) s es = .ok e') : e'.folded ps = (Expr.param s es).folded ps := by
  unfold foldParam at h
  split at h
  · cases h
    rfl
  · rename_i hlit
    split at h
    · cases h
      rfl
    · rename_i p hp
      split_ifs at h with hdim
      · cases h
        rfl
      · split at h
        · rename_i v hv
          have hfound := hps hp (hr.isSettled hp (.inr fun hempty => by simp [hempty] at hv))
          have hes : es.all isLiteral = true := by simpa using hlit
          rw [folded_of_isLiteral ps (isLiteral_ofValue h), folded, allFolded_of_isLiteral ps hes]
          simp [foldParam, hes, hfound, hdim, hv, h, Except.toOption]
        · cases h
          rfl

theorem allFolded_of_forall₂ {p : Prop} (hp : p) {es' : List (Expr ℚ)} (hes : AllPlain es)
    (h : List.Forall₂ (fun e n => p → e.Plain → n.folded ps = e.folded ps) es es') :
    allFolded ps es' = allFolded ps es := by
  induction h with
  | nil => rfl
  | cons he _ ih =>
    rw [allFolded, allFolded, he hp hes.1, ih hes.2]

theorem followsSimplify_folded (hr : r.Tidy) (hps : r.Foretold ps) : FollowsSimplify fun R e n =>
    R = some r → e.Plain → n.folded ps = e.folded ps where
  atom _ _ _ := rfl
  name h hR _ := folded_foldName hr hps (hR ▸ h)
  param hes h hR he := by
    rw [folded_foldParam hr hps (hR ▸ h), folded, folded, allFolded_of_forall₂ hR he.2 hes]
  arith ha hb hR he := by
    rw [folded_foldArith, folded, folded, ha hR he.1, hb hR he.2]
  neg hn hR he := by
    rw [folded_foldNeg, folded, folded, hn hR he]
  rel ha hb h hR he := by
    rw [folded_foldRel h, folded, folded, ha hR he.1, hb hR he.2]
  logic hes h hR he := by
    rw [folded_foldLogic h, folded, folded, allFolded_of_forall₂ hR he hes]
  field hn h hR he := by
    rw [folded_foldField h, folded, folded, hn hR he]
  ivar _ _ he := by simp only [Plain] at he
  item _ _ he := by simp only [Plain] at he
  dexpr _ _ he := by simp only [Plain] at he
  sum _ _ he := by simp only [Plain] at he
  sumIf _ _ _ he := by simp only [Plain] at he

/-- Simplification on the way does not change what an expression folds to in the end. -/
theorem folded_simplify (hr : r.Tidy) (hps : r.Foretold ps) (e : Expr ℚ) (he : e.Plain)
    (h : e.simplify (some r) = .ok e') : e'.folded ps = e.folded ps :=
  (followsSimplify_folded hr hps).simplify e h rfl he

/-! ## Folding and evaluation -/

variable {m : Nat} {a : Env ℚ}

theorem Refines.getD {x : Except (Cause ℚ) (Expr ℚ)} {e₁ : Expr ℚ} (h₁ : Refines t m a a e e₁)
    (h : ∀ e', x = .ok e' → Refines t m a a e₁ e') : Refines t m a a e (x.toOption.getD e₁) := by
  cases x with
  | error c => exact h₁
  | ok e' => exact h₁.trans (h e' rfl)

mutual
/-- Where an expression has a value, it folds to that value. -/
theorem refines_folded (hR : Reads (some t) t a) :
    ∀ e : Expr ℚ, e.Plain → Refines t m a a e (e.folded t.params)
  | .num x, _ | .str s, _ | .record s vs, _ => by
    exact .refl _
  | .name s, _ => by
    exact .getD (.refl _) fun _ h => refines_foldName hR h
  | .param s es, he => by
    have hes := allRefines_folded hR es he.2
    have hne : allFolded t.params es ≠ [] := by
      intro hnil
      rw [hnil] at hes
      cases hes
      exact he.1 rfl
    exact .getD (.param s hes) fun _ h => refines_foldParam hR (fun hnil => absurd hnil hne) h
  | .arith op l r, he => by
    exact (Refines.arith op (refines_folded hR l he.1) (refines_folded hR r he.2)).trans
      (refines_foldArith op _ _)
  | .neg e, he => by
    exact (Refines.neg (refines_folded hR e he)).trans (refines_foldNeg _)
  | .rel op l r, he => by
    exact .getD (.rel op (refines_folded hR l he.1) (refines_folded hR r he.2))
      fun _ => refines_foldRel
  | .logic op es, he => by
    exact .getD (.logic op (allRefines_folded hR es he)) fun _ => refines_foldLogic
  | .field e f, he => by
    exact .getD (.field f (refines_folded hR e he)) fun _ => refines_foldField
  | .var _ _ _, he | .ivar _ _, he | .dexpr _ _, he | .item _ _, he | .sum _ _ _, he => by
    simp only [Plain] at he

theorem allRefines_folded (hR : Reads (some t) t a) :
    ∀ es : List (Expr ℚ), AllPlain es → List.Forall₂ (Refines t m a a) es (allFolded t.params es)
  | [], _ => by
    exact .nil
  | e :: es, he => by
    exact .cons (refines_folded hR e he.1) (allRefines_folded hR es he.2)
end

end Expr

end LinearModel
