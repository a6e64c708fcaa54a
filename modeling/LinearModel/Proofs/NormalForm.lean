import LinearModel.Proofs.Returns
import LinearModel.Simplification
import LinearModel.Double

/-!
# Normal forms

An expression is reduced if nothing is left in it that simplification folds: no operation between
numbers, no neutral element, no negation of a number or of a negation, no comparison of literals,
no field of a record, and no reference to a parameter that holds a value. Folding gives a reduced
expression if the parts are reduced, whatever the arithmetic makes of the numbers, so a simplified
expression is reduced. A reduced expression is simplified to itself.
-/
namespace LinearModel

namespace Expr

variable {K : Type} [Scalar K]

/-! ## Reduced expressions -/

/-- The value that a reference to a scalar parameter can be replaced by. -/
def heldValue? (r : Option (Registry K)) (s : String) : Option (Value K) :=
  (r.bind (·.params.find? s)).bind fun p => if p.isIndexed then none else p.value

/-- The value that a reference to an indexed parameter can be replaced by. -/
def entryValue? (r : Option (Registry K)) (s : String) (idx : List (Expr K)) : Option (Value K) :=
  if idx.all isLiteral then
    (r.bind (·.params.find? s)).bind fun p =>
      if p.dim ≠ idx.length then none
      else p.values.find? (idx.map fun e => e.literalValue.normalize)
  else none

/-- An expression whose negation can be folded: a number or a negation. -/
def isSigned : Expr K → Bool
  | .num _ | .neg _ => true
  | _ => false

def isRecord : Expr K → Bool
  | .record _ _ => true
  | _ => false

/-- Whether an operation can be folded: both operands are numbers, or one of them is neutral or
makes the other one vanish. -/
def isRedex (op : ArithOp) (l r : Expr K) : Bool :=
  l.isNum && r.isNum || match op with
    | .add | .sub => l.isNumber Scalar.zero || r.isNumber Scalar.zero
    | .mul => l.isNumber Scalar.zero || r.isNumber Scalar.zero || l.isNumber Scalar.one ||
        r.isNumber Scalar.one
    | .div => r.isNumber Scalar.one

mutual
/-- Whether nothing in an expression can be folded. Inside a sum no parameter is. -/
def isReduced (r : Option (Registry K)) : Expr K → Bool
  | .num _ | .str _ | .record _ _ | .var _ _ _ | .dexpr _ none => true
  | .name s => (heldValue? r s).isNone
  | .param s idx => areReduced r idx && (entryValue? r s idx).isNone
  | .ivar _ es | .item _ es => areReduced r es
  | .dexpr _ (some e) => isReduced r e
  | .arith op a b => isReduced r a && isReduced r b && !isRedex op a b
  | .neg e => isReduced r e && !e.isSigned
  | .rel _ a b => isReduced r a && isReduced r b && !(a.isLiteral && b.isLiteral)
  | .logic _ es => areReduced r es && !es.all isNum
  | .field e _ => isReduced r e && !e.isRecord
  | .sum _ body none => isReduced none body
  | .sum _ body (some c) => isReduced none body && isReduced none c

/-- Whether nothing in any of the expressions can be folded. -/
def areReduced (r : Option (Registry K)) : List (Expr K) → Bool
  | [] => true
  | e :: es => isReduced r e && areReduced r es
end

variable {r : Option (Registry K)} {e n a b : Expr K} {es : List (Expr K)} {v : Value K}
  {s : String}

omit [Scalar K] in
theorem isLiteral_of_isNum (h : e.isNum = true) : e.isLiteral = true := by
  cases e with
  | num x => rfl
  | _ => simp [isNum] at h

omit [Scalar K] in
theorem isLiteral_of_isRecord (h : e.isRecord = true) : e.isLiteral = true := by
  cases e with
  | record s vs => rfl
  | _ => simp [isRecord] at h

theorem isReduced_of_isLiteral (h : e.isLiteral = true) : e.isReduced r = true := by
  cases e with
  | num x | str s | record s vs => simp only [isReduced]
  | _ => simp [isLiteral] at h

theorem isLiteral_ofValue (h : ofValue v = .ok e) : e.isLiteral = true := by
  cases v with
  | int i =>
    simp only [ofValue] at h
    cases hx : (scalarOfInt i : Except (Cause K) K) with
    | error c => simp [hx, Except.map] at h
    | ok x =>
      obtain rfl : num x = e := by simpa [hx, Except.map] using h
      rfl
  | bool b | real x | str s | record s vs =>
    cases h
    rfl
  | _ => cases h

/-! ## What folding gives -/

theorem foldName_eq (s : String) :
    foldName r s = (heldValue? r s).elim (.ok (.name s)) ofValue := by
  unfold foldName heldValue?
  cases r.bind (·.params.find? s) with
  | none => rfl
  | some p =>
    simp only [Option.bind_some]
    split_ifs with hindexed
    · rfl
    · cases p.value <;> rfl

theorem foldParam_eq (s : String) (idx : List (Expr K)) :
    foldParam r s idx = (entryValue? r s idx).elim (.ok (.param s idx)) ofValue := by
  unfold foldParam entryValue?
  cases hlit : idx.all isLiteral with
  | false => rfl
  | true =>
    cases r.bind (·.params.find? s) with
    | none => rfl
    | some p =>
      simp only [Bool.not_true, Bool.false_eq_true, ↓reduceIte, Option.bind_some]
      split_ifs with hdim
      · rfl
      · cases p.values.find? (idx.map fun e => e.literalValue.normalize) <;> rfl

omit [Scalar K] in
theorem heldValue?_eq_some : heldValue? r s = some v ↔
    ∃ t p, r = some t ∧ t.params.find? s = some p ∧ p.isIndexed = false ∧ p.value = some v := by
  simp only [heldValue?, Option.bind_eq_some_iff]
  constructor
  · rintro ⟨p, ⟨t, hr, hp⟩, hv⟩
    split_ifs at hv with hindexed
    exact ⟨t, p, hr, hp, Bool.eq_false_iff.2 hindexed, hv⟩
  · rintro ⟨t, p, hr, hp, hindexed, hv⟩
    exact ⟨p, ⟨t, hr, hp⟩, by simp [hindexed, hv]⟩

theorem entryValue?_eq_some : entryValue? r s es = some v ↔
    ∃ t p, r = some t ∧ t.params.find? s = some p ∧ es.all isLiteral = true ∧ p.dim = es.length ∧
      p.values.find? (es.map fun e => e.literalValue.normalize) = some v := by
  simp only [entryValue?]
  constructor
  · intro h
    split_ifs at h with hlit
    obtain ⟨p, hp, hv⟩ := Option.bind_eq_some_iff.1 h
    obtain ⟨t, hr, hp⟩ := Option.bind_eq_some_iff.1 hp
    split_ifs at hv with hdim
    exact ⟨t, p, hr, hp, hlit, not_not.1 hdim, hv⟩
  · rintro ⟨t, p, rfl, hp, hlit, hdim, hv⟩
    simp [hlit, hp, hdim, hv]

theorem elim_ofValue_cases {v? : Option (Value K)} (h : v?.elim (.ok e) ofValue = .ok n) :
    n.isLiteral = true ∨ n = e ∧ v? = none := by
  cases v? with
  | none => exact .inr ⟨(Except.ok.inj h).symm, rfl⟩
  | some v => exact .inl (isLiteral_ofValue h)

/-- A reference to a parameter that holds a value is replaced by a literal. -/
theorem foldName_cases (h : foldName r s = .ok n) :
    n.isLiteral = true ∨ n = .name s ∧ heldValue? r s = none :=
  elim_ofValue_cases (foldName_eq (r := r) s ▸ h)

theorem foldParam_cases (h : foldParam r s es = .ok n) :
    n.isLiteral = true ∨ n = .param s es ∧ entryValue? r s es = none :=
  elim_ofValue_cases (foldParam_eq (r := r) s es ▸ h)

theorem foldRel_cases {op : RelOp} (h : foldRel op a b = .ok n) :
    (a.isLiteral && b.isLiteral) = true ∧ n.isLiteral = true ∨
      (a.isLiteral && b.isLiteral) = false ∧ n = .rel op a b := by
  unfold foldRel at h
  split at h
  · rename_i hlit
    cases hc : Value.compare op a.literalValue b.literalValue with
    | error c => simp [hc, Except.map] at h
    | ok c =>
      obtain rfl : num (Scalar.ofBool c) = n := by simpa [hc, Except.map] using h
      exact .inl ⟨hlit, rfl⟩
  · rename_i hlit
    cases h
    exact .inr ⟨Bool.eq_false_iff.2 hlit, rfl⟩

theorem foldLogic_cases {op : LogicOp} (h : foldLogic op es = .ok n) :
    es.all isNum = true ∧ n.isLiteral = true ∨ es.all isNum = false ∧ n = .logic op es := by
  unfold foldLogic at h
  split at h
  · rename_i hnum
    split at h
    · cases h
    all_goals
      cases h
      exact .inl ⟨hnum, rfl⟩
  · rename_i hnum
    cases h
    exact .inr ⟨Bool.eq_false_iff.2 hnum, rfl⟩

theorem foldField_cases {f : String} (h : foldField e f = .ok n) :
    e.isRecord = true ∧ n.isLiteral = true ∨ e.isRecord = false ∧ n = .field e f := by
  cases e with
  | record s vs =>
    obtain ⟨v, _, hv⟩ := bind_eq_ok.1 h
    exact .inl ⟨rfl, isLiteral_ofValue hv⟩
  | _ =>
    cases h
    exact .inr ⟨rfl, rfl⟩

omit [Scalar K] in
theorem isNum_and_isNum (h : ∀ x y, a = .num x → b = .num y → False) :
    (a.isNum && b.isNum) = false := by
  cases a with
  | num x =>
    cases b with
    | num y => exact (h x y rfl rfl).elim
    | _ => rfl
  | _ => rfl

theorem foldNeg_of_not_isSigned (h : e.isSigned = false) : foldNeg e = .neg e := by
  cases e with
  | num x | neg e => simp [isSigned] at h
  | _ => rfl

theorem foldField_of_not_isRecord {f : String} (h : e.isRecord = false) :
    foldField e f = .ok (.field e f) := by
  cases e with
  | record s vs => simp [isRecord] at h
  | _ => rfl

/-- An operation that is no redex is left as it is. -/
theorem foldArith_of_not_isRedex {op : ArithOp} (h : isRedex op a b = false) :
    foldArith op a b = .arith op a b := by
  unfold foldArith
  split
  · simp [isRedex, isNum] at h
  · cases op <;> simp_all [isRedex]

/-- What two expressions are combined to. -/
theorem foldArith_cases (op : ArithOp) (l r : Expr K) :
    (∃ x, foldArith op l r = .num x) ∨ foldArith op l r = l ∨ foldArith op l r = r ∨
      foldArith op l r = foldNeg r ∨ foldArith op l r = .arith op l r := by
  unfold foldArith
  split
  · exact .inl ⟨_, rfl⟩
  · cases op <;> simp only <;> split_ifs <;> simp [zero]

/-! ## Folding keeps expressions reduced -/

theorem isReduced_foldNeg (h : e.isReduced r = true) : (foldNeg e).isReduced r = true := by
  cases hsigned : e.isSigned with
  | false =>
    rw [foldNeg_of_not_isSigned hsigned]
    simp [isReduced, h, hsigned]
  | true =>
    cases e with
    | num x => simp only [foldNeg, isReduced]
    | neg e =>
      simp only [isReduced, Bool.and_eq_true] at h
      exact h.1
    | _ => simp [isSigned] at hsigned

theorem isReduced_foldArith (op : ArithOp) (ha : a.isReduced r = true) (hb : b.isReduced r = true) :
    (foldArith op a b).isReduced r = true := by
  cases hredex : isRedex op a b with
  | false =>
    rw [foldArith_of_not_isRedex hredex]
    simp [isReduced, ha, hb, hredex]
  | true =>
    unfold foldArith
    split
    · simp only [isReduced]
    · rename_i hnum
      simp only [isRedex, isNum_and_isNum hnum, Bool.false_or] at hredex
      cases op with
      | add =>
        dsimp only
        split_ifs with hl hr
        · exact hb
        · exact ha
        · simp_all
      | sub =>
        dsimp only
        split_ifs with hr hl
        · exact ha
        · exact isReduced_foldNeg hb
        · simp_all
      | mul =>
        dsimp only
        split_ifs with hzero hl hr
        · simp only [zero, isReduced]
        · exact hb
        · exact ha
        · simp_all
      | div =>
        dsimp only
        split_ifs with hr
        · exact ha
        · simp_all

/-! ## Induction on simplification -/

/-- An expression that is simplified to itself whatever the registry is. -/
def isAtom : Expr K → Bool
  | .num _ | .str _ | .record _ _ | .var _ _ _ | .dexpr _ none => true
  | _ => false

/-- A relation between an expression and what it is simplified to that holds of an operation if it
holds of the operands. -/
structure FollowsSimplify (P : Option (Registry K) → Expr K → Expr K → Prop) : Prop where
  atom : ∀ {r e}, e.isAtom = true → P r e e
  name : ∀ {r s n}, foldName r s = .ok n → P r (.name s) n
  param : ∀ {r s es ns n}, List.Forall₂ (P r) es ns → foldParam r s ns = .ok n → P r (.param s es) n
  ivar : ∀ {r s es ns}, List.Forall₂ (P r) es ns → P r (.ivar s es) (.ivar s ns)
  item : ∀ {r s es ns}, List.Forall₂ (P r) es ns → P r (.item s es) (.item s ns)
  dexpr : ∀ {r s e n}, P r e n → P r (.dexpr s (some e)) (.dexpr s (some n))
  arith : ∀ {r op a b a' b'}, P r a a' → P r b b' → P r (.arith op a b) (foldArith op a' b')
  neg : ∀ {r e n}, P r e n → P r (.neg e) (foldNeg n)
  rel : ∀ {r op a b a' b' n}, P r a a' → P r b b' → foldRel op a' b' = .ok n → P r (.rel op a b) n
  logic : ∀ {r op es ns n}, List.Forall₂ (P r) es ns → foldLogic op ns = .ok n →
    P r (.logic op es) n
  field : ∀ {r e e' f n}, P r e e' → foldField e' f = .ok n → P r (.field e f) n
  sum : ∀ {r its a b}, P none a b → P r (.sum its a none) (.sum its b none)
  sumIf : ∀ {r its a b c d}, P none a b → P none c d →
    P r (.sum its a (some c)) (.sum its b (some d))

section Induction

variable {P : Option (Registry K) → Expr K → Expr K → Prop}

mutual
theorem FollowsSimplify.simplify (hP : FollowsSimplify P) : ∀ (e : Expr K) {r n},
    e.simplify r = .ok n → P r e n
  | .num _, _, _, h | .str _, _, _, h | .record _ _, _, _, h | .var _ _ _, _, _, h
  | .dexpr _ none, _, _, h => by
    cases h
    exact hP.atom rfl
  | .name s, _, _, h => by
    exact hP.name h
  | .param s es, _, _, h => by
    obtain ⟨ns, hns, h⟩ := bind_eq_ok.1 h
    exact hP.param (hP.simplifyAll es hns) h
  | .ivar s es, _, _, h => by
    obtain ⟨ns, hns, h⟩ := bind_eq_ok.1 h
    cases h
    exact hP.ivar (hP.simplifyAll es hns)
  | .item s es, _, _, h => by
    obtain ⟨ns, hns, h⟩ := bind_eq_ok.1 h
    cases h
    exact hP.item (hP.simplifyAll es hns)
  | .dexpr s (some e), _, _, h => by
    obtain ⟨n, hn, h⟩ := bind_eq_ok.1 h
    cases h
    exact hP.dexpr (hP.simplify e hn)
  | .arith op a b, _, _, h => by
    obtain ⟨a', ha, h⟩ := bind_eq_ok.1 h
    obtain ⟨b', hb, h⟩ := bind_eq_ok.1 h
    cases h
    exact hP.arith (hP.simplify a ha) (hP.simplify b hb)
  | .neg e, _, _, h => by
    obtain ⟨n, hn, h⟩ := bind_eq_ok.1 h
    cases h
    exact hP.neg (hP.simplify e hn)
  | .rel op a b, _, _, h => by
    obtain ⟨a', ha, h⟩ := bind_eq_ok.1 h
    obtain ⟨b', hb, h⟩ := bind_eq_ok.1 h
    exact hP.rel (hP.simplify a ha) (hP.simplify b hb) h
  | .logic op es, _, _, h => by
    obtain ⟨ns, hns, h⟩ := bind_eq_ok.1 h
    exact hP.logic (hP.simplifyAll es hns) h
  | .field e f, _, _, h => by
    obtain ⟨e', he, h⟩ := bind_eq_ok.1 h
    exact hP.field (hP.simplify e he) h
  | .sum its body none, _, _, h => by
    obtain ⟨body', hbody, h⟩ := bind_eq_ok.1 h
    cases h
    exact hP.sum (hP.simplify body hbody)
  | .sum its body (some c), _, _, h => by
    obtain ⟨c', hc, h⟩ := bind_eq_ok.1 h
    obtain ⟨body', hbody, h⟩ := bind_eq_ok.1 h
    cases h
    exact hP.sumIf (hP.simplify body hbody) (hP.simplify c hc)

theorem FollowsSimplify.simplifyAll (hP : FollowsSimplify P) : ∀ (es : List (Expr K)) {r ns},
    Expr.simplifyAll r es = .ok ns → List.Forall₂ (P r) es ns
  | [], _, _, h => by
    cases h
    exact .nil
  | e :: es, _, _, h => by
    obtain ⟨n, hn, h⟩ := bind_eq_ok.1 h
    obtain ⟨ns, hns, h⟩ := bind_eq_ok.1 h
    cases h
    exact .cons (hP.simplify e hn) (hP.simplifyAll es hns)
end

end Induction

theorem areReduced_of_forall₂ {ns : List (Expr K)}
    (h : List.Forall₂ (fun _ n => n.isReduced r = true) es ns) : areReduced r ns = true := by
  induction h with
  | nil => simp only [areReduced]
  | cons he _ ih => simp [areReduced, he, ih]

theorem followsSimplify_isReduced : FollowsSimplify (K := K) fun r _ n => n.isReduced r = true where
  atom {r e} h := by
    cases e with
    | num x | str s | record s vs | var n b idx => simp only [isReduced]
    | dexpr s idx =>
      cases idx with
      | none => simp only [isReduced]
      | some e => cases h
    | _ => cases h
  name h := by
    obtain hlit | ⟨rfl, hnone⟩ := foldName_cases h
    · exact isReduced_of_isLiteral hlit
    · simp [isReduced, hnone]
  param hes h := by
    obtain hlit | ⟨rfl, hnone⟩ := foldParam_cases h
    · exact isReduced_of_isLiteral hlit
    · simp [isReduced, areReduced_of_forall₂ hes, hnone]
  ivar hes := by simpa only [isReduced] using areReduced_of_forall₂ hes
  item hes := by simpa only [isReduced] using areReduced_of_forall₂ hes
  dexpr he := by simpa only [isReduced] using he
  arith := isReduced_foldArith _
  neg := isReduced_foldNeg
  rel ha hb h := by
    obtain ⟨_, hlit⟩ | ⟨hopen, rfl⟩ := foldRel_cases h
    · exact isReduced_of_isLiteral hlit
    · simp [isReduced, ha, hb, hopen]
  logic hes h := by
    obtain ⟨_, hlit⟩ | ⟨hopen, rfl⟩ := foldLogic_cases h
    · exact isReduced_of_isLiteral hlit
    · simp [isReduced, areReduced_of_forall₂ hes, hopen]
  field he h := by
    obtain ⟨_, hlit⟩ | ⟨hopen, rfl⟩ := foldField_cases h
    · exact isReduced_of_isLiteral hlit
    · simp [isReduced, he, hopen]
  sum ha := by simpa only [isReduced] using ha
  sumIf ha hc := by simp [isReduced, ha, hc]

/-! ## Reduced expressions stay as they are -/

mutual
/-- An expression in which nothing can be folded is simplified to itself. -/
theorem simplify_of_isReduced (r : Option (Registry K)) : ∀ e : Expr K, e.isReduced r = true →
    e.simplify r = .ok e
  | .num _, _ | .str _, _ | .record _ _, _ | .var _ _ _, _ | .dexpr _ none, _ => by
    simp only [simplify]
  | .name s, h => by
    simp only [isReduced, Option.isNone_iff_eq_none] at h
    simp only [simplify, foldName_eq, h, Option.elim_none]
  | .param s es, h => by
    simp only [isReduced, Bool.and_eq_true, Option.isNone_iff_eq_none] at h
    simp only [simplify, simplifyAll_of_areReduced r es h.1]
    exact (foldParam_eq s es).trans (by rw [h.2, Option.elim_none])
  | .ivar s es, h | .item s es, h => by
    simp only [simplify, simplifyAll_of_areReduced r es h]
    rfl
  | .dexpr s (some e), h => by
    simp only [simplify, simplify_of_isReduced r e h]
    rfl
  | .arith op a b, h => by
    simp only [isReduced, Bool.and_eq_true, Bool.not_eq_true'] at h
    simp only [simplify, simplify_of_isReduced r a h.1.1, simplify_of_isReduced r b h.1.2]
    exact congrArg Except.ok (foldArith_of_not_isRedex h.2)
  | .neg e, h => by
    simp only [isReduced, Bool.and_eq_true, Bool.not_eq_true'] at h
    simp only [simplify, simplify_of_isReduced r e h.1]
    exact congrArg Except.ok (foldNeg_of_not_isSigned h.2)
  | .rel op a b, h => by
    simp only [isReduced, Bool.and_eq_true, Bool.not_eq_true'] at h
    simp only [simplify, simplify_of_isReduced r a h.1.1, simplify_of_isReduced r b h.1.2]
    exact if_neg (Bool.eq_false_iff.1 h.2)
  | .logic op es, h => by
    simp only [isReduced, Bool.and_eq_true, Bool.not_eq_true'] at h
    simp only [simplify, simplifyAll_of_areReduced r es h.1]
    exact if_neg (Bool.eq_false_iff.1 h.2)
  | .field e f, h => by
    simp only [isReduced, Bool.and_eq_true, Bool.not_eq_true'] at h
    simp only [simplify, simplify_of_isReduced r e h.1]
    exact foldField_of_not_isRecord h.2
  | .sum its body none, h => by
    simp only [simplify, simplify_of_isReduced none body h]
    rfl
  | .sum its body (some c), h => by
    simp only [isReduced, Bool.and_eq_true] at h
    simp only [simplify, simplify_of_isReduced none body h.1, simplify_of_isReduced none c h.2]
    rfl

theorem simplifyAll_of_areReduced (r : Option (Registry K)) : ∀ es : List (Expr K),
    areReduced r es = true → simplifyAll r es = .ok es
  | [], _ => by simp only [simplifyAll]
  | e :: es, h => by
    simp only [areReduced, Bool.and_eq_true] at h
    simp only [simplifyAll, simplify_of_isReduced r e h.1, simplifyAll_of_areReduced r es h.2]
    rfl
end

/-- Simplification with a registry or without one leaves nothing to fold, so what it gives is
simplified to itself. -/
theorem simplify_idempotent (r : Option (Registry K)) (h : e.simplify r = .ok n) :
    n.isReduced r = true ∧ n.simplify r = .ok n := by
  have hreduced := followsSimplify_isReduced.simplify e h
  exact ⟨hreduced, simplify_of_isReduced r n hreduced⟩

end Expr

/-- A parameter that is one. -/
def unitParameter : Registry Float where
  params := ⟨[("p", { symbol := "p", type := .int, value := some (.int 1) })]⟩

/-- Zero less the negation of a parameter times a variable, and a quotient that is infinite. -/
def nestedNegation : Expr Float :=
  .arith .add
    (.arith .sub (.num Scalar.zero) (.neg (.arith .mul (.name "p") (.var "x" "x" none))))
    (.arith .div (.num Scalar.one) (.num Scalar.zero))

theorem simplify_idempotent_nestedNegation : ∃ n,
    nestedNegation.simplify (some unitParameter) = .ok n ∧ n.literal = "x + infinity" ∧
      n.isReduced (some unitParameter) = true ∧ n.simplify (some unitParameter) = .ok n := by
  have hliteral : ((nestedNegation.simplify (some unitParameter)).toOption.map Expr.literal) =
      some "x + infinity" := by decide +kernel
  cases h : nestedNegation.simplify (some unitParameter) with
  | error c => simp [h, Except.toOption] at hliteral
  | ok n =>
    have hn : n.literal = "x + infinity" := by simpa [h, Except.toOption] using hliteral
    exact ⟨n, rfl, hn, Expr.simplify_idempotent _ h⟩

end LinearModel
