import LinearModel.Proofs.Nesting
import LinearModel.Proofs.NormalForm
import LinearModel.Proofs.Substitution

/-!
# Affine expressions

An arithmetic expression is built from numbers, scalar parameters, single variables and decision
expressions by negation and the four operations. It is affine if, with the decision expressions
written out in place, every product has a side without variables and no variable stands in a
divisor. Where all parameters hold numbers within the range of scalars and no decision expression
leads back to itself, linearization succeeds on the affine expressions, and on all others it fails
with the error for a term that is not linear.

All factors on the way are numbers: a parameter is folded as soon as it enters one. Whether a part
is constant is found by looking into decision expressions, in the same way as they are written out.
-/
namespace LinearModel

open Run Relation Expr Term

variable {K : Type} {op : ArithOp} {x : K} {n : String}

namespace Expr

/-- Whether an expression is built from numbers, declared parameters, single variables and declared
decision expressions by negation and the four operations. -/
def isArithmetic (r : Registry K) : Expr K → Bool
  | .num _ | .var _ _ _ => true
  | .name s => r.params.contains s
  | .dexpr s none => r.dexprs.contains s
  | .neg e => isArithmetic r e
  | .arith _ a b => isArithmetic r a && isArithmetic r b
  | _ => false

/-- Whether a variable stands in an arithmetic expression. -/
def hasVariable : Expr K → Bool
  | .var _ _ _ => true
  | .neg e => hasVariable e
  | .arith _ a b => hasVariable a || hasVariable b
  | _ => false

/-- Whether every product has a side without variables, and no variable stands in a divisor. -/
def isAffine : Expr K → Bool
  | .neg e => isAffine e
  | .arith .mul a b => isAffine a && isAffine b && !(hasVariable a && hasVariable b)
  | .arith .div a b => isAffine a && isAffine b && !hasVariable b
  | .arith _ a b => isAffine a && isAffine b
  | _ => true

theorem isAffine_of_not_hasVariable : ∀ e : Expr K, e.hasVariable = false → e.isAffine = true
  | .neg e, h => by
    simp only [isAffine, isAffine_of_not_hasVariable e h]
  | .arith op a b, h => by
    simp only [hasVariable, Bool.or_eq_false_iff] at h
    cases op <;> simp [isAffine, isAffine_of_not_hasVariable a h.1,
      isAffine_of_not_hasVariable b h.2, h.1, h.2]
  | .num _, _ | .str _, _ | .record _ _, _ | .name _, _ | .param _ _, _ | .var _ _ _, _
  | .ivar _ _, _ | .dexpr _ _, _ | .rel _ _ _, _ | .logic _ _, _ | .field _ _, _ | .item _ _, _
  | .sum _ _ _, _ => by simp only [isAffine]

end Expr

namespace Registry

/-- The second expression is the first one with all decision expressions written out in place. -/
inductive Inlines (r : Registry K) : Expr K → Expr K → Prop
  | num (x : K) : Inlines r (.num x) (.num x)
  | name {s : String} (hs : r.params.contains s = true) : Inlines r (.name s) (.name s)
  | var (n b : String) (idx : Option (Index K)) : Inlines r (.var n b idx) (.var n b idx)
  | dexpr {s : String} {d : DecisionExpression K} {b : Expr K} (hd : r.dexprs.find? s = some d)
    (hb : Inlines r d.body b) : Inlines r (.dexpr s none) b
  | neg {e e' : Expr K} (he : Inlines r e e') : Inlines r (.neg e) (.neg e')
  | arith (op : ArithOp) {a a' b b' : Expr K} (ha : Inlines r a a') (hb : Inlines r b b') :
    Inlines r (.arith op a b) (.arith op a' b')

/-- The body of a decision expression refers to another one. -/
def Uses (r : Registry K) (D u : String) : Prop := r.Refers (.dexpr D) (.dexpr u)

/-- A registry whose parameters are scalar and hold numbers within the range of scalars, and whose
decision expressions have no index, are arithmetic, and do not lead back to themselves. -/
structure IsScalar [Scalar K] (r : Registry K) : Prop where
  params : ∀ {s p}, r.params.find? s = some p → p.isIndexed = false ∧ p.isSettled = true ∧
    ∃ v x, p.value = some v ∧ v.toScalar none = .ok x
  dexprs : ∀ {s d}, r.dexprs.find? s = some d → d.index = none ∧ d.body.isArithmetic r = true
  acyclic : ∀ D, ¬ TransGen r.Uses D D

/-! ## Looking into decision expressions -/

/-- All decision expressions that an expression refers to are used by those that are being looked
into. -/
def IsUnder (r : Registry K) (A : List String) (e : Expr K) : Prop :=
  ∀ q ∈ e.mentions [], ∀ u, q.2 = .dexpr u → ∀ D ∈ A, TransGen r.Uses D u

theorem isUnder_nil (r : Registry K) (e : Expr K) : r.IsUnder [] e :=
  fun _ _ _ _ _ hD => absurd hD List.not_mem_nil

variable {r : Registry K} {A : List String} {e e' a b : Expr K} {s : String}
  {d : DecisionExpression K}

theorem IsUnder.neg (h : r.IsUnder A (.neg e)) : r.IsUnder A e := by
  simpa only [IsUnder, mentions] using h

theorem IsUnder.left (h : r.IsUnder A (.arith op a b)) : r.IsUnder A a := by
  exact fun q hq => h q (List.mem_append_left _ hq)

theorem IsUnder.right (h : r.IsUnder A (.arith op a b)) : r.IsUnder A b := by
  exact fun q hq => h q (List.mem_append_right _ hq)

theorem IsUnder.uses (h : r.IsUnder A (.dexpr s none)) : ∀ D ∈ A, TransGen r.Uses D s := by
  simp only [IsUnder, mentions, List.forall_mem_singleton] at h
  exact h s rfl

/-- What the body of a decision expression refers to is used by the decision expression as well. -/
theorem IsUnder.body (h : r.IsUnder A (.dexpr s none)) (hd : r.dexprs.find? s = some d) :
    r.IsUnder (A ++ [s]) d.body := by
  intro q hq u hu D hD
  have huses : r.Uses s u := ⟨q, by simpa only [mentionsOf, hd, Option.elim_some] using hq, hu⟩
  obtain hD | hD := List.mem_append.1 hD
  · exact (h.uses D hD).tail huses
  · obtain rfl := List.mem_singleton.1 hD
    exact .single huses

theorem IsUnder.not_mem [Scalar K] (hr : r.IsScalar) (h : r.IsUnder A (.dexpr s none)) : s ∉ A :=
  fun hs => hr.acyclic s (h.uses s hs)

theorem IsUnder.free_lt [Scalar K] (hr : r.IsScalar) (h : r.IsUnder A (.dexpr s none))
    (hd : r.dexprs.find? s = some d) : r.free (A ++ [s]) < r.free A :=
  Registry.free_lt (h.not_mem hr) (by simp [Table.contains, hd])

theorem IsUnder.enter [Scalar K] (hr : r.IsScalar) {env : Env K}
    (h : r.IsUnder env.active (.dexpr s none)) : env.enter s = .ok (env.inside s) := by
  have hs := h.not_mem hr
  simp [Env.enter, Env.inside, hs]

/-- Every arithmetic expression can be written out, because each decision expression that is looked
into leaves fewer to look into. -/
theorem IsScalar.exists_inlines [Scalar K] (hr : r.IsScalar) : ∀ (e : Expr K) (A : List String),
    e.isArithmetic r = true → r.IsUnder A e → ∃ e', r.Inlines e e'
  | .num x, _, _, _ => ⟨_, .num x⟩
  | .var n b idx, _, _, _ => ⟨_, .var n b idx⟩
  | .name s, _, he, _ => ⟨_, .name he⟩
  | .dexpr s none, A, he, hA => by
    obtain ⟨d, hd⟩ := Option.isSome_iff_exists.1 he
    have hless := hA.free_lt hr hd
    obtain ⟨b, hb⟩ := exists_inlines hr d.body (A ++ [s]) (hr.dexprs hd).2 (hA.body hd)
    exact ⟨b, .dexpr hd hb⟩
  | .neg e, A, he, hA => by
    obtain ⟨e', h⟩ := exists_inlines hr e A he hA.neg
    exact ⟨_, .neg h⟩
  | .arith op a b, A, he, hA => by
    simp only [isArithmetic, Bool.and_eq_true] at he
    obtain ⟨a', ha⟩ := exists_inlines hr a A he.1 hA.left
    obtain ⟨b', hb⟩ := exists_inlines hr b A he.2 hA.right
    exact ⟨_, .arith op ha hb⟩
termination_by e A => (r.free A, sizeOf e)
decreasing_by
  · exact .left _ _ hless
  all_goals
    refine .right _ ?_
    simp only [Expr.neg.sizeOf_spec, arith.sizeOf_spec]
    omega

end Registry

/-! ## Numbers -/

variable [Scalar K] {r : Registry K} {e e' : Expr K} {s : Store K} {env : Env K}

theorem ofValue_of_toScalar {v : Value K} (h : v.toScalar none = .ok x) :
    ofValue v = .ok (.num x) := by
  cases v with
  | int i =>
    simp only [Value.toScalar] at h
    simp only [ofValue, h]
    rfl
  | bool b | real y =>
    cases h
    rfl
  | _ => cases h

theorem returns_readNumber {v : Value K} (h : v.toScalar none = .ok x) (e : Expr K) :
    (e.readNumber v).Returns s x s := by
  cases v with
  | int i => exact returns_ofExcept.2 ⟨h, rfl⟩
  | bool b | real y =>
    cases h
    exact returns_pure.2 ⟨rfl, rfl⟩
  | _ => cases h

namespace Registry

theorem IsScalar.find (hr : r.IsScalar) (hn : r.params.contains n = true) :
    ∃ p v x, r.params.find? n = some p ∧ p.isIndexed = false ∧ p.isSettled = true ∧
      p.value = some v ∧ v.toScalar none = .ok x := by
  obtain ⟨p, hp⟩ := Option.isSome_iff_exists.1 hn
  obtain ⟨hindexed, hsettled, v, x, hv, hx⟩ := hr.params hp
  exact ⟨p, v, x, hp, hindexed, hsettled, hv, hx⟩

/-- A parameter that holds a number folds to it. -/
theorem IsScalar.foldName (hr : r.IsScalar) (hn : r.params.contains n = true) :
    ∃ x, foldName (some r) n = .ok (.num x) := by
  obtain ⟨p, v, x, hp, hindexed, -, hv, hx⟩ := hr.find hn
  have hheld : heldValue? (some r) n = some v :=
    heldValue?_eq_some.2 ⟨r, p, rfl, hp, hindexed, hv⟩
  exact ⟨x, by rw [foldName_eq, hheld, Option.elim_some, ofValue_of_toScalar hx]⟩

/-- A parameter that holds a number is read as it. -/
theorem IsScalar.returns_parameter (hs : s.registry.IsScalar)
    (hn : s.registry.params.contains n = true) (N : Nat) :
    ∃ v x, ((LinearModel.lookup (N + 1)).parameter n []).Returns s v s ∧
      v.toScalar none = .ok x := by
  obtain ⟨p, v, x, hp, hindexed, hsettled, hv, hx⟩ := hs.find hn
  have hstored : (storedValue n []).Returns s v s := by
    refine returns_bind.2 ⟨_, s, returns_registry.2 ⟨rfl, rfl⟩, ?_⟩
    simp [hp, Parameter.get, hindexed, hv]
  refine ⟨v, x, returns_bind.2 ⟨_, s, returns_registry.2 ⟨rfl, rfl⟩, ?_⟩, hx⟩
  simp only [hp]
  cases hdef : p.definition with
  | none => exact hstored
  | some e =>
    have hdefined : p.isDefined = true := by simpa [Parameter.isSettled, hdef] using hsettled
    simp only [hdefined]
    exact hstored

end Registry

/-- The parameters of a registry are hidden by no binding. -/
def Env.Shows (env : Env K) (r : Registry K) : Prop :=
  ∀ n, r.params.contains n = true → env.get? n = none

namespace Registry.Inlines

theorem returns_substitute (h : s.registry.Inlines e e') (henv : env.Shows s.registry)
    (L : Lookup K) : (e.substitute L env).Returns s e s := by
  induction h with
  | num x | var n b idx | dexpr hd hb =>
    exact returns_pure.2 ⟨rfl, rfl⟩
  | @name n hn =>
    simp only [substitute, henv n hn]
    exact returns_pure.2 ⟨rfl, rfl⟩
  | neg he ih =>
    exact returns_bind.2 ⟨_, s, ih, returns_pure.2 ⟨rfl, rfl⟩⟩
  | arith op ha hb iha ihb =>
    exact returns_bind.2 ⟨_, s, iha, returns_bind.2 ⟨_, s, ihb, returns_pure.2 ⟨rfl, rfl⟩⟩⟩

theorem returns_dexprScope (hs : s.registry.IsScalar) {d : DecisionExpression K}
    (hd : s.registry.dexprs.find? n = some d) :
    (dexprScope n none env).Returns s (d, env.spawn) s := by
  refine returns_bind.2 ⟨_, s, returns_registry.2 ⟨rfl, rfl⟩, ?_⟩
  simp [hd, (hs.dexprs hd).1]

theorem returns_unfoldDexpr (hs : s.registry.IsScalar) {d : DecisionExpression K}
    {b : Expr K} (hd : s.registry.dexprs.find? n = some d) (hb : s.registry.Inlines d.body b)
    (L : Lookup K) : (unfoldDexpr L n none env).Returns s d.body s :=
  returns_bind.2 ⟨_, s, returns_dexprScope hs hd,
    hb.returns_substitute (fun _ _ => rfl) L⟩

/-- An expression counts as constant if no variable stands in it where it is written out. -/
theorem returns_isConstantLike (hs : s.registry.IsScalar) (h : s.registry.Inlines e e')
    (L : Lookup K) {k : Nat} (hk : s.registry.free env.active ≤ k)
    (hunder : s.registry.IsUnder env.active e) :
    (e.isConstantLike L (descent L k).isConstant env).Returns s (!e'.hasVariable) s := by
  induction h generalizing k env with
  | num x | name hn | var n b idx =>
    exact returns_pure.2 ⟨rfl, rfl⟩
  | @dexpr n d b hd hb ih =>
    have hless := hunder.free_lt hs hd
    obtain ⟨k, rfl⟩ := Nat.exists_eq_succ_of_ne_zero (Nat.ne_zero_of_lt (hless.trans_le hk))
    simp only [isConstantLike, hunder.enter hs]
    refine returns_bind.2 ⟨_, s, returns_ofExcept.2 ⟨rfl, rfl⟩, ?_⟩
    refine returns_bind.2 ⟨_, s, returns_unfoldDexpr hs hd hb L, ?_⟩
    exact ih (by simp only [Env.inside]; omega) (hunder.body hd)
  | neg he ih =>
    exact ih hk hunder.neg
  | arith op ha hb iha ihb =>
    simp only [isConstantLike, hasVariable, Bool.not_or]
    exact returns_bind.2 ⟨_, s, iha hk hunder.left,
      returns_bind.2 ⟨_, s, ihb hk hunder.right, returns_pure.2 ⟨rfl, rfl⟩⟩⟩

/-- An expression without variables has a value. -/
theorem returns_number (hs : s.registry.IsScalar) (h : s.registry.Inlines e e')
    (hconst : e'.hasVariable = false) {N : Nat} (hN : s.registry.free env.active < N)
    (hunder : s.registry.IsUnder env.active e) (henv : env.Shows s.registry) :
    ∃ x, (e.number (LinearModel.lookup N) env).Returns s x s := by
  induction h generalizing N env with
  | num x => exact ⟨x, returns_pure.2 ⟨rfl, rfl⟩⟩
  | var n b idx => cases hconst
  | @name n hn =>
    obtain ⟨N, rfl⟩ := Nat.exists_eq_add_of_lt hN
    obtain ⟨v, x, hv, hx⟩ := hs.returns_parameter hn (s.registry.free env.active + N)
    refine ⟨x, returns_bind.2 ⟨v, s, ?_, returns_readNumber hx _⟩⟩
    simp only [value, henv n hn]
    refine returns_bind.2 ⟨_, s, returns_registry.2 ⟨rfl, rfl⟩, ?_⟩
    rw [if_pos hn]
    exact hv
  | @dexpr n d b hd hb ih =>
    have hless := hunder.free_lt hs hd
    obtain ⟨N, rfl⟩ := Nat.exists_eq_add_of_lt hN
    obtain ⟨x, hx⟩ : ∃ x, (d.body.number (LinearModel.lookup (s.registry.free env.active + N))
        (env.inside n).spawn).Returns s x s :=
      ih hconst (by simp only [Env.inside, Env.spawn]; omega) (hunder.body hd) fun _ _ => rfl
    refine ⟨x, returns_bind.2 ⟨.real x, s, ?_, returns_pure.2 ⟨rfl, rfl⟩⟩⟩
    simp only [value, hunder.enter hs]
    refine returns_bind.2 ⟨_, s, returns_ofExcept.2 ⟨rfl, rfl⟩, ?_⟩
    refine returns_bind.2 ⟨_, s, returns_dexprScope hs hd, ?_⟩
    exact returns_bind.2 ⟨x, s, hx, returns_pure.2 ⟨rfl, rfl⟩⟩
  | neg he ih =>
    obtain ⟨x, hx⟩ := ih hconst hN hunder.neg henv
    refine ⟨-x, returns_bind.2 ⟨.real (-x), s, ?_, returns_pure.2 ⟨rfl, rfl⟩⟩⟩
    exact returns_bind.2 ⟨x, s, hx, returns_pure.2 ⟨rfl, rfl⟩⟩
  | arith op ha hb iha ihb =>
    simp only [hasVariable, Bool.or_eq_false_iff] at hconst
    obtain ⟨x, hx⟩ := iha hconst.1 hN hunder.left henv
    obtain ⟨y, hy⟩ := ihb hconst.2 hN hunder.right henv
    refine ⟨op.apply x y, returns_bind.2 ⟨.real _, s, ?_, returns_pure.2 ⟨rfl, rfl⟩⟩⟩
    exact returns_bind.2 ⟨x, s, hx, returns_bind.2 ⟨y, s, hy, returns_pure.2 ⟨rfl, rfl⟩⟩⟩

/-- Without variables and decision expressions, an expression folds to a number. -/
theorem simplify_eq_num (hr : r.IsScalar) (h : r.Inlines e e') (hconst : e'.hasVariable = false)
    (hdexpr : e.mentionsDexpr = false) : ∃ x, e.simplify (some r) = .ok (.num x) := by
  induction h with
  | num x => exact ⟨x, by simp only [simplify]⟩
  | name hn => simpa only [simplify] using hr.foldName hn
  | var n b idx => cases hconst
  | dexpr hd hb => simp [mentionsDexpr] at hdexpr
  | neg he ih =>
    obtain ⟨x, hx⟩ := ih hconst hdexpr
    exact ⟨-x, by simp only [simplify, hx]; rfl⟩
  | arith op ha hb iha ihb =>
    simp only [mentionsDexpr, Bool.or_eq_false_iff] at hdexpr
    simp only [hasVariable, Bool.or_eq_false_iff] at hconst
    obtain ⟨x, hx⟩ := iha hconst.1 hdexpr.1
    obtain ⟨y, hy⟩ := ihb hconst.2 hdexpr.2
    exact ⟨op.apply x y, by simp only [simplify, hx, hy]; rfl⟩

end Registry.Inlines

/-! ## Verdicts -/

/-- A computation that leaves the store as it is. It returns something with a property if it
accepts, and fails with the error for a term that is not linear if it does not. -/
def Run.Judges {K α : Type} (x : Run K α) (s : Store K) (Q : α → Prop) : Bool → Prop
  | true => ∃ a, x.Returns s a s ∧ Q a
  | false => ∃ f, x.Fails s f s ∧ f.cause.kind = .nonLinearTerm

namespace Run

variable {α β : Type} {x : Run K α} {f : α → Run K β} {P : α → Prop} {Q : β → Prop}

omit [Scalar K] in
theorem Judges.after {a : α} {b : Bool} (hx : x.Returns s a s) (h : (f a).Judges s Q b) :
    (x >>= f).Judges s Q b := by
  cases b with
  | true =>
    obtain ⟨c, hc, hQ⟩ := h
    exact ⟨c, returns_bind.2 ⟨a, s, hx, hc⟩, hQ⟩
  | false =>
    obtain ⟨g, hg, hkind⟩ := h
    exact ⟨g, fails_bind.2 (.inr ⟨a, s, hx, hg⟩), hkind⟩

omit [Scalar K] in
theorem Judges.bind {b c : Bool} (hx : x.Judges s P b) (hf : ∀ a, P a → (f a).Judges s Q c) :
    (x >>= f).Judges s Q (b && c) := by
  cases b with
  | true =>
    obtain ⟨a, ha, hP⟩ := hx
    exact Judges.after ha (hf a hP)
  | false =>
    obtain ⟨g, hg, hkind⟩ := hx
    exact ⟨g, fails_bind.2 (.inl hg), hkind⟩

end Run

namespace Term

/-- Whether the factor of an occurrence, or the constant, is a number. -/
def isNumeric : Term K → Bool
  | .occurrence _ _ _ f => f.isNum
  | .constant e => e.isNum

/-- Terms in which all factors and constants are numbers. -/
def AreNumeric (ts : List (Term K)) : Prop := ∀ t ∈ ts, t.isNumeric = true

end Term

namespace Expr

theorem simplify_minusOne {R : Option (Registry K)} :
    (minusOne : Expr K).simplify R = .ok (.num (Scalar.ofInt (-1))) := by
  simp only [minusOne, simplify]

/-- A number combined with what folds to one is a number. -/
theorem returns_scale (op : ArithOp) (f : K) {c : Expr K}
    (hc : c.simplify (some s.registry) = .ok (.num x)) :
    (scale op (.num f) c).Returns s (.num (op.apply f x)) s := by
  refine returns_bind.2 ⟨_, s, returns_registry.2 ⟨rfl, rfl⟩, returns_ofExcept.2 ⟨?_, rfl⟩⟩
  simp only [simplify, hc]
  rfl

end Expr

omit [Scalar K] in
theorem judges_constantTerm (x : K) :
    (pure [constant (.num x)] : Run K _).Judges s AreNumeric true :=
  ⟨_, returns_pure.2 ⟨rfl, rfl⟩, by simp [AreNumeric, isNumeric, isNum]⟩

namespace Registry.Inlines

variable {k N : Nat}

/-- What an expression without variables contributes to a factor folds to a number. -/
theorem returns_resolveConstant (hs : s.registry.IsScalar) (h : s.registry.Inlines e e')
    (hconst : e'.hasVariable = false) (hN : s.registry.free env.active < N)
    (hunder : s.registry.IsUnder env.active e) :
    ∃ c x, (resolveConstant (LinearModel.lookup N) e env).Returns s c s ∧
      c.simplify (some s.registry) = .ok (.num x) := by
  unfold resolveConstant
  cases hdexpr : e.mentionsDexpr with
  | true =>
    obtain ⟨x, hx⟩ : ∃ x, (e.number (LinearModel.lookup N) env.spawn).Returns s x s :=
      h.returns_number hs hconst hN hunder fun _ _ => rfl
    exact ⟨.num x, x, returns_bind.2 ⟨x, s, hx, returns_pure.2 ⟨rfl, rfl⟩⟩,
      by simp only [simplify]⟩
  | false =>
    obtain ⟨x, hx⟩ := h.simplify_eq_num hs hconst hdexpr
    exact ⟨e, x, returns_pure.2 ⟨rfl, rfl⟩, hx⟩

/-- A factor that is combined with an expression without variables stays a number. -/
theorem judges_scaled (hs : s.registry.IsScalar) (h : s.registry.Inlines e e')
    (hconst : e'.hasVariable = false) (hN : s.registry.free env.active < N)
    (hunder : s.registry.IsUnder env.active e) (op : ArithOp) (f : K)
    {g : Expr K → Run K (List (Term K))} {accepted : Bool}
    (hg : ∀ x, (g (.num x)).Judges s AreNumeric accepted) :
    (do g (← scale op (.num f)
      (← resolveConstant (LinearModel.lookup N) e env))).Judges s AreNumeric
        accepted := by
  obtain ⟨c, x, hc, hx⟩ := h.returns_resolveConstant hs hconst hN hunder
  exact .after hc (.after (returns_scale op f hx) (hg _))

/-- A constant is a term of its own, and anything else is taken apart. -/
theorem judges_constant (hs : s.registry.IsScalar) (h : s.registry.Inlines e e')
    (hk : s.registry.free env.active ≤ k) (hN : s.registry.free env.active < N)
    (hunder : s.registry.IsUnder env.active e) (f : K) {rest : Run K (List (Term K))}
    (hrest : e'.hasVariable = true → rest.Judges s AreNumeric e'.isAffine) :
    (do
      if ← e.isConstantLike (LinearModel.lookup N)
          (descent (LinearModel.lookup N) k).isConstant env then
        return [constant (← scale .mul (.num f)
          (← resolveConstant (LinearModel.lookup N) e env))]
      else rest).Judges s AreNumeric e'.isAffine := by
  refine .after (h.returns_isConstantLike hs _ hk hunder) ?_
  cases hvar : e'.hasVariable with
  | true => exact hrest hvar
  | false =>
    rw [isAffine_of_not_hasVariable e' hvar]
    exact h.judges_scaled hs hvar hN hunder .mul f judges_constantTerm

/-- The parts of an operation are taken apart in turn, under factors that are numbers. -/
theorem judges_parts {a a' b b' : Expr K} (hs : s.registry.IsScalar)
    (ha : s.registry.Inlines a a') (hb : s.registry.Inlines b b')
    (hk : s.registry.free env.active ≤ k) (hN : s.registry.free env.active < N)
    (hunder : s.registry.IsUnder env.active (.arith op a b)) (f : K)
    (iha : ∀ f, (a.terms (LinearModel.lookup N) (descent (LinearModel.lookup N) k) (.num f)
      env).Judges s AreNumeric a'.isAffine)
    (ihb : ∀ f, (b.terms (LinearModel.lookup N) (descent (LinearModel.lookup N) k) (.num f)
      env).Judges s AreNumeric b'.isAffine) :
    ((Expr.arith op a b).terms (LinearModel.lookup N) (descent (LinearModel.lookup N) k) (.num f)
      env).Judges s AreNumeric (Expr.arith op a' b').isAffine := by
  have hsecond : ∀ f {ls}, AreNumeric ls → (do
      let rs ← b.terms (LinearModel.lookup N) (descent (LinearModel.lookup N) k) (.num f) env
      return ls ++ rs).Judges s AreNumeric b'.isAffine := by
    intro f ls hls
    rw [← Bool.and_true b'.isAffine]
    refine (ihb f).bind fun rs hrs => ?_
    exact ⟨_, returns_pure.2 ⟨rfl, rfl⟩, List.forall_mem_append.2 ⟨hls, hrs⟩⟩
  have hleft := ha.returns_isConstantLike hs (LinearModel.lookup N) hk hunder.left
  have hright := hb.returns_isConstantLike hs (LinearModel.lookup N) hk hunder.right
  refine (arith op ha hb).judges_constant hs hk hN hunder f fun _ => ?_
  cases op with
  | add => exact (iha f).bind fun ls hls => hsecond f hls
  | sub =>
    exact (iha f).bind fun ls hls => .after (returns_scale .mul f simplify_minusOne)
      (hsecond _ hls)
  | mul =>
    simp only [isAffine]
    refine .after hleft ?_
    cases hvara : a'.hasVariable with
    | false =>
      rw [isAffine_of_not_hasVariable a' hvara, Bool.true_and, Bool.false_and, Bool.not_false,
        Bool.and_true]
      exact ha.judges_scaled hs hvara hN hunder.left .mul f ihb
    | true =>
      refine .after hright ?_
      cases hvarb : b'.hasVariable with
      | false =>
        rw [isAffine_of_not_hasVariable b' hvarb, Bool.and_true, Bool.and_false,
          Bool.not_false, Bool.and_true]
        exact hb.judges_scaled hs hvarb hN hunder.right .mul f iha
      | true =>
        rw [Bool.and_true, Bool.not_true, Bool.and_false]
        exact ⟨_, fails_fail.2 ⟨rfl, rfl⟩, rfl⟩
  | div =>
    simp only [isAffine]
    refine .after hright ?_
    cases hvarb : b'.hasVariable with
    | false =>
      rw [isAffine_of_not_hasVariable b' hvarb, Bool.and_true, Bool.not_false, Bool.and_true]
      exact hb.judges_scaled hs hvarb hN hunder.right .div f iha
    | true =>
      rw [Bool.not_true, Bool.and_false]
      exact ⟨_, fails_fail.2 ⟨rfl, rfl⟩, rfl⟩

/-- An expression is split into terms if it is affine where it is written out. -/
theorem judges_terms (hs : s.registry.IsScalar) (h : s.registry.Inlines e e')
    (hk : s.registry.free env.active ≤ k) (hN : s.registry.free env.active < N)
    (hunder : s.registry.IsUnder env.active e) (f : K) :
    (e.terms (LinearModel.lookup N) (descent (LinearModel.lookup N) k) (.num f) env).Judges s
      AreNumeric e'.isAffine := by
  induction h generalizing k f env with
  | num x =>
    exact (num x).judges_constant hs hk hN hunder f (by simp [hasVariable])
  | name hn =>
    exact (name hn).judges_constant hs hk hN hunder f (by simp [hasVariable])
  | var n b idx =>
    exact ⟨_, returns_pure.2 ⟨rfl, rfl⟩, by simp [AreNumeric, isNumeric, isNum]⟩
  | @dexpr n d b hd hb ih =>
    have hless := hunder.free_lt hs hd
    obtain ⟨k, rfl⟩ := Nat.exists_eq_succ_of_ne_zero (Nat.ne_zero_of_lt (hless.trans_le hk))
    have hk' : s.registry.free (env.inside n).active ≤ k := by
      simp only [Env.inside]
      omega
    simp only [terms, hunder.enter hs]
    refine .after (returns_ofExcept.2 ⟨rfl, rfl⟩) ?_
    refine .after (returns_unfoldDexpr hs hd hb _) ?_
    refine .after (hb.returns_isConstantLike hs _ hk' (hunder.body hd)) ?_
    cases hvar : b.hasVariable with
    | true => exact ih hk' (hless.trans hN) (hunder.body hd) f
    | false =>
      rw [isAffine_of_not_hasVariable b hvar]
      obtain ⟨x, hx⟩ : ∃ x, ((Expr.dexpr n none).number (LinearModel.lookup N) env.spawn).Returns
          s x s :=
        (dexpr hd hb).returns_number hs hvar hN hunder fun _ _ => rfl
      have hfold : (Expr.num x).simplify (some s.registry) = .ok (.num x) := by
        simp only [simplify]
      exact .after hx (.after (returns_scale .mul f hfold) (judges_constantTerm _))
  | neg he ih =>
    refine (neg he).judges_constant hs hk hN hunder f fun _ => ?_
    exact .after (returns_scale .mul f simplify_minusOne) (ih hk hN hunder.neg _)
  | arith op ha hb iha ihb =>
    exact judges_parts hs ha hb hk hN hunder f (iha hk hN hunder.left) (ihb hk hN hunder.right)

end Registry.Inlines

/-! ## Linearization -/

namespace LinearForm

variable {ts : List (Term K)}

omit [Scalar K] in
theorem factors_numeric (h : AreNumeric ts) :
    ∀ c ∈ (factors ts).toList, ∀ f ∈ c.2, f.isNum = true := by
  have hfold : ∀ (ts : List (Term K)) (t : Table String (List (Expr K))), AreNumeric ts →
      (∀ c ∈ t.toList, ∀ f ∈ c.2, f.isNum = true) →
        ∀ c ∈ (ts.foldl addFactor t).toList, ∀ f ∈ c.2, f.isNum = true := by
    intro ts
    induction ts with
    | nil => exact fun t _ ht => ht
    | cons term ts ih =>
      intro t hts ht
      obtain ⟨hterm, hts⟩ := List.forall_mem_cons.1 hts
      refine ih _ hts ?_
      cases term with
      | constant e => exact ht
      | occurrence n b idx f =>
        intro c hc
        obtain hc | ⟨-, hc⟩ := Table.mem_insert_beq hc
        · exact ht c hc
        · rw [hc]
          refine List.forall_mem_append.2 ⟨?_, List.forall_mem_singleton.2 hterm⟩
          cases hn : t.find? n with
          | none => exact fun f hf => absurd hf List.not_mem_nil
          | some fs =>
            obtain ⟨n', hn', -⟩ := Table.exists_of_find? hn
            exact ht _ hn'
  exact hfold ts Table.empty h fun c hc => absurd hc List.not_mem_nil

theorem exists_mapM_ok {ε α β : Type} {f : α → Except ε β} {as : List α}
    (h : ∀ a ∈ as, ∃ b, f a = .ok b) : ∃ bs, as.mapM f = .ok bs := by
  induction as with
  | nil => exact ⟨[], rfl⟩
  | cons a as ih =>
    obtain ⟨⟨b, hb⟩, has⟩ := List.forall_mem_cons.1 h
    obtain ⟨bs, hbs⟩ := ih has
    exact ⟨b :: bs, by rw [List.mapM_cons, hb, hbs]; rfl⟩

/-- Numeric terms can always be gathered. -/
theorem exists_ofTerms (r : Registry K) (h : AreNumeric ts) : ∃ f, ofTerms r ts = .ok f := by
  have hchain : ∀ {es : List (Expr K)}, (∀ e ∈ es, e.isNum = true) →
      ∃ x, (chain es).simplify (some r) = .ok (.num x) := by
    intro es hes
    refine chain_of (P := fun e => ∃ x, e.simplify (some r) = .ok (.num x)) ?_ ?_ ?_
    · exact ⟨Scalar.zero, by simp only [Expr.zero, simplify]⟩
    · rintro a b ⟨x, hx⟩ ⟨y, hy⟩
      exact ⟨x + y, by simp only [simplify, hx, hy]; rfl⟩
    · intro e he
      cases e with
      | num x => exact ⟨x, by simp only [simplify]⟩
      | _ => cases hes _ he
  have hcollect : ∃ cs, collect r ts = .ok cs := by
    refine exists_mapM_ok fun c hc => ?_
    obtain ⟨x, hx⟩ := hchain (factors_numeric h c hc)
    exact ⟨_, by rw [hx]; rfl⟩
  have hconstants : ∀ e ∈ constants ts, e.isNum = true := by
    intro e he
    obtain ⟨t, ht, hte⟩ := List.mem_filterMap.1 he
    cases t with
    | constant c =>
      cases hte
      exact h _ ht
    | occurrence n b idx f => cases hte
  obtain ⟨cs, hcs⟩ := hcollect
  obtain ⟨x, hx⟩ := hchain hconstants
  exact ⟨_, by simp only [ofTerms, hcs, hx]; rfl⟩

end LinearForm

/-- Linearization judges an arithmetic expression by whether it is affine where it is written
out. -/
theorem Registry.Inlines.judges_linearize (hs : s.registry.IsScalar)
    (h : s.registry.Inlines e e') (hactive : env.active = []) (henv : env.Shows s.registry) :
    (linearize e env).Judges s (fun _ => True) e'.isAffine := by
  have hfree := s.registry.free_le []
  have hunder : s.registry.IsUnder env.active e := hactive ▸ s.registry.isUnder_nil e
  have hN : s.registry.free env.active < s.registry.size + familyDepth := by
    simp only [hactive, Registry.size, familyDepth]
    omega
  rw [← Bool.and_true e'.isAffine]
  refine Judges.bind (P := AreNumeric) ?_ fun ts hts => ?_
  · refine .after
      (returns_bind.2 ⟨_, s, returns_registry.2 ⟨rfl, rfl⟩, returns_pure.2 ⟨rfl, rfl⟩⟩) ?_
    refine .after (h.returns_substitute henv _) ?_
    refine .after (returns_registry.2 ⟨rfl, rfl⟩) ?_
    exact h.judges_terms hs (by rw [hactive]; omega) hN hunder _
  · obtain ⟨f, hf⟩ := LinearForm.exists_ofTerms s.registry hts
    exact ⟨f, returns_bind.2 ⟨_, s, returns_registry.2 ⟨rfl, rfl⟩, returns_ofExcept.2 ⟨hf, rfl⟩⟩,
      trivial⟩

/-- Where all parameters hold numbers and no decision expression leads back to itself, an arithmetic
expression has a linear form exactly if it is affine with the decision expressions written out in
place. All others fail with the error for a term that is not linear. -/
theorem linearize_returns_iff_isAffine (hs : s.registry.IsScalar)
    (he : e.isArithmetic s.registry = true) (hactive : env.active = [])
    (henv : env.Shows s.registry) :
    (∃ e', s.registry.Inlines e e') ∧ ∀ e', s.registry.Inlines e e' →
      ((∃ f s', (linearize e env).Returns s f s') ↔ e'.isAffine = true) ∧
      (e'.isAffine = false → ∃ f s', (linearize e env).Fails s f s' ∧
        f.cause.kind = .nonLinearTerm) := by
  refine ⟨hs.exists_inlines e [] he (s.registry.isUnder_nil e), fun e' h => ?_⟩
  have hjudges := h.judges_linearize hs hactive henv
  cases haffine : e'.isAffine with
  | true =>
    rw [haffine] at hjudges
    obtain ⟨f, hf, -⟩ := hjudges
    exact ⟨⟨fun _ => rfl, fun _ => ⟨f, s, hf⟩⟩, nofun⟩
  | false =>
    rw [haffine] at hjudges
    obtain ⟨f, hf, hkind⟩ := hjudges
    refine ⟨⟨?_, nofun⟩, fun _ => ⟨f, s, hf, hkind⟩⟩
    rintro ⟨g, s', hg⟩
    cases (Prod.mk.inj (hf.symm.trans hg)).1

section Witness

/-- A number of things, a rate that is derived from it, and a cost that is shared among the
others. -/
def sharedCost : Registry ℚ where
  params := ⟨[("n", { symbol := "n", type := .int, value := some (.int 3) }),
    ("rate", {
      symbol := "rate"
      type := .float
      definition := some (.arith .div (.num 1) (.name "n"))
      isDefined := true
      value := some (.real (1 / 3)) })]⟩
  dexprs := ⟨[("share", {
      symbol := "share"
      type := "float"
      body := .arith .div (.dexpr "cost" none) (.dexpr "others" none) }),
    ("cost", {
      symbol := "cost"
      type := "float"
      body := .arith .sub (.arith .mul (.dexpr "others" none) (.var "x" "x" none))
        (.name "rate") }),
    ("others", { symbol := "others", type := "float", body := .arith .sub (.name "n") (.num 1) })]⟩

theorem isScalar_sharedCost : sharedCost.IsScalar where
  params {s p} hp := by
    obtain ⟨_, hmem, -⟩ := Table.exists_of_find? hp
    simp only [sharedCost, List.mem_cons, List.not_mem_nil, or_false, Prod.mk.injEq] at hmem
    obtain ⟨-, rfl⟩ | ⟨-, rfl⟩ := hmem
    · exact ⟨rfl, rfl, _, 3, rfl, rfl⟩
    · exact ⟨rfl, rfl, _, 1 / 3, rfl, rfl⟩
  dexprs {s d} hd := by
    obtain ⟨_, hmem, -⟩ := Table.exists_of_find? hd
    simp only [sharedCost, List.mem_cons, List.not_mem_nil, or_false, Prod.mk.injEq] at hmem
    obtain ⟨-, rfl⟩ | ⟨-, rfl⟩ | ⟨-, rfl⟩ := hmem <;> exact ⟨rfl, by decide +kernel⟩
  acyclic D hcycle := by
    have hnests : TransGen (sharedCost.Nests (.num 0)) D D :=
      hcycle.lift id fun _ _ h => .body h
    exact Registry.not_nests_of_rank
      (fun u => if u = "share" then 2 else if u = "cost" then 1 else 0)
      (by decide +kernel) (by decide +kernel) D hnests

/-- The number of the others, written out. -/
def writtenOthers : Expr ℚ := .arith .sub (.name "n") (.num 1)

/-- The cost, written out. -/
def writtenCost : Expr ℚ :=
  .arith .sub (.arith .mul writtenOthers (.var "x" "x" none)) (.name "rate")

theorem inlines_others : sharedCost.Inlines (.dexpr "others" none) writtenOthers :=
  .dexpr rfl (.arith .sub (.name rfl) (.num 1))

theorem inlines_cost : sharedCost.Inlines (.dexpr "cost" none) writtenCost :=
  .dexpr rfl (.arith .sub (.arith .mul inlines_others (.var "x" "x" none)) (.name rfl))

theorem inlines_share : sharedCost.Inlines (.dexpr "share" none)
    (.arith .div writtenCost writtenOthers) :=
  .dexpr rfl (.arith .div inlines_cost inlines_others)

theorem linearize_returns_iff_isAffine_sharedCost : ∃ s : Store ℚ, s.registry.IsScalar ∧
    (∃ f s', (linearize (.arith .mul (.neg (.dexpr "share" none)) (.dexpr "others" none))
      Env.empty).Returns s f s') ∧
    (∃ f s', (linearize (.arith .mul (.dexpr "share" none) (.dexpr "cost" none))
      Env.empty).Fails s f s' ∧ f.cause.kind = .nonLinearTerm) := by
  have hs : ({ registry := sharedCost } : Store ℚ).registry.IsScalar := isScalar_sharedCost
  refine ⟨{ registry := sharedCost }, hs, ?_, ?_⟩
  · exact (((linearize_returns_iff_isAffine hs (by decide +kernel) rfl fun _ _ => rfl).2 _
      (.arith .mul (.neg inlines_share) inlines_others)).1).2 (by decide +kernel)
  · exact ((linearize_returns_iff_isAffine hs (by decide +kernel) rfl fun _ _ => rfl).2 _
      (.arith .mul inlines_share inlines_cost)).2 (by decide +kernel)

end Witness

/-- A whole number beyond the range of doubles. -/
def vastNumber : Registry Float where
  params := ⟨[("p", {
    symbol := "p"
    type := .int
    isExternal := true
    value := some (.int (Int.ofNat (Nat.pow 10 400))) })]⟩

/-- The parameter and a variable. -/
def vastSum : Expr Float := .arith .add (.name "p") (.var "x" "x" none)

/-- The parameter and the square of a variable. -/
def vastSquare : Expr Float :=
  .arith .add (.name "p") (.arith .mul (.var "x" "x" none) (.var "x" "x" none))

/-- The kind of the error with which a computation fails. -/
def Run.failureKind? {α : Type} (x : Run K α) (s : Store K) : Option ErrorKind :=
  match (x.start s).1 with
  | .ok _ => none
  | .error f => some f.cause.kind

/-- A whole number beyond the range of scalars keeps an affine expression from having a linear form,
and hides that another one is not affine. -/
theorem linearize_vastNumber :
    vastNumber.Inlines vastSum vastSum ∧ vastSum.isAffine = true ∧
    (linearize vastSum Env.empty).failureKind? ⟨vastNumber, []⟩ = some .outOfRange ∧
    vastNumber.Inlines vastSquare vastSquare ∧ vastSquare.isAffine = false ∧
    (linearize vastSquare Env.empty).failureKind? ⟨vastNumber, []⟩ = some .outOfRange := by
  refine ⟨.arith .add (.name rfl) (.var "x" "x" none), rfl, by decide +kernel, ?_, rfl,
    by decide +kernel⟩
  exact .arith .add (.name rfl) (.arith .mul (.var "x" "x" none) (.var "x" "x" none))

end LinearModel
