import LinearModel.Proofs.Simplification
import LinearModel.LinearForm

/-!
# Terms

Every factor and every constant that is found in an affine expression is plain, so it has a value
that does not depend on variables. The factors times the values of their variables, and the
constants, add up to the value of the expression.
-/
namespace LinearModel

open Simulation Env

variable {a inside : Env ℚ} {σ : Assignment} {s : String} {e : Expr ℚ} {t : Registry ℚ}

open Run

namespace Expr

variable {t : Registry ℚ} {m n : Nat} {a : Env ℚ} {e e' : Expr ℚ} {x y : ℚ}

/-! ## What a plain expression is worth -/

/-- A plain expression that evaluates to a number. -/
structure IsWorth (t : Registry ℚ) (e : Expr ℚ) (x : ℚ) : Prop where
  plain : e.Plain
  number : (e.number (known 1) empty).Gives t x

/-- The number that a plain expression evaluates to. -/
def amount (t : Registry ℚ) (e : Expr ℚ) : ℚ :=
  match ((e.number (known 1) empty).start ⟨t, []⟩).1 with
  | .ok x => x
  | .error _ => 0

namespace IsWorth

theorem amount_eq (h : e.IsWorth t x) : e.amount t = x := by
  obtain ⟨w, hw⟩ := h.number []
  simp only [amount, show (e.number (known 1) empty).start ⟨t, []⟩ = _ from hw]

theorem num (x : ℚ) : (Expr.num x).IsWorth t x where
  plain := by simp only [Plain]
  number := gives_number_num.2 rfl

/-- A plain expression is worth the same in every environment without bindings. -/
theorem of_number (ht : t.Keyed) (he : e.Plain) (ha : ∀ s, a.get? s = none)
    (h : (e.number (known m) a).Gives t x) : e.IsWorth t x where
  plain := he
  number := by
    have hsame : e.value (known (m + 1)) a = e.value (known 1) empty :=
      Plain.value_eq (L := known (m + 1)) (M := known 1) rfl ha (fun _ => rfl) e he
    rw [Expr.number, ← hsame]
    exact h.number_mono ht (Nat.le_succ m) (.refl a)

theorem simplify {r : Registry ℚ} (hr : r.Tidy) (hrt : r.KeptIn t) (h : e.IsWorth t x)
    (he : e.simplify (some r) = .ok e') : e'.IsWorth t x where
  plain := plain_simplify (some r) e h.plain he
  number := (h.plain.refines_simplify hr hrt (fun _ => rfl) he).number h.number

theorem neg (h : e.IsWorth t x) : (Expr.neg e).IsWorth t (-x) where
  plain := by
    exact h.plain
  number := gives_number.2 ⟨_, gives_value_neg.2 ⟨x, h.number, rfl⟩, rfl⟩

theorem arith (op : ArithOp) {l r : Expr ℚ} (hl : l.IsWorth t x) (hr : r.IsWorth t y) :
    (Expr.arith op l r).IsWorth t (op.apply x y) where
  plain := by
    exact ⟨hl.plain, hr.plain⟩
  number := gives_number.2 ⟨_, gives_value_arith.2 ⟨x, y, hl.number, hr.number, rfl⟩, rfl⟩

end IsWorth

end Expr

namespace Expr

variable {t : Registry ℚ} {m n : Nat} {a : Env ℚ} {e e' : Expr ℚ} {x y : ℚ}

theorem scale_secures (op : ArithOp) (factor e : Expr ℚ) :
    (scale op factor e).Secures fun t e' => ∀ {x y}, factor.IsWorth t x → e.IsWorth t y →
      e'.IsWorth t (op.apply x y) := by
  refine ensures_registry fun r => ensures_ofExcept fun e' he' t hr hrt x y hx hy => ?_
  exact (hx.arith op hy).simplify hr hrt he'

/-! ## Constants -/

mutual
/-- A substituted expression without variables and decision expressions is plain. -/
theorem plain_of_isConstantLike {L : Lookup ℚ} {below : Expr ℚ → Env ℚ → Run ℚ Bool}
    {b : Env ℚ} : ∀ (e : Expr ℚ) {s s' : Store ℚ}, (e.isConstantLike L below a).Returns s true s' →
      e.mentionsDexpr = false → e.Reduced b → e.Indexed → e.Plain
  | .num _, _, _, _, _, _, _ | .str _, _, _, _, _, _, _ | .record _ _, _, _, _, _, _, _
  | .name _, _, _, _, _, _, _ => by
    simp only [Plain]
  | .var _ _ _, s, s', h, _, _, _ => by
    simp [isConstantLike] at h
  | .dexpr _ _, _, _, _, hd, _, _ => by
    simp only [mentionsDexpr, Bool.true_eq_false] at hd
  | .ivar _ _, _, _, _, _, hb, _ | .item _ _, _, _, _, _, hb, _
  | .sum _ _ _, _, _, _, _, hb, _ => by
    simp only [Reduced] at hb
  | .param _ es, s, s', h, hd, hb, hi => by
    exact ⟨hi.1, allPlain_of_areConstantLike es h hd hb hi.2⟩
  | .logic _ es, s, s', h, hd, hb, hi => by
    exact allPlain_of_areConstantLike es h hd hb hi
  | .arith _ l r, s, s', h, hd, hb, hi | .rel _ l r, s, s', h, hd, hb, hi => by
    simp only [isConstantLike, mentionsDexpr, Bool.or_eq_false_iff, Reduced, Indexed] at h hd hb hi
    obtain ⟨p, s₁, hl, h⟩ := returns_bind.1 h
    obtain ⟨q, s₂, hr, h⟩ := returns_bind.1 h
    obtain ⟨rfl, rfl⟩ := Bool.and_eq_true_iff.1 (returns_pure.1 h).1
    exact ⟨plain_of_isConstantLike l hl hd.1 hb.1 hi.1, plain_of_isConstantLike r hr hd.2 hb.2 hi.2⟩
  | .neg e, s, s', h, hd, hb, hi | .field e _, s, s', h, hd, hb, hi => by
    exact plain_of_isConstantLike e h hd hb hi

theorem allPlain_of_areConstantLike {L : Lookup ℚ} {below : Expr ℚ → Env ℚ → Run ℚ Bool}
    {b : Env ℚ} : ∀ (es : List (Expr ℚ)) {s s' : Store ℚ},
      (areConstantLike L below es a).Returns s true s' → anyMentionsDexpr es = false →
        AllReduced b es → AllIndexed es → AllPlain es
  | [], _, _, _, _, _, _ => by simp only [AllPlain]
  | e :: es, s, s', h, hd, hb, hi => by
    simp only [areConstantLike, anyMentionsDexpr, Bool.or_eq_false_iff, AllReduced, AllIndexed]
      at h hd hb hi
    obtain ⟨p, s₁, he, h⟩ := returns_bind.1 h
    obtain ⟨q, s₂, hes, h⟩ := returns_bind.1 h
    obtain ⟨rfl, rfl⟩ := Bool.and_eq_true_iff.1 (returns_pure.1 h).1
    exact ⟨plain_of_isConstantLike e he hd.1 hb.1 hi.1,
      allPlain_of_areConstantLike es hes hd.2 hb.2 hi.2⟩
end

end Expr

/-! ## Assignments -/

/-- An assignment of numbers to decision variables. -/
structure Assignment where
  values : Table String (Value ℚ)
  numeric : ∀ {n v}, values.find? n = some v → ∃ x, v.scalar? = some x

/-- The assignment of some numbers. -/
def Assignment.ofNumbers (es : List (String × ℚ)) : Assignment where
  values := (Table.mk es).map .real
  numeric h := by
    rw [Table.find?_map, Option.map_eq_some_iff] at h
    obtain ⟨x, _, rfl⟩ := h
    exact ⟨x, rfl⟩

/-- The number of a variable, or zero if it has none. -/
def Assignment.number (σ : Assignment) (n : String) : ℚ :=
  ((σ.values.find? n).bind Value.scalar?).getD 0

/-- The surroundings of an expression without the bindings, where variables have values. -/
def Env.assigned (a : Env ℚ) (σ : Assignment) : Env ℚ := { a.spawn with values := σ.values }

theorem Env.enter_assigned (σ : Assignment)
    (h : a.enter s = .ok inside) : (a.assigned σ).enter s = .ok (inside.assigned σ) := by
  simp only [enter, assigned, spawn] at h ⊢
  split at h
  · cases h
  · rename_i hs
    cases h
    simp only [hs]
    rfl

theorem Env.variableValue_assigned {n : String} {x : ℚ}
    (h : (a.assigned σ).variableValue n = .ok x) :
    (∃ v, σ.values.find? n = some v) ∧ σ.number n = x := by
  simp only [variableValue, assigned] at h
  cases hv : σ.values.find? n with
  | none => simp [hv] at h
  | some v =>
    obtain ⟨y, hy⟩ := σ.numeric hv
    simp only [hv, Value.readScalar_of_scalar? hy, Except.ok.injEq] at h
    exact ⟨⟨v, rfl⟩, by simp [Assignment.number, hv, hy, h]⟩

namespace Term

/-- A term whose factor and variable, or whose constant, are numbers. -/
def Evaluates (t : Registry ℚ) (σ : Assignment) : Term ℚ → Prop
  | .occurrence n _ _ f => (∃ x, f.IsWorth t x) ∧ ∃ v, σ.values.find? n = some v
  | .constant e => ∃ x, e.IsWorth t x

/-- What a term contributes under an assignment. -/
def amount (t : Registry ℚ) (σ : Assignment) : Term ℚ → ℚ
  | .occurrence n _ _ f => f.amount t * σ.number n
  | .constant e => e.amount t

end Term

/-- Terms that add up to a number. -/
structure AddUp (t : Registry ℚ) (σ : Assignment) (ts : List (Term ℚ)) (z : ℚ) : Prop where
  evaluates : ∀ u ∈ ts, u.Evaluates t σ
  sum : (ts.map (Term.amount t σ)).sum = z

namespace AddUp

variable {t : Registry ℚ} {σ : Assignment} {x y : ℚ}

theorem append {ts us : List (Term ℚ)} (hts : AddUp t σ ts x) (hus : AddUp t σ us y) :
    AddUp t σ (ts ++ us) (x + y) where
  evaluates u hu := (List.mem_append.1 hu).elim (hts.evaluates u) (hus.evaluates u)
  sum := by rw [List.map_append, List.sum_append, hts.sum, hus.sum]

theorem occurrence {n base : String} {idx : Option (Index ℚ)} {factor : Expr ℚ}
    (hf : factor.IsWorth t x) (hn : ∃ v, σ.values.find? n = some v) :
    AddUp t σ [.occurrence n base idx factor] (x * σ.number n) where
  evaluates u hu := by
    obtain rfl := List.mem_singleton.1 hu
    exact ⟨⟨x, hf⟩, hn⟩
  sum := by simp [Term.amount, hf.amount_eq]

theorem constant (he : e.IsWorth t x) : AddUp t σ [.constant e] x where
  evaluates u hu := by
    obtain rfl := List.mem_singleton.1 hu
    exact ⟨x, he⟩
  sum := by simp [Term.amount, he.amount_eq]

end AddUp

/-! ## Expressions that have been substituted -/

/-- How a place in which terms were looked for is seen from the registry that is left in the end:
no parameter is hidden there, and no variable has another value than the assigned one. -/
structure Env.Fits (a : Env ℚ) (t : Registry ℚ) (σ : Assignment) : Prop where
  free : ∀ s, t.params.contains s = true → a.get? s = none
  values : ∀ n v, a.values.find? n = some v → σ.values.find? n = some v

theorem Env.Fits.enter (h : a.Fits t σ) (hin : a.enter s = .ok inside) : inside.Fits t σ where
  free u hu := (get?_enter hin u).trans (h.free u hu)
  values := by
    simp only [Env.enter] at hin
    split at hin
    · cases hin
    · cases hin
      exact h.values

theorem Env.Fits.below (h : a.Fits t σ) :
    a.spawn.Below (a.assigned σ) := ⟨rfl, h.values, fun _ hs => hs⟩

/-- A substituted expression that evaluates to a number under an assignment. -/
structure Expr.Comes (e : Expr ℚ) (t : Registry ℚ) (σ : Assignment) (m : Nat) (a : Env ℚ) (y : ℚ) :
    Prop where
  reduced : e.Reduced empty
  indexed : e.Indexed
  number : (e.number (known m) (a.assigned σ)).Gives t y

namespace Expr.Comes

variable {t : Registry ℚ} {σ : Assignment} {m : Nat} {a : Env ℚ} {y : ℚ}

theorem neg (h : (Expr.neg e).Comes t σ m a y) : ∃ z, e.Comes t σ m a z ∧ y = -z := by
  obtain ⟨v, hv, hvy⟩ := gives_number.1 h.number
  obtain ⟨z, hz, rfl⟩ := gives_value_neg.1 hv
  have hreduced := h.reduced
  have hindexed := h.indexed
  exact ⟨z, ⟨hreduced, hindexed, hz⟩, by simpa [Value.scalar?] using hvy.symm⟩

theorem arith {op : ArithOp} {l r : Expr ℚ} (h : (Expr.arith op l r).Comes t σ m a y) :
    ∃ y₁ y₂, l.Comes t σ m a y₁ ∧ r.Comes t σ m a y₂ ∧ y = op.apply y₁ y₂ := by
  obtain ⟨v, hv, hvy⟩ := gives_number.1 h.number
  obtain ⟨y₁, y₂, h₁, h₂, rfl⟩ := gives_value_arith.1 hv
  have hreduced := h.reduced
  have hindexed := h.indexed
  exact ⟨y₁, y₂, ⟨hreduced.1, hindexed.1, h₁⟩, ⟨hreduced.2, hindexed.2, h₂⟩,
    by simpa [Value.scalar?] using hvy.symm⟩

theorem isWorth (h : e.Comes t σ m a y) (ht : t.Keyed) (he : e.Plain) : e.IsWorth t y :=
  .of_number ht he (fun _ => rfl) h.number

end Expr.Comes

/-- The index of a decision expression has one value, whether the bindings of the place that refers
to it are seen or not. -/
theorem Expr.Reduced.index_eq {m n : Nat} {v u : Value ℚ}
    (he : e.Reduced empty) (hnm : n ≤ m) (ht : t.Keyed) (ha : a.Fits t σ)
    (hv : (e.value (known n) a).Gives t v) (hu : (e.value (known m) (a.assigned σ)).Gives t u) :
    v.normalize = u.normalize := by
  have hrefines : Refines t m (a.assigned σ) { a with values := σ.values } e e :=
    Reduced.refines e (he.mono (fun _ _ => rfl) e) rfl ha.free
  obtain ⟨w, hw, hwu⟩ := hrefines u hu
  have hbelow : a.Below { a with values := σ.values } := ⟨rfl, ha.values, fun _ hs => hs⟩
  rw [(hv.value_mono ht hnm hbelow).unique hw]
  exact hwu

/-- The body of a decision expression, with its index substituted, evaluates to what the decision
expression evaluates to. -/
theorem Expr.Comes.unfold {m n : Nat} {y : ℚ}
    {idx : Option (Expr ℚ)} {body : Expr ℚ} (h : (Expr.dexpr s idx).Comes t σ m a y) (hnm : n ≤ m)
    (ht : t.Keyed) (hbodies : t.WellIndexed) (ha : a.Fits t σ) (hin : a.enter s = .ok inside)
    (hbody : (unfoldDexpr (known n) s idx inside).Gives t body) : body.Comes t σ m inside y := by
  obtain ⟨⟨d, inner⟩, hscope, hsub⟩ :=
    (gives_bind (steady_dexprScope s idx) fun p => steady_substitute p.1.body p.2).1 hbody
  obtain ⟨v, hv, hvy⟩ := gives_number.1 h.number
  obtain ⟨inside', d', inner', z, hin', hscope', hz, rfl⟩ := gives_value_dexpr.1 hv
  obtain rfl : z = y := by simpa [Value.scalar?] using hvy
  obtain rfl : inside.assigned σ = inside' :=
    Except.ok.inj ((enter_assigned σ hin).symm.trans hin')
  obtain ⟨hd, hinner⟩ := gives_dexprScope.1 hscope
  obtain ⟨hd', hinner'⟩ := gives_dexprScope.1 hscope'
  obtain rfl : d = d' := Option.some.inj (hd.symm.trans hd')
  have hbelow : inner.Below inner' ∧ inner'.spawn = inside.assigned σ := by
    have hspawn : inside.spawn.Below (inside.assigned σ).spawn := (ha.enter hin).below
    obtain ⟨hi, rfl, rfl⟩ | ⟨i, e, u, hi, rfl, hu, rfl⟩ := hinner
    · obtain ⟨_, _, rfl⟩ | ⟨_, _, _, _, hnone, _⟩ := hinner'
      · exact ⟨hspawn, rfl⟩
      · cases hnone
    · obtain ⟨_, hsome, _⟩ | ⟨i', e', w, hi', he', hw, rfl⟩ := hinner'
      · cases hsome
      · cases he'
        obtain rfl : i = i' := Option.some.inj (hi.symm.trans hi')
        have hreduced := h.reduced
        simp only [Reduced] at hreduced
        rw [hreduced.index_eq hnm ht (ha.enter hin) hu hw]
        exact ⟨hspawn.bind _ _, rfl⟩
  have hsubst := substitute_sound ht d.body (hsub.substitute_mono ht hnm hbelow.1)
  refine ⟨hsubst.reduced.mono (fun _ _ => rfl) body, hsubst.indexed (hbodies hd), ?_⟩
  rw [← hbelow.2]
  cases m with
  | zero => exact absurd hz not_gives_fail
  | succ m =>
    exact (hsubst.refines (.refl inner')).number (hz.number_mono ht (Nat.le_succ m) (.refl _))

/-! ## Terms -/

theorem descent_isConstant_keeps {K : Type} [Scalar K] {L M : Lookup K}
    (hL : keeping.Lookups L M) (k : Nat) (e : Expr K) {a b : Env K} (hab : a.Below b) :
    Run.Keeps ((descent L k).isConstant e a) ((descent M k).isConstant e b) := by
  induction k generalizing e a b with
  | zero => exact ensures_fail
  | succ k ih => exact exprIsConstantLike hL trivial (fun e _ _ hab => ih e hab) e hab

namespace Expr

variable {n k : Nat}

/-- The terms found in an expression under a factor add up to its value times the factor, in every
registry that may follow. -/
def Splits (n : Nat) (e factor : Expr ℚ) (a : Env ℚ) (t : Registry ℚ) (ts : List (Term ℚ)) : Prop :=
  ∀ {σ : Assignment} {m : Nat} {x y : ℚ}, n ≤ m → t.Keyed → t.WellIndexed → a.Fits t σ →
    e.Comes t σ m a y → factor.IsWorth t x → AddUp t σ ts (x * y)

theorem resolveConstant_secures (e : Expr ℚ) (a : Env ℚ) :
    (resolveConstant (lookup n) e a).Secures fun t e' => ∀ {σ : Assignment} {m : Nat} {y : ℚ},
      n ≤ m → t.Keyed → a.Fits t σ → e.Comes t σ m a y →
        (e.mentionsDexpr = false → e.Plain) → e'.IsWorth t y := by
  refine ensures_if (fun _ => ?_) fun hno => ?_
  · refine EnsuresFrom.bind (exprNumber (lookup_keeps n) e (.refl a.spawn)).secures fun x => ?_
    refine ensures_pure fun t hx σ m y hnm ht ha he _ => ?_
    rw [← (hx.number_mono ht hnm ha.below).unique he.number]
    exact .num x
  · exact ensures_pure fun t σ m y _ ht _ he hplain => he.isWorth ht (hplain hno)

theorem isConstantLike_secures (e : Expr ℚ) (a : Env ℚ) :
    (e.isConstantLike (lookup n) (descent (lookup n) k).isConstant a).Secures fun _ c =>
      c = true → e.Reduced empty → e.Indexed → e.mentionsDexpr = false → e.Plain := by
  intro s c s' hs h
  refine ⟨(exprIsConstantLike (lookup_keeps n) trivial (fun e _ _ hab =>
    descent_isConstant_keeps (lookup_keeps n) k e hab) e (.refl a) hs.toKeyed h).1, ?_⟩
  rintro t _ rfl hreduced hindexed hno
  exact plain_of_isConstantLike e h hno hreduced hindexed

/-- An expression that is constant is one term, and any other is left to be split. -/
theorem constant_secures {e factor : Expr ℚ} {rest : Run ℚ (List (Term ℚ))}
    (hrest : rest.Secures (Splits n e factor a)) : (do
      if ← e.isConstantLike (lookup n) (descent (lookup n) k).isConstant a then
        return [Term.constant (← scale .mul factor (← resolveConstant (lookup n) e a))]
      else rest).Secures (Splits n e factor a) := by
  refine EnsuresFrom.bind (isConstantLike_secures e a) fun c =>
    ensures_if (fun hc => ?_) fun _ => ?_
  · refine EnsuresFrom.bind (resolveConstant_secures e a) fun e' => ?_
    refine EnsuresFrom.bind (scale_secures .mul factor e') fun e'' => ?_
    refine ensures_pure fun t hscale hresolve hplain σ m x y hnm ht _ ha he hx => ?_
    exact .constant (hscale hx (hresolve hnm ht ha he (hplain hc he.reduced he.indexed)))
  · exact hrest.mono fun t ts hts _ => hts

theorem dexpr_secures (hbelow : ∀ e factor a,
    ((descent (lookup n) k).terms e factor a).Secures (Splits n e factor a)) (s : String)
    (idx : Option (Expr ℚ)) (factor : Expr ℚ) (a : Env ℚ) :
    ((Expr.dexpr s idx).terms (lookup n) (descent (lookup n) k) factor a).Secures
      (Splits n (.dexpr s idx) factor a) := by
  refine EnsuresFrom.bind (P := fun _ inside => a.enter s = .ok inside)
    (ensures_ofExcept fun inside hin _ => hin) fun inside => ?_
  refine EnsuresFrom.bind
    (Simulation.unfoldDexpr (lookup_keeps n) trivial s idx (.refl inside)).secures
    fun body => ?_
  refine EnsuresFrom.bind (descent_isConstant_keeps (lookup_keeps n) k body (.refl inside)).secures
    fun c => ensures_if (fun _ => ?_) fun _ => ?_
  · refine EnsuresFrom.bind (exprNumber (lookup_keeps n) (.dexpr s idx)
      (.refl a.spawn)).secures fun z => ?_
    refine EnsuresFrom.bind (scale_secures .mul factor (.num z)) fun e' => ?_
    refine ensures_pure fun t hscale hz _ _ _ σ m x y hnm ht _ ha he hx => ?_
    rw [← (hz.number_mono ht hnm ha.below).unique he.number]
    exact AddUp.constant (hscale hx (.num z))
  · refine (hbelow body factor inside).mono ?_
    intro t ts hts _ hbody hin σ m x y hnm ht hbodies ha he hx
    exact hts hnm ht hbodies (ha.enter hin) (he.unfold hnm ht hbodies ha hin hbody) hx

/-- The terms of an expression, given that those of the bodies of decision expressions are right. -/
theorem terms_secures (hbelow : ∀ e factor a,
    ((descent (lookup n) k).terms e factor a).Secures (Splits n e factor a)) :
    ∀ (e factor : Expr ℚ) (a : Env ℚ),
      (e.terms (lookup n) (descent (lookup n) k) factor a).Secures (Splits n e factor a)
  | .var u base idx, factor, a => by
    refine ensures_pure fun t σ m x y _ _ _ _ he hx => ?_
    obtain ⟨v, hv, hvy⟩ := gives_number.1 he.number
    obtain ⟨z, hz, rfl⟩ := gives_value_var.1 hv
    obtain rfl : z = y := by simpa [Value.scalar?] using hvy
    obtain ⟨hu, rfl⟩ := variableValue_assigned hz
    exact .occurrence hx hu
  | .ivar s idx, factor, a => by
    refine EnsuresFrom.bind (Simulation.variableAt s
      (Simulation.exprElements (lookup_keeps n) idx (.refl a))).secures fun p => ?_
    refine ensures_pure fun t _ σ m x y _ _ _ _ he _ => ?_
    exact absurd he.reduced (by simp only [Reduced, not_false_eq_true])
  | .dexpr s idx, factor, a => dexpr_secures hbelow s idx factor a
  | .neg e, factor, a => by
    refine constant_secures ?_
    refine EnsuresFrom.bind (scale_secures .mul factor minusOne) fun f => ?_
    refine (terms_secures hbelow e f a).mono ?_
    intro t ts hts hscale σ m x y hnm ht hbodies ha he hx
    obtain ⟨z, hz, rfl⟩ := he.neg
    have hadd := hts hnm ht hbodies ha hz (hscale hx (.num _))
    convert hadd using 1
    simp
  | .arith op l r, factor, a => by
    refine constant_secures ?_
    cases op with
    | add =>
      refine EnsuresFrom.bind (terms_secures hbelow l factor a) fun ls => ?_
      refine EnsuresFrom.bind (terms_secures hbelow r factor a) fun rs => ?_
      refine ensures_pure fun t hrs hls σ m x y hnm ht hbodies ha he hx => ?_
      obtain ⟨y₁, y₂, h₁, h₂, rfl⟩ := he.arith
      have hadd := (hls hnm ht hbodies ha h₁ hx).append (hrs hnm ht hbodies ha h₂ hx)
      rwa [← mul_add] at hadd
    | sub =>
      refine EnsuresFrom.bind (terms_secures hbelow l factor a) fun ls => ?_
      refine EnsuresFrom.bind (scale_secures .mul factor minusOne) fun f => ?_
      refine EnsuresFrom.bind (terms_secures hbelow r f a) fun rs => ?_
      refine ensures_pure fun t hrs hscale hls σ m x y hnm ht hbodies ha he hx => ?_
      obtain ⟨y₁, y₂, h₁, h₂, rfl⟩ := he.arith
      have hadd := (hls hnm ht hbodies ha h₁ hx).append
        (hrs hnm ht hbodies ha h₂ (hscale hx (.num _)))
      convert hadd using 1
      simp only [ArithOp.apply_sub, ArithOp.apply_mul, Scalar.ofInt_rat]
      ring
    | mul =>
      refine EnsuresFrom.bind (isConstantLike_secures l a) fun c =>
        ensures_if (fun hc => ?_) fun _ => ?_
      · refine EnsuresFrom.bind (resolveConstant_secures l a) fun l' => ?_
        refine EnsuresFrom.bind (scale_secures .mul factor l') fun f => ?_
        refine (terms_secures hbelow r f a).mono ?_
        intro t ts hts hscale hresolve hplain σ m x y hnm ht hbodies ha he hx
        obtain ⟨y₁, y₂, h₁, h₂, rfl⟩ := he.arith
        have hl := hresolve hnm ht ha h₁ (hplain hc h₁.reduced h₁.indexed)
        have hadd := hts hnm ht hbodies ha h₂ (hscale hx hl)
        rwa [ArithOp.apply_mul, mul_assoc] at hadd
      · refine EnsuresFrom.bind (isConstantLike_secures r a) fun c =>
          ensures_if (fun hc => ?_) fun _ => ensures_fail
        refine EnsuresFrom.bind (resolveConstant_secures r a) fun r' => ?_
        refine EnsuresFrom.bind (scale_secures .mul factor r') fun f => ?_
        refine (terms_secures hbelow l f a).mono ?_
        intro t ts hts hscale hresolve hplain _ σ m x y hnm ht hbodies ha he hx
        obtain ⟨y₁, y₂, h₁, h₂, rfl⟩ := he.arith
        have hr := hresolve hnm ht ha h₂ (hplain hc h₂.reduced h₂.indexed)
        have hadd := hts hnm ht hbodies ha h₁ (hscale hx hr)
        rwa [ArithOp.apply_mul, mul_right_comm, mul_assoc] at hadd
    | div =>
      refine EnsuresFrom.bind (isConstantLike_secures r a) fun c =>
        ensures_if (fun hc => ?_) fun _ => ensures_fail
      refine EnsuresFrom.bind (resolveConstant_secures r a) fun r' => ?_
      refine EnsuresFrom.bind (scale_secures .div factor r') fun f => ?_
      refine (terms_secures hbelow l f a).mono ?_
      intro t ts hts hscale hresolve hplain σ m x y hnm ht hbodies ha he hx
      obtain ⟨y₁, y₂, h₁, h₂, rfl⟩ := he.arith
      have hr := hresolve hnm ht ha h₂ (hplain hc h₂.reduced h₂.indexed)
      have hadd := hts hnm ht hbodies ha h₁ (hscale hx hr)
      rwa [ArithOp.apply_div, div_mul_eq_mul_div, mul_div_assoc] at hadd
  | .sum _ _ _, _, _ | .rel _ _ _, _, _ | .logic _ _, _, _ | .str _, _, _ | .record _ _, _, _ => by
    exact ensures_fail
  | .num x, factor, a | .name x, factor, a | .param _ _, factor, a | .field _ _, factor, a
  | .item _ _, factor, a => by
    exact constant_secures ensures_fail

theorem descent_terms_secures : ∀ (k : Nat) (e factor : Expr ℚ) (a : Env ℚ),
    ((descent (lookup n) k).terms e factor a).Secures (Splits n e factor a)
  | 0, _, _, _ => ensures_fail
  | k + 1, e, factor, a => terms_secures (descent_terms_secures k) e factor a

end Expr

end LinearModel
