import LinearModel.Proofs.Hygiene
import LinearModel.Proofs.Lockstep
import Mathlib.Logic.Relation

/-!
# Flattened expressions

Substitution writes sums out, makes indexed variables single ones, looks records up and replaces
bound names, at every depth. What it leaves can be taken apart into terms. So can the bodies of
decision expressions, which are substituted in turn when they are looked into. Linearization may
therefore fail in many ways, but never because of a sum that was not written out.
-/
namespace LinearModel

open Run Comparison Env

variable {K : Type} {α β : Type}

namespace Expr

/-! ## Every depth of an expression -/

/-- Whether an expression by itself is no sum, no entry of an indexed variable, no record lookup
and no name that is bound. -/
def IsFlat (bound : String → Prop) : Expr K → Prop
  | .sum _ _ _ | .ivar _ _ | .item _ _ => False
  | .name s => ¬ bound s
  | _ => True

/-- The second expression stands in the first one, at any depth. -/
def Reaches : Expr K → Expr K → Prop := Relation.ReflTransGen fun e d => d ∈ e.children

/-- Whether all that stands in an expression is flat. -/
def Flattened (bound : String → Prop) (e : Expr K) : Prop := ∀ d, e.Reaches d → d.IsFlat bound

/-- A reduced expression that holds none of the names that are bound. -/
structure Cleared (bound : String → Prop) (e : Expr K) : Prop where
  reduced : e.Reduced empty
  left : ∀ n ∈ e.leftNames, ¬ bound n

variable {bound : String → Prop} {e d : Expr K}

theorem reduced_of_mem {a : Env K} {es : List (Expr K)} (h : AllReduced a es) (hd : d ∈ es) :
    d.Reduced a := by
  induction es with
  | nil => cases hd
  | cons e es ih =>
    cases hd with
    | head => exact h.1
    | tail _ hd => exact ih h.2 hd

theorem leftNames_of_mem {es : List (Expr K)} (hd : d ∈ es) : d.leftNames ⊆ allLeftNames es := by
  induction es with
  | nil => cases hd
  | cons e es ih =>
    cases hd with
    | head => exact List.subset_append_left _ _
    | tail _ hd => exact List.subset_append_of_subset_right _ (ih hd)

theorem Cleared.isFlat (h : e.Cleared bound) : e.IsFlat bound := by
  obtain ⟨hreduced, hleft⟩ := h
  cases e with
  | name s => exact hleft s (by simp [leftNames])
  | sum | ivar | item => simp only [Reduced] at hreduced
  | _ => trivial

/-- What stands directly in a cleared expression is cleared. -/
theorem Cleared.child (h : e.Cleared bound) (hd : d ∈ e.children) : d.Cleared bound := by
  obtain ⟨hreduced, hleft⟩ := h
  cases e with
  | param _ es | logic _ es =>
    exact ⟨reduced_of_mem hreduced hd, fun n hn => hleft n (leftNames_of_mem hd hn)⟩
  | arith _ l r | rel _ l r =>
    simp only [Reduced, leftNames, List.forall_mem_append] at hreduced hleft
    obtain rfl | rfl : d = l ∨ d = r := by simpa [children] using hd
    · exact ⟨hreduced.1, hleft.1⟩
    · exact ⟨hreduced.2, hleft.2⟩
  | neg e | field e _ =>
    obtain rfl : d = e := by simpa [children] using hd
    exact ⟨hreduced, hleft⟩
  | dexpr _ idx =>
    cases idx with
    | none => simp [children] at hd
    | some e =>
      obtain rfl : d = e := by simpa [children] using hd
      exact ⟨hreduced, hleft⟩
  | sum | ivar | item => simp only [Reduced] at hreduced
  | _ => simp [children] at hd

theorem Cleared.flattened (h : e.Cleared bound) : e.Flattened bound := by
  intro d hd
  have hcleared : d.Cleared bound := by
    induction hd with
    | refl => exact h
    | tail _ hchild ih => exact ih.child hchild
  exact hcleared.isFlat

variable [Scalar K] {L : Lookup K}

theorem substitute_cleared {env : Env K} {n : Expr K} {s s' : Store K}
    (h : (e.substitute L env).Returns s n s') : n.Cleared fun m => env.isBound m = true := by
  obtain ⟨-, hleaves⟩ := substitute_leaves e env trivial h
  exact ⟨hleaves.reduced, fun m hm => by simp [isBound, (hleaves.left m hm).2]⟩

/-- The body of a decision expression is substituted where its own index is bound. -/
theorem unfoldDexpr_cleared {symbol : String} {idx : Option (Expr K)} {env : Env K} {n : Expr K}
    {s s' : Store K} (h : (unfoldDexpr L symbol idx env).Returns s n s') :
    ∃ d, s.registry.dexprs.find? symbol = some d ∧ n.Cleared (d.index = some ·) := by
  obtain ⟨⟨d, inner⟩, s₁, hscope, hbody⟩ := returns_bind.1 h
  obtain ⟨hd, hinner⟩ := returns_dexprScope hscope
  obtain ⟨-, hleaves⟩ := substitute_leaves d.body inner trivial hbody
  exact ⟨d, hd, hleaves.reduced, fun m hm => hinner m (hleaves.left m hm).2⟩

end Expr

/-! ## Computations that never come upon a sum -/

namespace Run

/-- A computation that never fails because a sum was not written out. -/
def SumFree (x : Run K α) : Prop :=
  ∀ ⦃s : Store K⦄ ⦃f : Failure K⦄ ⦃s' : Store K⦄, x.Fails s f s' →
    ∀ sum, f.cause ≠ .sumNotFlattened sum

theorem sumFree_pure (a : α) : (pure a : Run K α).SumFree :=
  fun _ _ _ h => absurd h not_fails_pure

theorem sumFree_fail {c : Cause K} (hc : ∀ sum, c ≠ .sumNotFlattened sum) :
    (fail c : Run K α).SumFree := by
  intro s f s' h
  obtain ⟨rfl, _⟩ := fails_fail.1 h
  exact hc

/-- The second step may rely on what the first one returns. -/
theorem SumFree.bindOf {P : α → Prop} {x : Run K α} {f : α → Run K β} (hx : x.SumFree)
    (hP : x.Yields P) (hf : ∀ a, P a → (f a).SumFree) : (x >>= f).SumFree := by
  intro s e s' h
  obtain h | ⟨a, s₁, ha, h⟩ := fails_bind.1 h
  · exact hx h
  · exact hf a (hP trivial ha).2 h

theorem SumFree.bind {x : Run K α} {f : α → Run K β} (hx : x.SumFree) (hf : ∀ a, (f a).SumFree) :
    (x >>= f).SumFree :=
  hx.bindOf (yields_any x) fun a _ => hf a

theorem sumFree_registry {f : Registry K → Run K α} (hf : ∀ r, (f r).SumFree) :
    (registry >>= f).SumFree :=
  SumFree.bind (fun _ _ _ h => absurd h not_fails_registry) hf

theorem sumFree_modifyRegistry (f : Registry K → Registry K) : (modifyRegistry f).SumFree :=
  fun _ _ _ h => absurd h not_fails_modifyRegistry

theorem sumFree_plain {c : Cause K} (hc : c.isPlain = true) : (fail c : Run K α).SumFree :=
  sumFree_fail fun _ h => by
    subst h
    cases hc

theorem sumFree_ofExcept {x : Except (Cause K) α} (hx : Plain x) : (ofExcept x).SumFree := by
  cases x with
  | ok a => exact sumFree_pure a
  | error c => exact sumFree_plain (hx c rfl)

theorem sumFree_if {c : Prop} [Decidable c] {x y : Run K α} (hx : x.SumFree) (hy : y.SumFree) :
    (if c then x else y).SumFree := by
  split
  exacts [hx, hy]

end Run

/-- Evaluation never comes upon a sum, as long as lookups do not. -/
def Comparison.sumFree [Scalar K] : Comparison K where
  rel x _ := x.SumFree
  sees := Eq
  like := Eq
  permits _ _ := True
  ret := sumFree_pure
  seq := SumFree.bind
  failure _ := sumFree_plain
  warning w := fun _ _ _ h => by simp [Fails] at h
  declarations hf := sumFree_registry fun r => hf r r rfl
  params h s := .inl (by rw [h])
  tupleSets h s := .inl (by rw [h])
  vars _ _ _ h := by rw [h]
  dexprs _ _ _ _ h := by rw [h]
  undeclared _ _ _ := sumFree_fail nofun
  binding := @get?_of_eq K
  depth := @depth_of_eq K
  bound := @bind_of_eq K
  spawn _ _ _ h := by rw [h]
  assigned _ a _ n _ := sumFree_ofExcept (Plain.variableValue a n)
  enter {_ a _ _ _} s hab _ hf := by
    cases hab
    cases ha : a.enter s with
    | ok a' => exact hf ha rfl
    | error c =>
      rw [Env.enter] at ha
      split at ha
      · cases ha
        exact sumFree_fail nofun
      · cases ha

section Lookups

variable [Scalar K] {L : Lookup K}

theorem Comparison.sumFree_meets (env : Env K) : sumFree.Meets env.active [] env env :=
  ⟨rfl, rfl, binds_nil _⟩

theorem Comparison.sumFree_allows {A : List String} {qs : List Site} :
    (sumFree (K := K)).Allows A qs :=
  fun _ _ => trivial

/-- A lookup that never comes upon a sum. -/
abbrev Lookup.SumFree (L : Lookup K) : Prop := sumFree.Lookups L L

namespace Lookup.SumFree

variable (hL : L.SumFree)

include hL

theorem value (e : Expr K) (env : Env K) : (e.value L env).SumFree :=
  exprValue hL e (sumFree_meets env) sumFree_allows

theorem number (e : Expr K) (env : Env K) : (e.number L env).SumFree :=
  exprNumber hL e (sumFree_meets env) sumFree_allows

theorem substitute (e : Expr K) (env : Env K) : (e.substitute L env).SumFree :=
  exprSubstitute hL (.inr fun _ _ => trivial) e (sumFree_meets env)
    sumFree_allows

theorem unfoldDexpr (symbol : String) (idx : Option (Expr K)) (env : Env K) :
    (unfoldDexpr L symbol idx env).SumFree := by
  refine SumFree.bind ?_ fun d => hL.substitute d.1.body d.2
  refine sumFree_registry fun r => ?_
  split
  · exact sumFree_fail nofun
  · split
    · exact sumFree_plain rfl
    · rename_i value hvalue
      obtain ⟨e, -, rfl⟩ := Option.map_eq_some_iff.1 hvalue
      exact (hL.value e env).bind fun v => sumFree_pure _
    · exact sumFree_plain rfl
    · exact sumFree_pure _

theorem parameterValue (symbol : String) (idx : Index K) :
    (parameterValue L symbol idx).SumFree := by
  refine Comparison.parameterValue (R := Comparison.sumFree) (M := L) idx (fun h => by rw [h]) ?_
  intro _ _ p e _ _ _
  rw [defineParameter_eq, draftParameter_eq]
  refine (((sumFree_modifyRegistry _).bind fun _ => ?_).bind fun _ => sumFree_modifyRegistry _)
  refine Comparison.fillParameter hL (Comparison.sumFree_meets empty) Comparison.sumFree_allows
    fun place v => sumFree_registry fun r => ?_
  split
  · exact sumFree_plain rfl
  · exact (sumFree_ofExcept (Plain.write _ place v)).bind fun _ => sumFree_modifyRegistry _

theorem domainElements (symbol : String) (env : Env K) (given : Option (Value K)) :
    (domainElements L symbol env given).SumFree := by
  refine Comparison.domainElements (R := Comparison.sumFree) (M := L) (b := env)
    (fun h => by rw [h]) (fun _ _ => ?_) fun _ _ => ?_
  · exact Comparison.rangeElements hL (Comparison.sumFree_meets env.spawn) Comparison.sumFree_allows
      (fun h => by rw [h]) fun f _ => sumFree_modifyRegistry _
  · exact Comparison.memberElements hL (memberScope_meets fun _ => rfl) Comparison.sumFree_allows
      fun f _ => sumFree_modifyRegistry _

end Lookup.SumFree

/-- Looking things up never comes upon a sum, as deep as it goes. -/
theorem sumFree_lookup : ∀ n, (lookup n : Lookup K).SumFree
  | 0 => ⟨fun _ _ _ => sumFree_fail nofun, fun _ _ _ _ => sumFree_fail nofun,
      fun _ _ _ => sumFree_fail nofun⟩
  | n + 1 =>
    { parameter := fun s idx _ => (sumFree_lookup n).parameterValue s idx
      elements := fun {a _} s given _ _ => (sumFree_lookup n).domainElements s a given
      body := fun {a _ _ d _ _} _ _ _ => (sumFree_lookup n).number d.body a }

end Lookups

/-! ## Terms -/

section Terms

variable [Scalar K] {L : Lookup K} {below : Descent K}

/-- A treatment of bodies that never comes upon a sum in what substitution leaves. -/
structure Descent.SumFree (below : Descent K) : Prop where
  isConstant : ∀ (e : Expr K) (env : Env K), (below.isConstant e env).SumFree
  terms : ∀ {e : Expr K}, e.Reduced empty → ∀ (factor : Expr K) (env : Env K),
    (below.terms e factor env).SumFree

namespace Expr

variable (hL : L.SumFree)

include hL

theorem sumFree_isConstantLike {p : Expr K → Env K → Run K Bool} (hp : ∀ e env, (p e env).SumFree)
    (e : Expr K) (env : Env K) : (e.isConstantLike L p env).SumFree :=
  exprIsConstantLike (R := sumFree) (q := p)
    { lookups := hL
      reliable := .inr fun _ _ => trivial
      bodies := fun _ _ _ => sumFree_allows
      params := fun _ _ => trivial
      below := fun e _ a _ _ _ _ => hp e a }
    e (sumFree_meets env) sumFree_allows

theorem sumFree_resolveConstant (e : Expr K) (env : Env K) : (e.resolveConstant L env).SumFree :=
  sumFree_if ((hL.number e env.spawn).bind fun _ => sumFree_pure _) (sumFree_pure e)

omit hL in
theorem sumFree_scale (op : ArithOp) (factor e : Expr K) : (scale op factor e).SumFree :=
  sumFree_registry fun _ => sumFree_ofExcept (Plain.simplify _ _)

theorem sumFree_constantTerm (e factor : Expr K) (env : Env K) :
    (do return [Term.constant (← scale .mul factor (← e.resolveConstant L env))] :
      Run K (List (Term K))).SumFree :=
  (sumFree_resolveConstant hL e env).bind fun _ =>
    (sumFree_scale _ _ _).bind fun _ => sumFree_pure _

/-- An expression that is no sum or product has no terms but a constant. -/
theorem sumFree_plainTerms (hbelow : below.SumFree) (e factor : Expr K) (env : Env K) :
    (do
      if ← e.isConstantLike L below.isConstant env then
        return [Term.constant (← scale .mul factor (← e.resolveConstant L env))]
      else Run.fail (.unclassifiedTerm e) : Run K (List (Term K))).SumFree :=
  (sumFree_isConstantLike hL hbelow.isConstant e env).bind fun _ =>
    sumFree_if (sumFree_constantTerm hL e factor env) (sumFree_plain rfl)

/-- A decision expression: the body is reduced when its terms are asked for. -/
theorem sumFree_dexprTerms (hbelow : below.SumFree) (s : String) (idx : Option (Expr K))
    (factor : Expr K) (env : Env K) : ((Expr.dexpr s idx).terms L below factor env).SumFree := by
  have henter : (Run.ofExcept (env.enter s)).SumFree := by
    unfold Env.enter
    split
    exacts [sumFree_fail nofun, sumFree_pure _]
  refine henter.bind fun inside => ?_
  have hyields : (unfoldDexpr L s idx inside).Yields fun n => n.Reduced empty := by
    intro _ _ _ _ h
    obtain ⟨d, -, hcleared⟩ := unfoldDexpr_cleared h
    exact ⟨trivial, hcleared.reduced⟩
  refine (hL.unfoldDexpr s idx inside).bindOf hyields fun body hbody => ?_
  refine (hbelow.isConstant body inside).bind fun _ =>
    sumFree_if ?_ (hbelow.terms hbody factor inside)
  exact (hL.number _ env.spawn).bind fun _ => (sumFree_scale _ _ _).bind fun _ => sumFree_pure _

/-- The terms of what substitution leaves, if bodies are treated so. -/
theorem sumFree_terms (hbelow : below.SumFree) (env : Env K) : ∀ (e factor : Expr K),
    e.Reduced empty → (e.terms L below factor env).SumFree
  | .var n base idx, factor, _ => by
    exact sumFree_pure _
  | .dexpr s idx, factor, _ => sumFree_dexprTerms hL hbelow s idx factor env
  | .rel op l r, factor, _ | .logic op es, factor, _ | .str s, factor, _
  | .record s vs, factor, _ => by
    exact sumFree_plain rfl
  | .neg e, factor, he => by
    refine (sumFree_isConstantLike hL hbelow.isConstant _ env).bind fun _ =>
      sumFree_if (sumFree_constantTerm hL _ factor env) ?_
    exact (sumFree_scale _ _ _).bind fun f => sumFree_terms hbelow env e f he
  | .arith op l r, factor, he => by
    have hconstant := fun e => sumFree_isConstantLike hL hbelow.isConstant e env
    have hl := fun f => sumFree_terms hbelow env l f he.1
    have hr := fun f => sumFree_terms hbelow env r f he.2
    refine (hconstant _).bind fun _ => sumFree_if (sumFree_constantTerm hL _ factor env) ?_
    cases op with
    | add => exact (hl factor).bind fun _ => (hr factor).bind fun _ => sumFree_pure _
    | sub =>
      refine (hl factor).bind fun _ => (sumFree_scale _ _ _).bind fun f => ?_
      exact (hr f).bind fun _ => sumFree_pure _
    | mul =>
      refine (hconstant l).bind fun _ =>
        sumFree_if ?_ ((hconstant r).bind fun _ => sumFree_if ?_ ?_)
      · exact (sumFree_resolveConstant hL l env).bind fun _ => (sumFree_scale _ _ _).bind hr
      · exact (sumFree_resolveConstant hL r env).bind fun _ => (sumFree_scale _ _ _).bind hl
      · exact sumFree_plain rfl
    | div =>
      refine (hconstant r).bind fun _ => sumFree_if ?_ (sumFree_plain rfl)
      exact (sumFree_resolveConstant hL r env).bind fun _ => (sumFree_scale _ _ _).bind hl
  | .num _, factor, _ | .name _, factor, _ | .param _ _, factor, _ | .field _ _, factor, _ => by
    exact sumFree_plainTerms hL hbelow _ factor env
  | .sum _ _ _, _, he | .ivar _ _, _, he | .item _ _, _, he => by simp only [Reduced] at he

end Expr

theorem sumFree_descent (hL : L.SumFree) : ∀ n, (descent L n).SumFree
  | 0 => ⟨fun _ _ => sumFree_fail nofun, fun _ _ _ => sumFree_fail nofun⟩
  | n + 1 =>
    have hbelow := sumFree_descent hL n
    ⟨fun e env => Expr.sumFree_isConstantLike hL hbelow.isConstant e env,
      fun he factor env => Expr.sumFree_terms hL hbelow env _ factor he⟩

theorem sumFree_affineTerms (e : Expr K) (env : Env K) : (affineTerms e env).SumFree := by
  simp only [affineTerms, Run.lookup, bind_assoc, pure_bind]
  refine sumFree_registry fun r => ?_
  have hL := sumFree_lookup (K := K) (r.size + familyDepth)
  refine (hL.substitute e env).bindOf (Expr.substitute_leaves e env) fun n hn => ?_
  exact sumFree_registry fun r' => Expr.sumFree_terms hL (sumFree_descent hL _) env n _ hn.reduced

theorem sumFree_linearize (e : Expr K) (env : Env K) : (linearize e env).SumFree :=
  (sumFree_affineTerms e env).bind fun ts => sumFree_registry fun r =>
    sumFree_ofExcept (Plain.ofTerms r ts)

/-- What substitution returns holds no sum, no entry of an indexed variable, no record lookup and no
name that is bound, at any depth. The same goes for the body of a decision expression, where its own
index is what is bound. So linearization never fails because of a sum that was not written out. -/
theorem substitution_flattens (env : Env K) (s : Store K) :
    (∀ {L : Lookup K} {e n : Expr K} {s'}, (e.substitute L env).Returns s n s' →
      n.Flattened fun m => env.isBound m = true) ∧
    (∀ {L : Lookup K} {symbol idx} {n : Expr K} {s'},
      (unfoldDexpr L symbol idx env).Returns s n s' →
      ∃ d, s.registry.dexprs.find? symbol = some d ∧ n.Flattened (d.index = some ·)) ∧
    ∀ {e f s'}, (linearize e env).Fails s f s' → ∀ sum, f.cause ≠ .sumNotFlattened sum := by
  refine ⟨fun h => (Expr.substitute_cleared h).flattened, fun h => ?_,
    fun h => sumFree_linearize _ env h⟩
  obtain ⟨d, hd, hcleared⟩ := Expr.unfoldDexpr_cleared h
  exact ⟨d, hd, hcleared.flattened⟩

end Terms

/-- Weights of two things, which are kept as records. -/
def weightModel : Run ℚ Unit := do
  let _ ← parseStatement false "range I = 1..2;"
  let _ ← parseStatement false "tuple Thing \x7b key int id; int weight; \x7d;"
  let _ ← parseStatement false "\x7bThing\x7d things = \x7b<1, 4>, <2, 5>\x7d;"
  let _ ← parseStatement false "dvar float x[I];"
  let _ ← parseStatement false "dexpr float carried[i in I] = sum(j in I : j <= i) i * x[j];"

/-- The weight of all things with what is carried beside each, taken as often as a name says that is
bound outside. -/
def carriedWeight : Expr ℚ :=
  .sum [.mk "i" (.named "I" none) none]
    (.arith .mul (.name "k") (.arith .add
      (.arith .mul (.field (.item "things" [.name "i"]) "weight") (.ivar "x" [.name "i"]))
      (.dexpr "carried" (some (.name "i"))))) none

/-- A place where the name is bound. -/
def threefold : Env ℚ := empty.bind "k" (.int 3)

theorem substitution_flattens_carriedWeight :
    ∃ (s s₁ s₂ s₃ : Store ℚ) (n b : Expr ℚ) (f : Failure ℚ),
      (carriedWeight.substitute (lookup 9) threefold).Returns s n s₁ ∧
      n.Flattened (threefold.isBound · = true) ∧
      (unfoldDexpr (lookup 9) "carried" (some (.num 2)) threefold).Returns s₁ b s₂ ∧
      b.Flattened (some "i" = some ·) ∧
      (linearize (.arith .mul carriedWeight carriedWeight) threefold).Fails s f s₃ ∧
      ∀ sum, f.cause ≠ .sumNotFlattened sum := by
  have hrun : ((do
      weightModel
      let _ ← carriedWeight.substitute (lookup 9) threefold
      let r ← registry
      let _ ← unfoldDexpr (lookup 9) "carried" (some (.num 2)) threefold
      return (r.dexprs.find? "carried").bind (·.index) : Run ℚ _).start {}).1.toOption =
        some (some "i") := by
    decide +kernel
  have hsquare : ((do
      weightModel
      let _ ← linearize (.arith .mul carriedWeight carriedWeight) threefold : Run ℚ Unit).start
        {}).1.toOption = none := by
    decide +kernel
  obtain ⟨_, h⟩ := returns_of_toOption hrun
  obtain ⟨_, s, hmodel, h⟩ := returns_bind.1 h
  obtain ⟨n, s₁, hn, h⟩ := returns_bind.1 h
  replace h := returns_registry_bind.1 h
  obtain ⟨b, s₂, hb, h⟩ := returns_bind.1 h
  obtain ⟨hindex, -⟩ := returns_pure.1 h
  obtain ⟨f, s₃, h⟩ := fails_of_toOption hsquare
  simp only [fails_bind, not_fails_pure, and_false, exists_false, or_false] at h
  obtain h | ⟨_, _, hmodel', hf⟩ := h
  · cases hmodel.symm.trans h
  obtain ⟨-, rfl⟩ := hmodel.unique hmodel'
  obtain ⟨d, hd, hbody⟩ := (substitution_flattens threefold s₁).2.1 hb
  rw [hd, Option.bind_some] at hindex
  rw [hindex] at hbody
  exact ⟨s, s₁, s₂, s₃, n, b, f, hn, (substitution_flattens threefold s).1 hn, hb, hbody, hf,
    (substitution_flattens threefold s).2.2 hf⟩

end LinearModel
