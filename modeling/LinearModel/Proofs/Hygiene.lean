import LinearModel.Proofs.Declared
import LinearModel.Proofs.Reconstruction

/-!
# Hygiene of decision expressions

The body of a decision expression is substituted in a scope of its own, where only its index is
bound. What is left of it is searched for terms among the bindings of the place that refers to it.
These are read in one case only: where the index of a further decision expression still holds a
name. If two places agree on such names, they give a decision expression the same linear form, or
the same failure. If they are unbound, that form is worth what the decision expression evaluates to.
-/
namespace LinearModel

open Run Progress Expr Env

variable {K : Type} {α β : Type} {x : Run K α} {below : Descent K}

/-! ## The names that substitution leaves -/

namespace Expr

mutual
/-- The names that are left in an expression when its own sums, variables and records have been
substituted. -/
def leftNames : Expr K → List String
  | .num _ | .str _ | .record _ _ | .var _ _ _ | .ivar _ _ | .item _ _ | .dexpr _ none => []
  | .name s => [s]
  | .param _ es | .logic _ es => allLeftNames es
  | .dexpr _ (some e) | .neg e | .field e _ => leftNames e
  | .arith _ l r | .rel _ l r => leftNames l ++ leftNames r
  | .sum its body _ => (leftNames body).filter fun n => its.all (·.symbol != n)

def allLeftNames : List (Expr K) → List String
  | [] => []
  | e :: es => leftNames e ++ allLeftNames es
end

mutual
/-- Those of the names left in an expression that stand in the index of a decision expression. -/
def indexNames : Expr K → List String
  | .num _ | .str _ | .record _ _ | .var _ _ _ | .ivar _ _ | .item _ _ | .name _
  | .dexpr _ none => []
  | .dexpr _ (some e) => leftNames e
  | .param _ es | .logic _ es => allIndexNames es
  | .neg e | .field e _ => indexNames e
  | .arith _ l r | .rel _ l r => indexNames l ++ indexNames r
  | .sum its body _ => (indexNames body).filter fun n => its.all (·.symbol != n)

/-- Those of the names left in expressions that stand in the index of a decision expression. -/
def allIndexNames : List (Expr K) → List String
  | [] => []
  | e :: es => indexNames e ++ allIndexNames es
end

/-- What an expression leaves when the bindings of an environment are substituted. -/
structure Leaves (env : Env K) (e e' : Expr K) : Prop where
  reduced : e'.Reduced empty
  left : ∀ n ∈ e'.leftNames, n ∈ e.leftNames ∧ env.get? n = none
  indices : ∀ n ∈ e'.indexNames, n ∈ e.indexNames ∧ env.get? n = none

/-- What expressions leave when the bindings of an environment are substituted. -/
structure AllLeave (env : Env K) (es es' : List (Expr K)) : Prop where
  reduced : AllReduced empty es'
  left : ∀ n ∈ allLeftNames es', n ∈ allLeftNames es ∧ env.get? n = none
  indices : ∀ n ∈ allIndexNames es', n ∈ allIndexNames es ∧ env.get? n = none

variable {env : Env K} {e e' : Expr K}

theorem Leaves.nothing (hreduced : e'.Reduced empty) (hleft : e'.leftNames = [])
    (hindices : e'.indexNames = []) : Leaves env e e' :=
  ⟨hreduced, by simp [hleft], by simp [hindices]⟩

theorem isLiteral_of_ofValue [Scalar K] {v : Value K} (h : ofValue v = .ok e) :
    e.isLiteral = true := by
  cases v with
  | int i =>
    simp only [ofValue, Except.map] at h
    split at h
    · cases h
    · cases h
      rfl
  | record s vs => cases h; rfl
  | str s => cases h; rfl
  | bool b => cases h; rfl
  | real x => cases h; rfl
  | _ => cases h

/-- A literal leaves no names. -/
theorem Leaves.literal [Scalar K] (h : e'.isLiteral = true) : Leaves env e e' := by
  cases e' with
  | num | str | record =>
    refine nothing ?_ ?_ ?_
    · simp only [Reduced]
    · simp only [leftNames]
    · simp only [indexNames]
  | _ => cases h

theorem Leaves.arith (op : ArithOp) {l l' r r' : Expr K} (hl : Leaves env l l')
    (hr : Leaves env r r') : Leaves env (.arith op l r) (.arith op l' r') where
  reduced := by
    exact ⟨hl.reduced, hr.reduced⟩
  left n hn := by
    simp only [leftNames, List.mem_append] at hn ⊢
    exact hn.elim (fun h => (hl.left n h).imp_left .inl) fun h => (hr.left n h).imp_left .inr
  indices n hn := by
    simp only [indexNames, List.mem_append] at hn ⊢
    exact hn.elim (fun h => (hl.indices n h).imp_left .inl) fun h => (hr.indices n h).imp_left .inr

theorem Leaves.rel (op : RelOp) {l l' r r' : Expr K} (hl : Leaves env l l')
    (hr : Leaves env r r') : Leaves env (.rel op l r) (.rel op l' r') := by
  obtain ⟨hreduced, hleft, hindices⟩ := hl.arith .add hr
  exact ⟨by simpa only [Reduced] using hreduced, by simpa only [leftNames] using hleft,
    by simpa only [indexNames] using hindices⟩

theorem Leaves.cons {es es' : List (Expr K)} (he : Leaves env e e') (hes : AllLeave env es es') :
    AllLeave env (e :: es) (e' :: es') where
  reduced := by
    exact ⟨he.reduced, hes.reduced⟩
  left n hn := by
    simp only [allLeftNames, List.mem_append] at hn ⊢
    exact hn.elim (fun h => (he.left n h).imp_left .inl) fun h => (hes.left n h).imp_left .inr
  indices n hn := by
    simp only [allIndexNames, List.mem_append] at hn ⊢
    exact hn.elim (fun h => (he.indices n h).imp_left .inl)
      fun h => (hes.indices n h).imp_left .inr

/-- A chain leaves what its parts leave. -/
theorem Leaves.chain [Scalar K] {es : List (Expr K)} (h : ∀ u ∈ es, Leaves env e u) :
    Leaves env e (chain es) := by
  refine chain_of (nothing ?_ ?_ ?_) (fun l r hl hr => ⟨?_, fun n hn => ?_, fun n hn => ?_⟩) h
  · simp only [zero, Reduced]
  · simp only [zero, leftNames]
  · simp only [zero, indexNames]
  · simp only [Reduced]
    exact ⟨hl.reduced, hr.reduced⟩
  · simp only [leftNames, List.mem_append] at hn
    exact hn.elim (hl.left n) (hr.left n)
  · simp only [indexNames, List.mem_append] at hn
    exact hn.elim (hl.indices n) (hr.indices n)

/-- The body of a sum is substituted where the iterators are bound too. -/
theorem Leaves.sum {inner : Env K} {its : List (Iter K)} {c : Option (Expr K)}
    (hinner : ∀ n, inner.get? n = none → env.get? n = none ∧ ∀ it ∈ its, it.symbol ≠ n)
    (h : Leaves inner e e') : Leaves env (.sum its e c) e' where
  reduced := h.reduced
  left n hn := by
    obtain ⟨hmem, hnone⟩ := h.left n hn
    simpa [leftNames, hmem, and_comm] using hinner n hnone
  indices n hn := by
    obtain ⟨hmem, hnone⟩ := h.indices n hn
    simpa [indexNames, hmem, and_comm] using hinner n hnone

end Expr

/-! ## Computations that run alike -/

/-- From every registry with an invariant, two computations take the same course. They keep the
invariant, and what they return has a property. -/
structure Run.Alike (Inv : Registry K → Prop) (x y : Run K α) (P : α → Prop) : Prop where
  start : ∀ ⦃s : Store K⦄, Inv s.registry → x.start s = y.start s
  leads : x.Leads Inv Inv P

namespace Run.Alike

variable {Inv : Registry K → Prop} {P : α → Prop} {Q : β → Prop}

theorem of_leads (h : x.Leads Inv Inv P) : x.Alike Inv x P := ⟨fun _ _ => rfl, h⟩

theorem failure (c : Cause K) : (fail c : Run K α).Alike Inv (fail c) P := of_leads leads_fail

theorem bind {x y : Run K α} {f g : α → Run K β} (h : x.Alike Inv y P)
    (hfg : ∀ a, P a → (f a).Alike Inv (g a) Q) : (x >>= f).Alike Inv (y >>= g) Q where
  start s hs := by
    rw [start_bind, start_bind, ← h.start hs]
    rcases hx : x.start s with ⟨_ | a, s'⟩
    · rfl
    · obtain ⟨hs', ha⟩ := h.leads hs hx
      exact (hfg a ha).start hs'
  leads := h.leads.bind fun a ha => (hfg a ha).leads

theorem ite {c : Prop} [Decidable c] {x y x' y' : Run K α} (hx : x.Alike Inv x' P)
    (hy : y.Alike Inv y' P) : (if c then x else y).Alike Inv (if c then x' else y') P := by
  split
  exacts [hx, hy]

end Run.Alike

/-- A computation that keeps the declarations runs like itself. -/
theorem Run.Advances.alike {r : Registry K} (hx : x.Advances declared) :
    x.Alike (declared.later r) x fun _ => True := .of_leads hx.keeps.leads

/-! ## Environments that agree on some names -/

/-- Two environments that differ at most in the bindings of names outside a set. -/
structure Env.Agree (F : String → Prop) (a b : Env K) : Prop where
  spawn : a.spawn = b.spawn
  names : ∀ n, F n → a.get? n = b.get? n

variable {F : String → Prop} {a b : Env K}

namespace Env.Agree

theorem values (h : a.Agree F b) : a.values = b.values := by
  change a.spawn.values = b.spawn.values
  rw [h.spawn]

/-- Looking into a decision expression does not tell agreeing environments apart. -/
theorem enter (h : a.Agree F b) (s : String) : (∃ c, a.enter s = .error c ∧ b.enter s = .error c) ∨
      ∃ a' b', a.enter s = .ok a' ∧ b.enter s = .ok b' ∧ a'.Agree F b' := by
  have hactive : a.active = b.active := by
    change a.spawn.active = b.spawn.active
    rw [h.spawn]
  simp only [Env.enter, hactive]
  split
  · exact .inl ⟨_, rfl, rfl⟩
  · refine .inr ⟨_, _, rfl, rfl, ?_, h.names⟩
    simp only [Env.spawn, h.values]

end Env.Agree

/-- Agreeing environments look into a decision expression alike. -/
theorem Env.Agree.enter_alike (hab : a.Agree F b) (s : String) {f g : Env K → Run K α}
    {P : α → Prop}
    {r : Registry K} (h : ∀ {a' b'}, a'.Agree F b' → (f a').Alike (declared.later r) (g b') P) :
    (Run.ofExcept (a.enter s) >>= f).Alike (declared.later r)
      (Run.ofExcept (b.enter s) >>= g) P := by
  obtain ⟨c, ha, hb⟩ | ⟨a', b', ha, hb, hab'⟩ := hab.enter s
  · simp only [ha, hb]
    exact (Run.Alike.failure (P := fun _ => False) c).bind fun _ h => h.elim
  · simp only [ha, hb, Run.ofExcept, pure_bind]
    exact h hab'

/-! ## Substitution -/

variable [Scalar K] {L : Lookup K}

namespace Expr

mutual
/-- Substitution leaves names only where they are not bound. -/
theorem substitute_leaves : ∀ (e : Expr K) (env : Env K), (e.substitute L env).Yields (Leaves env e)
  | .num x, env | .str s, env | .record s vs, env | .var n b idx, env | .dexpr s none, env => by
    exact leads_pure (.nothing (by simp only [Reduced]) (by simp only [leftNames])
      (by simp only [indexNames]))
  | .name s, env => by
    simp only [substitute]
    split
    · exact leads_ofExcept fun e he => .literal (isLiteral_of_ofValue he)
    · rename_i hs
      refine leads_pure ⟨by simp [Reduced, empty, Env.get?], ?_, by simp [indexNames]⟩
      simpa [leftNames] using hs
  | .param s idx, env => by
    refine (substituteAll_leave idx env).bind fun idx' h => leads_pure ⟨?_, ?_, ?_⟩
    · simpa only [Reduced] using h.reduced
    · simpa only [leftNames] using h.left
    · simpa only [indexNames] using h.indices
  | .logic op es, env => by
    refine (substituteAll_leave es env).bind fun es' h => leads_pure ⟨?_, ?_, ?_⟩
    · simpa only [Reduced] using h.reduced
    · simpa only [leftNames] using h.left
    · simpa only [indexNames] using h.indices
  | .ivar s idx, env => by
    refine (yields_any _).bind fun p _ => leads_pure (.nothing ?_ ?_ ?_)
    · simp only [Reduced]
    · simp only [leftNames]
    · simp only [indexNames]
  | .dexpr s (some e), env => by
    refine (substitute_leaves e env).bind fun e' h => leads_pure ⟨?_, ?_, ?_⟩
    · simpa only [Reduced] using h.reduced
    · simpa only [leftNames] using h.left
    · simpa only [indexNames] using h.left
  | .arith op l r, env => by
    refine (substitute_leaves l env).bind fun l' hl => ?_
    exact (substitute_leaves r env).bind fun r' hr => leads_pure (hl.arith op hr)
  | .rel op l r, env => by
    refine (substitute_leaves l env).bind fun l' hl => ?_
    exact (substitute_leaves r env).bind fun r' hr => leads_pure (hl.rel op hr)
  | .neg e, env => by
    refine (substitute_leaves e env).bind fun e' h => leads_pure ⟨?_, ?_, ?_⟩
    · simpa only [Reduced] using h.reduced
    · simpa only [leftNames] using h.left
    · simpa only [indexNames] using h.indices
  | .field e f, env => by
    refine (substitute_leaves e env).bind fun e' h => ?_
    split
    · exact (yields_any _).bind fun v _ =>
        leads_ofExcept fun e he => .literal (isLiteral_of_ofValue he)
    · refine leads_pure ⟨?_, ?_, ?_⟩
      · simpa only [Reduced] using h.reduced
      · simpa only [leftNames] using h.left
      · simpa only [indexNames] using h.indices
  | .item set key, env => by
    refine (yields_any _).bind fun key' _ => (yields_any _).bind fun v _ => ?_
    split
    · refine leads_pure (.nothing ?_ ?_ ?_)
      · simp only [Reduced]
      · simp only [leftNames]
      · simp only [indexNames]
    · exact leads_fail
  | .sum its body none, env => by
    refine (enumerate_yields its none env fun inner hinner => ?_).bind fun es hes =>
      leads_pure (.chain hes)
    exact (substitute_leaves body inner).mono fun e' he' => he'.sum hinner
  | .sum its body (some c), env => by
    refine (enumerate_yields its (some c) env fun inner hinner => ?_).bind fun es hes =>
      leads_pure (.chain hes)
    exact (substitute_leaves body inner).mono fun e' he' => he'.sum hinner

theorem substituteAll_leave : ∀ (es : List (Expr K)) (env : Env K),
    (substituteAll L es env).Yields (AllLeave env es)
  | [], env => by
    exact leads_pure ⟨by simp only [AllReduced], by simp [allLeftNames], by simp [allIndexNames]⟩
  | e :: es, env => by
    refine (substitute_leaves e env).bind fun e' he => ?_
    exact (substituteAll_leave es env).bind fun es' hes => leads_pure (he.cons hes)
end

end Expr

/-! ## Evaluation -/

namespace Expr

/-- The scope of a body depends on the place that refers to it only through the index. -/
theorem dexprScope_congr (h : a.spawn = b.spawn) (s : String)
    {v w : Option (Env K → Run K (Value K))}
    (hvw : Option.Rel (fun v w => v a = w b) v w) : dexprScope s v a = dexprScope s w b := by
  refine bind_congr fun r => ?_
  rcases r.dexprs.find? s with _ | ⟨symbol, type, body, _ | i, domain⟩
  · rfl
  · cases hvw with
    | none => simp only [h]
    | some => rfl
  · cases hvw with
    | none => rfl
    | some hvw => simp only [h, hvw]

mutual
/-- A reduced expression has the same value in environments that agree on the names in it. -/
theorem value_agree : ∀ (e : Expr K) {a b : Env K}, a.Agree F b → e.Reduced empty →
    (∀ n ∈ e.leftNames, F n) → e.value L a = e.value L b
  | .num _, _, _, _, _, _ | .str _, _, _, _, _, _ | .record _ _, _, _, _, _, _ => by
    simp only [value]
  | .name s, a, b, hab, _, hF => by
    simp only [value, hab.names s (hF s (by simp [leftNames]))]
  | .param s es, a, b, hab, hr, hF => by
    simp only [value, elements_agree es hab hr hF]
  | .var n _ _, a, b, hab, _, _ => by
    simp only [value, variableValue, hab.values]
  | .dexpr s none, a, b, hab, _, _ => by
    simp only [value]
    obtain ⟨c, ha, hb⟩ | ⟨a', b', ha, hb, hab'⟩ := hab.enter s
    · rw [ha, hb]
    · rw [ha, hb]
      simp only [Run.ofExcept, pure_bind, dexprScope_congr hab'.spawn s .none]
  | .dexpr s (some e), a, b, hab, hr, hF => by
    simp only [value]
    obtain ⟨c, ha, hb⟩ | ⟨a', b', ha, hb, hab'⟩ := hab.enter s
    · rw [ha, hb]
    · rw [ha, hb]
      simp only [Run.ofExcept, pure_bind,
        dexprScope_congr hab'.spawn s (.some (value_agree e hab' hr hF))]
  | .arith op l r, a, b, hab, hr, hF | .rel op l r, a, b, hab, hr, hF => by
    simp only [Reduced, leftNames, List.forall_mem_append] at hr hF
    simp only [value, value_agree l hab hr.1 hF.1, value_agree r hab hr.2 hF.2]
  | .neg e, a, b, hab, hr, hF | .field e f, a, b, hab, hr, hF => by
    simp only [value, value_agree e hab hr hF]
  | .logic .not es, a, b, hab, hr, hF => by
    simp only [value, firstTruth_agree es hab hr hF]
  | .logic .and es, a, b, hab, hr, hF => by
    simp only [value, allTrue_agree es hab hr hF]
  | .logic .or es, a, b, hab, hr, hF => by
    simp only [value, anyTrue_agree es hab hr hF]
  | .ivar _ _, _, _, _, hr, _ | .item _ _, _, _, _, hr, _ | .sum _ _ _, _, _, _, hr, _ => by
    simp only [Reduced] at hr

theorem elements_agree : ∀ (es : List (Expr K)) {a b : Env K}, a.Agree F b →
    AllReduced empty es → (∀ n ∈ allLeftNames es, F n) → elements L es a = elements L es b
  | [], _, _, _, _, _ => by simp only [elements]
  | e :: es, a, b, hab, hr, hF => by
    simp only [AllReduced, allLeftNames, List.forall_mem_append] at hr hF
    simp only [elements, value_agree e hab hr.1 hF.1, elements_agree es hab hr.2 hF.2]

theorem firstTruth_agree : ∀ (es : List (Expr K)) {a b : Env K}, a.Agree F b →
    AllReduced empty es → (∀ n ∈ allLeftNames es, F n) → firstTruth L es a = firstTruth L es b
  | [], _, _, _, _, _ => by simp only [firstTruth]
  | e :: es, a, b, hab, hr, hF => by
    simp only [AllReduced, allLeftNames, List.forall_mem_append] at hr hF
    simp only [firstTruth, value_agree e hab hr.1 hF.1]

theorem allTrue_agree : ∀ (es : List (Expr K)) {a b : Env K}, a.Agree F b →
    AllReduced empty es → (∀ n ∈ allLeftNames es, F n) → allTrue L es a = allTrue L es b
  | [], _, _, _, _, _ => by simp only [allTrue]
  | e :: es, a, b, hab, hr, hF => by
    simp only [AllReduced, allLeftNames, List.forall_mem_append] at hr hF
    simp only [allTrue, value_agree e hab hr.1 hF.1, allTrue_agree es hab hr.2 hF.2]

theorem anyTrue_agree : ∀ (es : List (Expr K)) {a b : Env K}, a.Agree F b →
    AllReduced empty es → (∀ n ∈ allLeftNames es, F n) → anyTrue L es a = anyTrue L es b
  | [], _, _, _, _, _ => by simp only [anyTrue]
  | e :: es, a, b, hab, hr, hF => by
    simp only [AllReduced, allLeftNames, List.forall_mem_append] at hr hF
    simp only [anyTrue, value_agree e hab hr.1 hF.1, anyTrue_agree es hab hr.2 hF.2]
end

end Expr

/-! ## Terms -/

/-- The names that bodies of declared decision expressions leave in the indices of others. -/
def Registry.exposedNames (r : Registry K) : List String :=
  r.dexprs.toList.flatMap fun d => d.2.body.indexNames.filter fun n => d.2.index != some n

/-- A substituted expression with only some names left in the indices of decision expressions. -/
structure Expr.Sealed (F : String → Prop) (e : Expr K) : Prop where
  reduced : e.Reduced empty
  indices : ∀ n ∈ e.indexNames, F n

variable {r : Registry K} {m : Nat} {idx : Option (Expr K)} {symbol : String}

/-- A body is looked into where its own index is bound. -/
theorem returns_dexprScope {v : Option (Env K → Run K (Value K))} {s s' : Store K}
    {p : DecisionExpression K × Env K} (h : (dexprScope symbol v a).Returns s p s') :
    s.registry.dexprs.find? symbol = some p.1 ∧ ∀ n, p.2.get? n = none → p.1.index ≠ some n := by
  replace h := returns_registry_bind.1 h
  rcases hd : s.registry.dexprs.find? symbol with _ | ⟨_, type, body, _ | i, domain⟩
  · simp [hd] at h
  · cases v with
    | none =>
      simp only [hd, returns_pure] at h
      obtain ⟨rfl, -⟩ := h
      exact ⟨rfl, by simp⟩
    | some v => simp [hd] at h
  · cases v with
    | none => simp [hd] at h
    | some v =>
      simp only [hd] at h
      obtain ⟨x, _, -, h⟩ := returns_bind.1 h
      obtain ⟨rfl, -⟩ := returns_pure.1 h
      refine ⟨rfl, fun n hn hi => ?_⟩
      obtain rfl : i = n := by simpa using hi
      simp at hn

/-- Where two places agree on the names that are exposed, a body is unfolded alike. -/
theorem unfoldDexpr_alike (hF : ∀ n ∈ r.exposedNames, F n) (hab : a.Agree F b)
    (he : (dexpr symbol idx).Sealed F) :
    (unfoldDexpr (lookup m) symbol idx a).Alike (declared.later r)
      (unfoldDexpr (lookup m) symbol idx b) (Sealed F) where
  start s _ := by
    obtain ⟨hreduced, hindices⟩ := he
    have hidx : Option.Rel (fun v w => v a = w b)
        (idx.map fun e env => e.value (lookup m) env)
        (idx.map fun e env => e.value (lookup m) env) := by
      cases idx with
      | none => exact .none
      | some e =>
        exact .some (value_agree e hab hreduced hindices)
    simp only [unfoldDexpr, dexprScope_congr hab.spawn symbol hidx]
  leads s e s' hs h := by
    have hadvances := Simulation.unfoldDexpr (declared_absorbs.lookups m) trivial symbol idx
      (rfl : a = a)
    refine ⟨hadvances.keeps hs h, ?_⟩
    obtain ⟨⟨d, inner⟩, s₁, hscope, hbody⟩ := returns_bind.1 h
    obtain ⟨hd, hinner⟩ := returns_dexprScope hscope
    obtain ⟨-, hleaves⟩ := substitute_leaves d.body inner trivial hbody
    refine ⟨hleaves.reduced, fun n hn => hF n ?_⟩
    obtain ⟨hmem, hnone⟩ := hleaves.indices n hn
    have hd' : (symbol, d) ∈ r.dexprs.toList := Table.mem_of_find? (hs.2 ▸ hd)
    exact List.mem_flatMap.2 ⟨_, hd', List.mem_filter.2 ⟨hmem, by simpa using hinner n hnone⟩⟩

/-- A treatment of bodies that does not tell agreeing environments apart. -/
structure Descent.IsHygienic (F : String → Prop) (r : Registry K) (below : Descent K) : Prop where
  isConstant : ∀ {e a b}, e.Sealed F → a.Agree F b →
    (below.isConstant e a).Alike (declared.later r) (below.isConstant e b) fun _ => True
  terms : ∀ {e a b} factor, e.Sealed F → a.Agree F b →
    (below.terms e factor a).Alike (declared.later r) (below.terms e factor b) fun _ => True

namespace Expr

mutual
theorem isConstantLike_alike (hF : ∀ n ∈ r.exposedNames, F n)
    (hbelow : below.IsHygienic F r) : ∀ (e : Expr K) {a b : Env K}, e.Sealed F → a.Agree F b →
    (e.isConstantLike (lookup m) below.isConstant a).Alike (declared.later r)
      (e.isConstantLike (lookup m) below.isConstant b) fun _ => True
  | .num _, _, _, _, _ | .str _, _, _, _, _ | .record _ _, _, _, _, _ | .name _, _, _, _, _
  | .var _ _ _, _, _, _, _ => by
    exact .of_leads (leads_pure trivial)
  | .dexpr s idx, a, b, he, hab => by
    refine hab.enter_alike s fun hinside => ?_
    exact (unfoldDexpr_alike hF hinside he).bind fun body hbody => hbelow.isConstant hbody hinside
  | .param _ es, a, b, ⟨hr, hi⟩, hab | .logic _ es, a, b, ⟨hr, hi⟩, hab => by
    exact areConstantLike_alike hF hbelow es hr hi hab
  | .arith _ l r, a, b, ⟨hr, hi⟩, hab | .rel _ l r, a, b, ⟨hr, hi⟩, hab => by
    simp only [Reduced, indexNames, List.forall_mem_append] at hr hi
    refine (isConstantLike_alike hF hbelow l ⟨hr.1, hi.1⟩ hab).bind fun _ _ => ?_
    exact (isConstantLike_alike hF hbelow r ⟨hr.2, hi.2⟩ hab).bind fun _ _ =>
      .of_leads (leads_pure trivial)
  | .neg e, a, b, ⟨hr, hi⟩, hab | .field e _, a, b, ⟨hr, hi⟩, hab => by
    exact isConstantLike_alike hF hbelow e ⟨hr, hi⟩ hab
  | .ivar _ _, _, _, ⟨hr, _⟩, _ | .item _ _, _, _, ⟨hr, _⟩, _ | .sum _ _ _, _, _, ⟨hr, _⟩, _ => by
    simp only [Reduced] at hr

theorem areConstantLike_alike (hF : ∀ n ∈ r.exposedNames, F n)
    (hbelow : below.IsHygienic F r) : ∀ (es : List (Expr K)) {a b : Env K}, AllReduced empty es →
    (∀ n ∈ allIndexNames es, F n) → a.Agree F b →
    (areConstantLike (lookup m) below.isConstant es a).Alike (declared.later r)
      (areConstantLike (lookup m) below.isConstant es b) fun _ => True
  | [], _, _, _, _, _ => by
    exact .of_leads (leads_pure trivial)
  | e :: es, a, b, hr, hi, hab => by
    simp only [AllReduced, allIndexNames, List.forall_mem_append] at hr hi
    refine (isConstantLike_alike hF hbelow e ⟨hr.1, hi.1⟩ hab).bind fun _ _ => ?_
    exact (areConstantLike_alike hF hbelow es hr.2 hi.2 hab).bind fun _ _ =>
      .of_leads (leads_pure trivial)
end

theorem scale_alike (op : ArithOp) (factor e : Expr K) :
    (scale op factor e).Alike (declared.later r) (scale op factor e) fun _ => True :=
  (advances_scale op factor e).alike

theorem number_spawn_alike (e : Expr K) (hab : a.Agree F b) :
    (e.number (lookup m) a.spawn).Alike (declared.later r) (e.number (lookup m) b.spawn)
      fun _ => True := by
  rw [hab.spawn]
  exact Run.Advances.alike (Simulation.exprNumber (declared_absorbs.lookups m) e rfl)

theorem resolveConstant_alike (e : Expr K) (hab : a.Agree F b) :
    (e.resolveConstant (lookup m) a).Alike (declared.later r)
      (e.resolveConstant (lookup m) b) fun _ => True := by
  refine .ite ?_ (.of_leads (leads_pure trivial))
  exact (number_spawn_alike e hab).bind fun _ _ => .of_leads (leads_pure trivial)

theorem constantTerm_alike (e factor : Expr K) (hab : a.Agree F b) :
    (do return [.constant (← scale .mul factor (← e.resolveConstant (lookup m) a))] :
      Run K (List (Term K))).Alike (declared.later r)
    (do return [.constant (← scale .mul factor (← e.resolveConstant (lookup m) b))])
      fun _ => True :=
  (resolveConstant_alike e hab).bind fun _ _ => (scale_alike _ _ _).bind fun _ _ =>
    .of_leads (leads_pure trivial)

/-- The terms of a sealed expression are found alike by agreeing environments. -/
theorem terms_alike (hF : ∀ n ∈ r.exposedNames, F n)
    (hbelow : below.IsHygienic F r) : ∀ (e factor : Expr K), e.Sealed F → a.Agree F b →
    (e.terms (lookup m) below factor a).Alike (declared.later r)
      (e.terms (lookup m) below factor b) fun _ => True
  | .var n base idx, factor, _, _ => by
    exact .of_leads (leads_pure trivial)
  | .dexpr s idx, factor, he, hab => by
    refine hab.enter_alike s fun hinside => ?_
    refine (unfoldDexpr_alike hF hinside he).bind fun body hbody => ?_
    refine (hbelow.isConstant hbody hinside).bind fun _ _ =>
      .ite ?_ (hbelow.terms factor hbody hinside)
    refine (number_spawn_alike _ hab).bind fun _ _ => (scale_alike _ _ _).bind fun _ _ => ?_
    exact .of_leads (leads_pure trivial)
  | .rel op l r, factor, _, _ | .logic op es, factor, _, _ | .str s, factor, _, _
  | .record s vs, factor, _, _ => by
    exact .failure _
  | .neg e, factor, he, hab => by
    have hneg := isConstantLike_alike (m := m) hF hbelow (.neg e) he hab
    obtain ⟨hr, hi⟩ := he
    refine hneg.bind fun _ _ => .ite (constantTerm_alike _ factor hab) ?_
    exact (scale_alike _ _ _).bind fun _ _ => terms_alike hF hbelow e _ ⟨hr, hi⟩ hab
  | .arith op l r, factor, he, hab => by
    have hboth := isConstantLike_alike (m := m) hF hbelow (.arith op l r) he hab
    obtain ⟨hr, hi⟩ := he
    simp only [Reduced, indexNames, List.forall_mem_append] at hr hi
    have hl := isConstantLike_alike (m := m) hF hbelow l ⟨hr.1, hi.1⟩ hab
    have hr' := isConstantLike_alike (m := m) hF hbelow r ⟨hr.2, hi.2⟩ hab
    have htl := fun factor => terms_alike hF hbelow l factor ⟨hr.1, hi.1⟩ hab
    have htr := fun factor => terms_alike hF hbelow r factor ⟨hr.2, hi.2⟩ hab
    refine hboth.bind fun _ _ => .ite (constantTerm_alike _ factor hab) ?_
    cases op with
    | add =>
      exact (htl factor).bind fun _ _ => (htr factor).bind fun _ _ => .of_leads (leads_pure trivial)
    | sub =>
      refine (htl factor).bind fun _ _ => (scale_alike _ _ _).bind fun factor' _ => ?_
      exact (htr factor').bind fun _ _ => .of_leads (leads_pure trivial)
    | mul =>
      refine hl.bind fun _ _ => .ite ?_ (hr'.bind fun _ _ => .ite ?_ (.failure _))
      · exact (resolveConstant_alike l hab).bind fun _ _ =>
          (scale_alike _ _ _).bind fun _ _ => htr _
      · exact (resolveConstant_alike r hab).bind fun _ _ =>
          (scale_alike _ _ _).bind fun _ _ => htl _
    | div =>
      refine hr'.bind fun _ _ => .ite ?_ (.failure _)
      exact (resolveConstant_alike r hab).bind fun _ _ => (scale_alike _ _ _).bind fun _ _ => htl _
  | .num x, factor, he, hab | .name s, factor, he, hab | .param s idx, factor, he, hab
  | .field e f, factor, he, hab => by
    exact (isConstantLike_alike hF hbelow _ he hab).bind fun _ _ =>
      .ite (constantTerm_alike _ factor hab) (.failure _)
  | .ivar _ _, _, ⟨hr, _⟩, _ | .item _ _, _, ⟨hr, _⟩, _ | .sum _ _ _, _, ⟨hr, _⟩, _ => by
    simp only [Reduced] at hr

end Expr

theorem descent_isHygienic (hF : ∀ n ∈ r.exposedNames, F n) :
    ∀ n, (descent (lookup m) n).IsHygienic F r
  | 0 => ⟨fun _ _ => .failure _, fun _ _ _ => .failure _⟩
  | n + 1 =>
    have hbelow := descent_isHygienic hF n
    ⟨fun he hab => isConstantLike_alike hF hbelow _ he hab,
      fun factor he hab => terms_alike hF hbelow _ factor he hab⟩

/-! ## Linear forms -/

namespace Expr

variable {symbol : String} {idx : Option (Expr K)}

/-- A reference by a literal is as it was after substitution. -/
theorem substitute_dexpr_literal (hidx : ∀ e ∈ idx, e.isLiteral = true) (env : Env K) :
    (dexpr symbol idx).substitute L env = pure (.dexpr symbol idx) := by
  rcases idx with _ | e
  · simp only [substitute]
  · have he := hidx e rfl
    cases e with
    | num | str | record => simp only [substitute, pure_bind]
    | _ => cases he

theorem leaves_dexpr_literal (hidx : ∀ e ∈ idx, e.isLiteral = true) (env : Env K) :
    Leaves env (.dexpr symbol none) (.dexpr symbol idx) := by
  rcases idx with _ | e
  · exact .nothing (by simp only [Reduced]) (by simp only [leftNames]) (by simp only [indexNames])
  · have hleaves : Leaves env (.dexpr symbol none) e := .literal (hidx e rfl)
    obtain ⟨hreduced, hleft, -⟩ := hleaves
    refine ⟨by simpa only [Reduced] using hreduced, by simpa only [leftNames] using hleft, ?_⟩
    simpa only [indexNames, leftNames] using hleft

end Expr

/-- Where two places agree on the names that are exposed, a reference by a literal has the same
terms. -/
theorem affineTerms_alike (hidx : ∀ e ∈ idx, e.isLiteral = true) (hF : ∀ n ∈ r.exposedNames, F n)
    (hab : a.Agree F b) : (affineTerms (.dexpr symbol idx) a).Alike (declared.later r)
      (affineTerms (.dexpr symbol idx) b) fun _ => True := by
  have hleaves : Leaves empty (.dexpr symbol none) (.dexpr symbol idx) :=
    leaves_dexpr_literal hidx empty
  have hsealed : (dexpr symbol idx).Sealed F :=
    ⟨hleaves.reduced, fun n hn => by simpa [indexNames] using (hleaves.indices n hn).1⟩
  simp only [affineTerms, Run.lookup, bind_assoc, pure_bind, substitute_dexpr_literal hidx]
  refine Run.Alike.bind (.of_leads leads_registry) fun r₁ _ => ?_
  refine Run.Alike.bind (.of_leads leads_registry) fun r₂ _ => ?_
  exact terms_alike hF (descent_isHygienic hF _) _ _ hsealed hab

theorem linearize_alike (hidx : ∀ e ∈ idx, e.isLiteral = true) (hF : ∀ n ∈ r.exposedNames, F n)
    (hab : a.Agree F b) : (linearize (.dexpr symbol idx) a).Alike (declared.later r)
      (linearize (.dexpr symbol idx) b) fun _ => True :=
  (affineTerms_alike hidx hF hab).bind fun _ _ =>
    (advances_registry fun _ => advances_ofExcept _).alike

/-- A reference by a literal evaluates without bindings as it does with them. -/
theorem Expr.evaluate_dexpr_literal (hidx : ∀ e ∈ idx, e.isLiteral = true) (a : Env K)
    (values : Table String (Value K)) : (dexpr symbol idx).evaluate (a.under values) =
      (dexpr symbol idx).evaluate (a.spawn.under values) := by
  have hleaves : Leaves empty (.dexpr symbol none) (.dexpr symbol idx) :=
    leaves_dexpr_literal hidx empty
  have hagree : (a.under values).Agree (fun _ => False) (a.spawn.under values) :=
    ⟨rfl, fun _ h => h.elim⟩
  simp only [evaluate, number]
  refine bind_congr fun L => ?_
  rw [value_agree _ hagree hleaves.reduced fun n hn => by
    simpa [leftNames] using (hleaves.left n hn).1]

/-- A decision expression is referred to without an index or by a literal. In any two places that
assign the same values, look into the same decision expressions and bind the exposed names alike, it
has the same linear form, or fails alike, whatever else they bind. With exact numbers, and where
the exposed names are not bound, the form evaluates to what the decision expression does, less the
coefficients that were dropped times the values of their variables. -/
theorem linearize_dexpr_hygienic {symbol : String} :
    (∀ {K : Type} [Scalar K] {s : Store K} {idx : Option (Expr K)} {a b : Env K},
      (∀ e ∈ idx, e.isLiteral = true) → a.values = b.values → a.active = b.active →
      (∀ n ∈ s.registry.exposedNames, a.get? n = b.get? n) →
      (linearize (.dexpr symbol idx) a).start s = (linearize (.dexpr symbol idx) b).start s) ∧
    ∀ {s s₁ s₂ : Store ℚ} {idx : Option (Expr ℚ)} {a : Env ℚ} {σ : Assignment}
      {f : LinearForm ℚ} {v : ℚ}, s.registry.Reached → (∀ e ∈ idx, e.isLiteral = true) →
      (∀ n ∈ s.registry.exposedNames, a.get? n = none) →
      (∀ n u, a.values.find? n = some u → σ.values.find? n = some u) →
      (linearize (.dexpr symbol idx) a).Returns s f s₁ →
      ((dexpr symbol idx).evaluate (a.under σ.values)).Returns s₁ v s₂ →
      ∃ cs, (collected (.dexpr symbol idx) a).Returns s cs s₁ ∧
        (f.evaluate σ.values).Gives s₂.registry
          (v - LinearForm.weigh σ (LinearForm.droppedAmong cs)) := by
  constructor
  · intro K _ s idx a b hidx hvalues hactive hexposed
    have hagree : a.Agree (fun n => a.get? n = b.get? n) b :=
      ⟨by simp only [spawn, hvalues, hactive], fun _ h => h⟩
    exact (linearize_alike hidx hexposed hagree).start (declared.refl s.registry)
  · intro s s₁ s₂ idx a σ f v hs hidx hexposed hvalues hf hv
    have hagree : a.Agree (fun n => a.get? n = none) a.spawn := ⟨rfl, fun _ h => h⟩
    obtain ⟨ts, hts, hform⟩ := returns_linearize.1 hf
    -- the terms are those found without any bindings, where no parameter is hidden
    have hts' : (affineTerms (.dexpr symbol idx) a.spawn).Returns s ts s₁ :=
      ((affineTerms_alike hidx hexposed hagree).start (declared.refl s.registry)).symm.trans
        hts
    rw [evaluate_dexpr_literal hidx] at hv
    obtain ⟨hkept₁, hadd⟩ := affineTerms_secures _ _ hs.isSound.toTidy hts'
    have htidy₁ := hs.isSound.toTidy.kept hkept₁
    obtain ⟨hkept₂, hgives⟩ := evaluate_keeps _ _ htidy₁.toKeyed hv
    have hfits : a.spawn.Fits s₂.registry σ := ⟨fun _ _ => rfl, hvalues⟩
    have hsum := hadd hkept₂ (hs.isSound.kept (hkept₁.trans hkept₂)).wellIndexed hfits
      (by simp only [Indexed]) (hgives (.refl _))
    obtain ⟨cs, hcs, hevaluate⟩ := hsum.ofTerms htidy₁ hkept₂ hform
    exact ⟨cs, returns_collected.2 ⟨ts, hts, hcs⟩, hevaluate⟩

/-- A decision expression of a parameter that is hidden where it is referred to. -/
def hiddenFactor : Run ℚ Unit := do
  let _ ← parseStatement false "int n = 1;"
  let _ ← parseStatement false "range I = 1..3;"
  let _ ← parseStatement false "dvar float x[I];"
  let _ ← parseStatement false "dexpr float E[i in I] = n * x[i] + n;"
  let _ ← parseStatement false "dexpr float D = 2 * E[2];"

/-- A place where the parameter and the index are bound to other numbers. -/
def hidingPlace : Env ℚ := (empty.bind "n" (.int 7)).bind "i" (.int 3)

/-- An assignment to one of the variables. -/
def fiveAtTwo : Assignment := .ofNumbers [("x2", 5)]

theorem linearize_dexpr_hygienic_hiddenFactor :
    ∃ (s s₁ s₂ : Store ℚ) (f : LinearForm ℚ), s.registry.Reached ∧
      (linearize (.dexpr "D" none) hidingPlace).Returns s f s₁ ∧
      (linearize (.dexpr "D" none) empty).Returns s f s₁ ∧
      ((dexpr "D" none).evaluate (hidingPlace.under fiveAtTwo.values)).Returns s₁ 12 s₂ ∧
      (f.evaluate fiveAtTwo.values).Gives s₂.registry 12 := by
  have hrun : ((do
      hiddenFactor
      let r ← registry
      let _ ← linearize (.dexpr "D" none) hidingPlace
      let v ← (dexpr "D" none).evaluate (hidingPlace.under fiveAtTwo.values)
      return (r.exposedNames, v) : Run ℚ (List String × ℚ)).start {}).1.toOption =
        some ([], 12) := by
    decide +kernel
  have hdropped : ((do
      hiddenFactor
      let cs ← collected (.dexpr "D" none) hidingPlace
      return LinearForm.droppedAmong cs : Run ℚ _).start {}).1.toOption = some [] := by
    decide +kernel
  obtain ⟨s₂, h⟩ := returns_of_toOption hrun
  obtain ⟨_, s, hdeclared, h⟩ := returns_bind.1 h
  replace h := returns_registry_bind.1 h
  obtain ⟨f, s₁, hf, h⟩ := returns_bind.1 h
  obtain ⟨v, s₂', hv, h⟩ := returns_bind.1 h
  obtain ⟨hanswer, rfl⟩ := returns_pure.1 h
  obtain ⟨hexposed, rfl⟩ : s.registry.exposedNames = [] ∧ v = 12 := by simpa using hanswer
  have hs : s.registry.Reached := by
    simp only [hiddenFactor, returns_bind, returns_pure] at hdeclared
    obtain ⟨_, _, hn, _, _, hI, _, _, hx, _, _, hE, _, _, hD, _, rfl⟩ := hdeclared
    exact .read (.read (.read (.read (.read .empty hn) hI) hx) hE) hD
  have hfree : ∀ n ∈ s.registry.exposedNames, hidingPlace.get? n = none := by simp [hexposed]
  obtain ⟨cs, hcs, hevaluate⟩ := linearize_dexpr_hygienic.2 hs (by simp) hfree
    (fun _ _ h => by cases h) hf hv
  obtain ⟨_, h⟩ := returns_of_toOption hdropped
  obtain ⟨_, s', hdeclared', h⟩ := returns_bind.1 h
  obtain ⟨-, rfl⟩ := hdeclared.unique hdeclared'
  obtain ⟨cs', _, hcs', h⟩ := returns_bind.1 h
  obtain ⟨rfl, rfl⟩ := hcs.unique hcs'
  have hsame : (linearize (.dexpr "D" none) hidingPlace).start s =
      (linearize (.dexpr "D" none) empty).start s :=
    linearize_dexpr_hygienic.1 (by simp) rfl rfl hfree
  refine ⟨s, s₁, _, f, hs, hf, hsame.symm.trans hf, hv, ?_⟩
  have hzero : LinearForm.weigh fiveAtTwo [] = 0 := rfl
  rwa [(returns_pure.1 h).1, hzero, sub_zero] at hevaluate

end LinearModel
