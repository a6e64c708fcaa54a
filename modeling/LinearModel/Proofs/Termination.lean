import LinearModel.Proofs.Exact
import LinearModel.Proofs.Grounded

/-!
# Termination

In a grounded registry evaluation, substitution and linearization end, whatever the decision
expressions mention, and going deeper than the lookup of the registry gives no other answer.

A reference to a decision expression expands to its body, with its index bound. The expansion comes
to the same decision expression again if it fails, where this one is struck out, because it is not
declared. The reference then fails as cyclic. Conversely, a reference that has a value has the one
that its expansion has where the decision expression is struck out.
-/
namespace LinearModel

open Run Regime Expr Registry Comparison Env

variable {K : Type} {α β : Type} {x' : Run K α} {D : String}

theorem Registry.mentionsOf_invalidate (r : Registry K) (x : Mention) :
    r.invalidate.mentionsOf x = r.mentionsOf x := by
  cases x with
  | parameter s =>
    simp only [mentionsOf, find?_params_invalidate]
    cases r.params.find? s with
    | none => rfl
    | some p =>
      simp only [Option.map_some, Option.elim_some]
      split
      exacts [p.mentions_clear, rfl]
  | domain s =>
    simp only [mentionsOf, domain?_invalidate]
    cases r.domain? s with
    | none => rfl
    | some d => exact d.mentions_forget
  | dvar s => rfl
  | dexpr s => rfl

theorem Registry.IsGrounded.congr {r t : Registry K} (hr : r.IsGrounded)
    (h : ∀ x, t.mentionsOf x = r.mentionsOf x) : t.IsGrounded := by
  have hrefers : t.Refers = r.Refers := by
    funext x y
    simp only [Refers, h]
  exact ⟨by rw [hrefers]; exact hr.acyclic, by rw [hrefers]; exact hr.data⟩

theorem Registry.IsGrounded.invalidate {r : Registry K} (hr : r.IsGrounded) :
    r.invalidate.IsGrounded :=
  hr.congr r.mentionsOf_invalidate

/-! ## Coming to a decision expression again -/

/-- The store with a decision expression struck out. -/
def Store.without (s : Store K) (D : String) : Store K :=
  { s with registry := s.registry.hide (· == D) }

namespace Run

/-- A computation fails because a decision expression leads to itself. -/
def FailsCyclic (x : Run K α) (s : Store K) : Prop :=
  ∃ f s' u path, x.Fails s f s' ∧ f.cause = .cyclicDexpr u path

/-- A computation comes to a decision expression before anything else fails: where the decision
expression is struck out, this is what is missed. -/
def Reaches (x : Run K α) (D : String) (s : Store K) : Prop :=
  ∃ f s', x.Fails (s.without D) f s' ∧ f.cause = .dexprNotDeclared D

/-- A reference guards the expansion of a decision expression: it fails as cyclic if the expansion
comes to the decision expression again, and returns only what the expansion returns without it. -/
structure Guards (D : String) (x : Run K α) (s : Store K) (y : Run K α) (t : Store K) : Prop where
  cyclic : y.Reaches D t → x.FailsCyclic s
  returns : ∀ {a s'}, x.Returns s a s' → ∃ t', y.Returns (t.without D) a t'

variable {D : String} {x y : Run K α} {s t : Store K}

theorem FailsCyclic.guards (h : x.FailsCyclic s) : Guards D x s y t where
  cyclic _ := h
  returns hx := by
    obtain ⟨f, s', _, _, hfails, _⟩ := h
    have hboth := hx.symm.trans hfails
    simp at hboth

theorem FailsCyclic.of_start (h : x.FailsCyclic s) (hx : x'.start s = x.start s) :
    x'.FailsCyclic s := by
  obtain ⟨e, s', u, path, hfails, hcause⟩ := h
  exact ⟨e, s', u, path, hx.trans hfails, hcause⟩

theorem FailsCyclic.bind (h : x.FailsCyclic s) (f : α → Run K β) : (x >>= f).FailsCyclic s := by
  obtain ⟨e, s', u, path, hfails, hcause⟩ := h
  exact ⟨e, s', u, path, fails_bind.2 (.inl hfails), hcause⟩

/-- Whether a computation fails because a decision expression is not declared. -/
def misses (x : Run K α) (D : String) (s : Store K) : Bool :=
  match (x.start s).1 with
  | .error ⟨.dexprNotDeclared u, _, _⟩ => u == D
  | _ => false

theorem reaches_of_misses (h : x.misses D (s.without D) = true) : x.Reaches D s := by
  unfold misses at h
  split at h
  · rename_i u st b hf
    refine ⟨_, (x.start (s.without D)).2, Prod.ext hf rfl, ?_⟩
    rw [LawfulBEq.eq_of_beq h]
  · cases h

/-- The reference comes after something else. -/
theorem Guards.after {z : Run K β} {f : β → Run K α} {c : β} {s₁ : Store K}
    (h : Guards D (f c) s₁ y t) (hz : z.Returns s c s₁) : Guards D (z >>= f) s y t where
  cyclic hy := by
    obtain ⟨e, s', u, path, hfails, hcause⟩ := h.cyclic hy
    exact ⟨e, s', u, path, fails_bind.2 (.inr ⟨c, s₁, hz, hfails⟩), hcause⟩
  returns hx := by
    obtain ⟨c', s₂, hz', hx⟩ := returns_bind.1 hx
    obtain ⟨rfl, rfl⟩ := hz.unique hz'
    exact h.returns hx

theorem Guards.congr {x' y' : Run K α} (h : Guards D x s y t) (hx : x'.start s = x.start s)
    (hy : y'.start (t.without D) = y.start (t.without D)) : Guards D x' s y' t where
  cyclic := by
    rintro ⟨f, t', hfails, hcause⟩
    exact (h.cyclic ⟨f, t', hy.symm.trans hfails, hcause⟩).of_start hx
  returns hreturns := by
    obtain ⟨t', ht'⟩ := h.returns (hx.symm.trans hreturns)
    exact ⟨t', hy.trans ht'⟩

end Run

namespace Regime.RelAt

variable {r : Registry K} {x y : Run K α} {s t : Store K}

/-- Where the second evaluation does without a decision expression, the first one guards it. -/
theorem guards (h : (r.grounded [D]).RelAt x y s (s.without D)) : Guards D x s y s where
  cyclic := by
    rintro ⟨f, t', hfails, hcause⟩
    obtain ⟨e, s', hexcused, -, u, path, hu⟩ | ⟨_, _, _, hfalse⟩ | ⟨a, s', t₁, hx, hy, -⟩ := h.1
    · exact ⟨e, s', u, path, hexcused, hu⟩
    · exact hfalse.elim
    · obtain ⟨rfl, rfl⟩ : a = .error f ∧ t₁ = t' := by
        simpa using hy.symm.trans hfails
      exact absurd (.inr ⟨D, List.mem_singleton_self D, hcause⟩) (h.2 f s' hx)
  returns {a s'} hx := by
    obtain ⟨e, s₁, hfails, -⟩ | ⟨_, _, _, hfalse⟩ | ⟨b, s₁, t₁, hx', hy, -⟩ := h.1
    · have hboth := hx.symm.trans hfails
      simp at hboth
    · exact hfalse.elim
    · obtain ⟨rfl, rfl⟩ : b = .ok a ∧ s₁ = s' := by
        simpa using hx'.symm.trans hx
      exact ⟨t₁, hy⟩

theorem ends {H : List String} (h : (r.grounded H).RelAt x y s t) : Ends (x.start s).1 := by
  intro f hf hendless
  exact h.2 f (x.start s).2 (Prod.ext hf rfl) (.inl hendless)

theorem answer (h : (r.grounded []).RelAt x y s t) : (x.start s).1 = (y.start t).1 := by
  obtain ⟨_, _, _, hexcused, _⟩ | ⟨_, _, _, hfalse⟩ | ⟨a, s', t', hx, hy, -⟩ := h.1
  · exact absurd rfl hexcused
  · exact hfalse.elim
  · rw [hx, hy]

theorem congr {W : Regime K} (h : W.RelAt x y s t) (hx : x'.start s = x.start s) :
    W.RelAt x' y s t :=
  ⟨inStepAt_congr hx rfl h.1, fun f s' hfails => h.2 f s' (hx.symm.trans hfails)⟩

end Regime.RelAt

/-! ## Expansions -/

/-- The environment in which a decision expression is looked into. -/
def Env.inside (env : Env K) (D : String) : Env K := { env with active := env.active ++ [D] }

theorem Env.hide_inside {env : Env K} (hD : D ∉ env.active) (r : Registry K) :
    env = (env.inside D).hide (r.grounded [D]).hidden := by
  have hkept : (env.active ++ [D]).filter (fun u => !(r.grounded [D]).hidden u) = env.active := by
    rw [List.filter_append, List.filter_eq_self.2]
    · simp [grounded]
    · intro u hu
      simpa [grounded] using fun huD : u = D => hD (huD ▸ hu)
  simp only [Env.hide, inside, hkept]

variable [Scalar K]

namespace DecisionExpression

/-- The environment of the body of a decision expression that is referred to with an index. -/
def scope (D : String) (d : DecisionExpression K) (index : Option (Env K → Run K (Value K)))
    (env : Env K) : Run K (Env K) :=
  match d.index, index with
  | some _, none => Run.fail (.dexprWithoutIndex D)
  | some i, some value => do return env.spawn.bind i (← value env).normalize
  | none, some _ => Run.fail (.dexprWithIndex D)
  | none, none => return env.spawn

/-- What evaluation makes of a reference: the value of the body. -/
def value (L : Lookup K) (D : String) (d : DecisionExpression K) (idx : Option (Expr K))
    (env : Env K) : Run K (Value K) := do
  let inner ← d.scope D (idx.map fun e env => e.value L env) env
  return .real (← L.body d.body inner)

/-- What linearization makes of a reference: its value if the body is constant, or else the terms of
the body. -/
def terms (L : Lookup K) (k : Nat) (D : String) (d : DecisionExpression K) (idx : Option (Expr K))
    (factor : Expr K) (env : Env K) : Run K (List (Term K)) := do
  let inner ← d.scope D (idx.map fun e env => e.value L env) env
  let body ← d.body.substitute L inner
  if ← (descent L k).isConstant body env then
    let x ← (dexpr D idx).asNumber (d.value L D idx env.spawn)
    return [.constant (← scale .mul factor (.num x))]
  else (descent L k).terms body factor env

/-- The value of a decision expression that is referred to. -/
def evaluated (D : String) (d : DecisionExpression K) (idx : Option (Expr K)) (env : Env K) :
    Run K (Value K) := do
  d.value (← Run.lookup) D idx env

/-- The linear form of a decision expression that is referred to. -/
def linearized (D : String) (d : DecisionExpression K) (idx : Option (Expr K)) (env : Env K) :
    Run K (LinearForm K) := do
  let L ← Run.lookup
  let ts ← d.terms L ((← Run.registry).dexprs.size + 1) D idx (.num Scalar.one) env
  Run.ofExcept (LinearForm.ofTerms (← Run.registry) ts)

variable {D : String} {d : DecisionExpression K} {s : Store K}

theorem start_dexprScope (hd : s.registry.dexprs.find? D = some d)
    (index : Option (Env K → Run K (Value K))) (env : Env K)
    (F : DecisionExpression K × Env K → Run K α) : (dexprScope D index env >>= F).start s =
      (d.scope D index env >>= fun inner => F (d, inner)).start s := by
  simp only [dexprScope, scope, bind_assoc]
  rw [start_bind, start_registry]
  simp only [hd]
  rcases d.index with _ | i <;> rcases index with _ | value <;>
    simp only [bind_assoc, pure_bind] <;> rfl

variable {env : Env K} (hd : s.registry.dexprs.find? D = some d) (hD : D ∉ env.active)
  (L : Lookup K) (idx : Option (Expr K))

include hd hD

/-- A reference is evaluated by looking into it. -/
theorem start_value :
    ((Expr.dexpr D idx).value L env).start s = (d.value L D idx (env.inside D)).start s := by
  have hunfold : (Expr.dexpr D idx).value L env = (do
      let inside ← Run.ofExcept (env.enter D)
      let scope ← dexprScope D (idx.map fun e env => e.value L env) inside
      return .real (← L.body scope.1.body scope.2)) := by
    cases idx <;> simp only [Expr.value, Option.map_none, Option.map_some]
  rw [hunfold, enter_eq_ok.2 ⟨hD, rfl⟩]
  exact start_dexprScope hd _ _ _

/-- The terms of a reference are found by looking into it. If the body is constant, the reference is
evaluated afresh. -/
theorem start_terms (k : Nat) (factor : Expr K) :
    ((dexpr D idx).terms L (descent L k) factor env).start s = (do
      let inner ← d.scope D (idx.map fun e env => e.value L env) (env.inside D)
      let body ← d.body.substitute L inner
      if ← (descent L k).isConstant body (env.inside D) then
        let x ← (dexpr D idx).number L env.spawn
        return [.constant (← scale .mul factor (.num x))]
      else (descent L k).terms body factor (env.inside D) : Run K (List (Term K))).start s := by
  simp only [Expr.terms, enter_eq_ok.2 ⟨hD, rfl⟩, unfoldDexpr, bind_assoc]
  exact start_dexprScope hd _ _ _

end DecisionExpression

/-! ## References -/

/-- The scope of a body is entered alike. -/
theorem Regime.rel_scope {W : Regime K} {permits : List String → Mention → Prop}
    (hW : W.Lawful permits) (d : DecisionExpression K) {a b : Env K}
    {v w : Option (Env K → Run K (Value K))} {F G : Env K → Run K α} (hab : b = a.hide W.hidden)
    (hvw : Option.Rel (fun v w => W.Rel (v a) (w b)) v w)
    (hFG : ∀ {a'}, a'.active = a.active → W.Rel (F a') (G (a'.hide W.hidden))) :
    W.Rel (d.scope D v a >>= F) (d.scope D w b >>= G) := by
  subst hab
  unfold DecisionExpression.scope
  cases d.index with
  | none =>
    cases hvw with
    | none => exact hFG rfl
    | some _ => exact rel_fail (hW.plain rfl)
  | some i =>
    cases hvw with
    | none => exact rel_fail (hW.plain rfl)
    | some hvw =>
      simp only [bind_assoc, pure_bind]
      exact hvw.bind fun v => hFG rfl

namespace Registry.IsGrounded

variable {r : Registry K} {D : String} {d : DecisionExpression K} {env : Env K} {n m : Nat}
  (hr : r.IsGrounded) (hn : (r.rest [D]).size + 2 ≤ n) (hm : (r.rest [D]).size + 2 ≤ m)
  (hD : D ∉ env.active) (idx : Option (Expr K))

include hr hn hm hD

/-- The scope of a body is entered alike while the decision expression is looked into. -/
theorem rel_scope_inside {F G : Env K → Run K α} (hFG : ∀ {a b}, [D] ⊆ a.active →
      (comparison (hr.deep hn hm).lawful).Meets a.active [] a b →
        (r.grounded [D]).Rel (F a) (G b)) :
    (r.grounded [D]).Rel
      (d.scope D (idx.map fun e env => e.value (LinearModel.lookup n) env) (env.inside D) >>= F)
      (d.scope D (idx.map fun e env => e.value (LinearModel.lookup m) env) env >>= G) := by
  have hdeep := hr.deep hn hm
  have henv := hide_inside hD r
  have hmem : [D] ⊆ (env.inside D).active := List.subset_append_right _ _
  refine rel_scope hdeep.lawful d henv ?_ fun {a} ha => ?_
  · cases idx with
    | none => exact .none
    | some e =>
      exact .some (exprValue hdeep.lookups e ⟨henv, rfl, binds_nil _⟩
        (hr.allows hn hm hmem _))
  · exact hFG (ha ▸ hmem) ⟨rfl, rfl, binds_nil _⟩

/-- A reference has the value of the body without it. -/
theorem rel_value (hd : r.dexprs.find? D = some d) :
    (r.grounded [D]).Rel ((dexpr D idx).value (LinearModel.lookup (n + 1)) env)
      (d.value (LinearModel.lookup (m + 1)) D idx env) := by
  intro s t hst
  refine RelAt.congr ?_ (DecisionExpression.start_value (hst.dexprs ▸ hd) hD _ idx)
  refine hr.rel_scope_inside (Nat.le_succ_of_le hn) (Nat.le_succ_of_le hm) hD idx ?_ hst
  intro a b ha hab
  exact Rel.bind (exprNumber (hr.deep hn hm).lookups d.body hab (hr.allows hn hm ha _))
    fun _ => rel_pure _

/-- A reference has the terms of the body without it. -/
theorem rel_terms (hd : r.dexprs.find? D = some d) {k l : Nat}
    (hk : (r.rest [D]).dexprs.size < k) (hl : (r.rest [D]).dexprs.size < l) (factor : Expr K) :
    (r.grounded [D]).Rel
      ((dexpr D idx).terms (LinearModel.lookup (n + 1)) (descent (LinearModel.lookup (n + 1)) k)
        factor env) (d.terms (LinearModel.lookup (m + 1)) l D idx factor env) := by
  have hn' := Nat.le_succ_of_le hn
  have hm' := Nat.le_succ_of_le hm
  have hdeep := hr.deep hn' hm'
  have hmem : [D] ⊆ (env.inside D).active := List.subset_append_right _ _
  have hfree : r.free (env.inside D).active ≤ (r.rest [D]).dexprs.size := free_le_rest hmem
  have hmeets : (comparison hdeep.lawful).Meets (env.inside D).active [] (env.inside D) env :=
    ⟨hide_inside hD r, rfl, binds_nil _⟩
  have hbody := fun qs => hr.allows hn' hm' hmem qs
  intro s t hst
  refine RelAt.congr ?_ (DecisionExpression.start_terms (hst.dexprs ▸ hd) hD _ idx k factor)
  refine hr.rel_scope_inside hn' hm' hD idx ?_ hst
  intro a b ha hab
  refine Rel.bind (exprSubstitute hdeep.lookups (.inl (reliable _)) d.body hab
    (hr.allows hn' hm' ha _)) fun body => ?_
  refine Rel.bind (hdeep.isConstant k l body ⟨by omega, by omega⟩ hmeets (hbody _))
    fun isConstant => ?_
  cases isConstant with
  | true =>
    refine Rel.bind ?_ fun x => Rel.bind (hdeep.scale _ _ _) fun _ => rel_pure _
    have hvalue := hr.rel_value hn hm (show D ∉ env.spawn.active from hD) idx hd
    exact asNumber (R := comparison hdeep.lawful) _ hvalue
  | false => exact hdeep.terms k l body factor ⟨by omega, by omega⟩ hmeets (hbody _)

end Registry.IsGrounded

/-! ## Guarding -/

section Guarding

variable {s : Store K} {D : String} {d : DecisionExpression K} {idx : Option (Expr K)} {env : Env K}

/-- A decision expression that is being looked into has no value. -/
theorem failsCyclic_value (hD : D ∈ env.active) (L : Lookup K) :
    ((dexpr D idx).value L env).FailsCyclic s := by
  refine ⟨{ cause := .cyclicDexpr D (env.active.dropWhile (· != D) ++ [D]) }, s, _, _, ?_, rfl⟩
  cases idx <;> simp only [value, enter_of_mem hD] <;> rfl

omit [Scalar K] in
theorem hidden_singleton (r : Registry K) (D : String) : (r.grounded [D]).hidden = (· == D) := by
  funext u
  simp [grounded, BEq.beq]

omit [Scalar K] in
theorem Registry.Keyed.like_without (hs : s.registry.Keyed) (D : String) :
    (s.registry.invalidate.grounded [D]).Like s.registry (s.without D).registry :=
  ⟨hs, rfl, by rw [hidden_singleton]; rfl, trivial⟩

omit [Scalar K] in
theorem invalidate_without (s : Store K) (D : String) :
    s.registry.invalidate.rest [D] = (s.without D).registry.invalidate := by
  rw [Registry.rest, hidden_singleton]
  rfl

/-- The lookups of a registry, and of what is left without a decision expression, are deep enough.
-/
theorem exists_lookups (s : Store K) (D : String) : ∃ n m,
    (s.registry.invalidate.rest [D]).size + 2 ≤ n ∧ (s.registry.invalidate.rest [D]).size + 2 ≤ m ∧
      s.registry.lookup = lookup (n + 1) ∧ (s.without D).registry.lookup = lookup (m + 1) := by
  have hle := s.registry.invalidate.size_rest_le [D]
  rw [size_invalidate] at hle
  refine ⟨s.registry.size + 499, (s.without D).registry.size + 499, by omega, ?_, rfl, rfl⟩
  rw [invalidate_without, size_invalidate]
  omega

variable (hs : s.registry.Keyed) (hg : s.registry.IsGrounded)
  (hd : s.registry.dexprs.find? D = some d)

include hs hg hd

theorem guards_evaluateValue :
    Guards D ((dexpr D idx).evaluateValue env) s (d.evaluated D idx env) s := by
  refine Guards.congr ?_ (start_lookup _ _) (start_lookup _ _)
  by_cases hD : D ∈ env.active
  · exact (failsCyclic_value hD _).guards
  · obtain ⟨n, m, hn, hm, hL, hM⟩ := exists_lookups s D
    rw [hL, hM]
    exact (hg.invalidate.rel_value hn hm hD idx hd (hs.like_without D)).guards

theorem guards_evaluate : Guards D ((dexpr D idx).evaluate env) s
      ((dexpr D idx).asNumber (d.evaluated D idx env)) s := by
  have hevaluated : ∀ t : Store K, ((dexpr D idx).asNumber (d.evaluated D idx env)).start t =
      ((dexpr D idx).asNumber (d.value t.registry.lookup D idx env)).start t := by
    intro t
    change ((Run.lookup >>= _) >>= _).start t = _
    rw [bind_assoc]
    exact start_lookup _ t
  refine Guards.congr ?_ (start_lookup _ _) (hevaluated _)
  by_cases hD : D ∈ env.active
  · exact ((failsCyclic_value hD _).bind _).guards
  · obtain ⟨n, m, hn, hm, hL, hM⟩ := exists_lookups s D
    rw [hL, hM]
    exact (asNumber (R := comparison (hg.invalidate.deep hn hm).lawful) (.dexpr D idx)
      (hg.invalidate.rel_value hn hm hD idx hd) (hs.like_without D)).guards

/-- Gathering the terms of a reference guards the linearization of the body. -/
theorem guards_form : Guards D
      (do
        let ts ← (dexpr D idx).terms s.registry.lookup
          (descent s.registry.lookup (s.registry.dexprs.size + 1)) (.num Scalar.one) env
        Run.ofExcept (LinearForm.ofTerms (← Run.registry) ts)) s
      (d.linearized D idx env) s := by
  have hlinearized : ∀ t : Store K, (d.linearized D idx env).start t = (do
      let ts ← d.terms t.registry.lookup (t.registry.dexprs.size + 1) D idx (.num Scalar.one) env
      Run.ofExcept (LinearForm.ofTerms (← Run.registry) ts) : Run K _).start t := by
    intro t
    refine (start_lookup _ t).trans ?_
    rw [start_bind, start_registry]
  refine Guards.congr ?_ rfl (hlinearized _)
  by_cases hD : D ∈ env.active
  · refine FailsCyclic.guards (FailsCyclic.bind ?_ _)
    simp only [terms, enter_of_mem hD]
    exact ⟨_, _, _, _, rfl, rfl⟩
  · obtain ⟨n, m, hn, hm, hL, hM⟩ := exists_lookups s D
    have hsize :
        (s.registry.invalidate.rest [D]).dexprs.size = (s.without D).registry.dexprs.size := by
      rw [invalidate_without]
      rfl
    have hle : (s.without D).registry.dexprs.size ≤ s.registry.dexprs.size :=
      List.length_filter_le _ _
    rw [hL, hM]
    refine (Rel.bind (hg.invalidate.rel_terms hn hm hD idx hd (by omega) (by omega) _)
      (fun ts => rel_ofTerms (hg.invalidate.deep hn hm).lawful ts) (hs.like_without D)).guards

end Guarding

/-! ## Ending -/

omit [Scalar K] in
theorem Registry.hidden_nil (r : Registry K) : (r.grounded []).hidden = fun _ => false := by
  simp [grounded]

omit [Scalar K] in
theorem Registry.rest_nil (r : Registry K) : r.rest [] = r := by
  rw [rest, hidden_nil, hide_nothing]

namespace Registry.IsGrounded

variable {r : Registry K} (hr : r.IsGrounded) {n m : Nat} (hn : (r.rest []).size + 2 ≤ n)
  (hm : (r.rest []).size + 2 ≤ m) (e : Expr K) (env : Env K)

theorem meets_self : (comparison (hr.deep hn hm).lawful).Meets env.active [] env env := by
  refine ⟨?_, rfl, binds_nil _⟩
  change env = env.hide (r.grounded []).hidden
  rw [hidden_nil, Env.hide_nothing]

include hr hn hm

theorem value_alike :
    (r.grounded []).Rel (e.value (LinearModel.lookup n) env) (e.value (LinearModel.lookup m) env) :=
  exprValue (hr.deep hn hm).lookups e (hr.meets_self hn hm env)
    (hr.allows hn hm (List.nil_subset _) _)

theorem substitute_alike : (r.grounded []).Rel (e.substitute (LinearModel.lookup n) env)
      (e.substitute (LinearModel.lookup m) env) :=
  exprSubstitute (hr.deep hn hm).lookups (.inl (reliable _)) e
    (hr.meets_self hn hm env) (hr.allows hn hm (List.nil_subset _) _)

omit hn hm in
theorem linearize_alike : (r.grounded []).Rel (linearize e env) (linearize e env) := by
  have hdepth : 2 ≤ familyDepth := by decide
  have hm : (r.rest []).size + 2 ≤ (r.rest []).size + familyDepth := Nat.add_le_add_left hdepth _
  have hn : (r.rest []).size + 2 ≤ r.size + familyDepth :=
    Nat.add_le_add (r.size_rest_le []) hdepth
  have hfree := free_le_rest (r := r) (List.nil_subset env.active)
  have hdexprs : (r.rest []).dexprs = r.dexprs := by rw [rest_nil]
  have hk : r.free env.active < r.dexprs.size + 2 ∧
      r.free env.active < (r.rest []).dexprs.size + 2 := by
    rw [hdexprs] at hfree ⊢
    omega
  exact (hr.deep hn hm).linearize e hk (hr.meets_self hn hm env)
    (hr.allows hn hm (List.nil_subset _) _)

end Registry.IsGrounded

section Ending

variable {s : Store K}

omit [Scalar K] in
theorem Registry.Keyed.like_self (hs : s.registry.Keyed) :
    (s.registry.invalidate.grounded []).Like s.registry s.registry :=
  ⟨hs, rfl, s.registry.rest_nil.symm, trivial⟩

omit [Scalar K] in
theorem size_rest_nil (r : Registry K) : (r.invalidate.rest []).size = r.size := by
  rw [rest_nil, size_invalidate]

/-- Linearizing a reference guards the linearization of the body, once bindings are substituted into
the index. -/
theorem guards_linearize (hs : s.registry.Keyed) (hg : s.registry.IsGrounded)
    {d : DecisionExpression K} (hd : s.registry.dexprs.find? D = some d)
    {idx idx' : Option (Expr K)} {env : Env K} {s₁ : Store K}
    (hsub : (do (dexpr D idx).substitute (← Run.lookup) env).Returns s (.dexpr D idx') s₁) :
    Guards D (linearize (.dexpr D idx) env) s (d.linearized D idx' env) s₁ := by
  have hn : (s.registry.invalidate.rest []).size + 2 ≤ s.registry.size + familyDepth := by
    rw [size_rest_nil]
    exact Nat.add_le_add_left (by decide) _
  have hsub' : ((dexpr D idx).substitute s.registry.lookup env).Returns s (.dexpr D idx') s₁ :=
    (start_lookup _ s).symm.trans hsub
  obtain ⟨_, _, hlike⟩ :=
    (hg.invalidate.substitute_alike hn hn (.dexpr D idx) env).after hs.like_self hsub'
  have hbase : s₁.registry.invalidate = s.registry.invalidate := hlike.base
  have hg₁ : s₁.registry.IsGrounded := hg.congr fun x => by
    rw [← s₁.registry.mentionsOf_invalidate, hbase, s.registry.mentionsOf_invalidate]
  have hdexprs : s₁.registry.dexprs = s.registry.dexprs := hlike.dexprs
  have hlookup : s₁.registry.lookup = s.registry.lookup := by
    rw [Registry.lookup, ← Registry.size_invalidate, hbase, Registry.size_invalidate,
      Registry.lookup]
  have hform : Guards D _ s₁ (d.linearized D idx' env) s₁ :=
    guards_form hlike.keyed hg₁ (hdexprs ▸ hd)
  rw [hlookup] at hform
  have hstart : (linearize (.dexpr D idx) env).start s =
      ((dexpr D idx).substitute s.registry.lookup env >>= fun e => do
        let descend := descent s.registry.lookup ((← Run.registry).dexprs.size + 1)
        let ts ← e.terms s.registry.lookup descend (.num Scalar.one) env
        Run.ofExcept (LinearForm.ofTerms (← Run.registry) ts) : Run K _).start s := by
    simp only [linearize, affineTerms, bind_assoc]
    exact start_lookup _ s
  refine Guards.congr (Guards.after ?_ hsub') hstart rfl
  exact Guards.after (c := s₁.registry) hform (returns_registry.2 ⟨rfl, rfl⟩)

/-- In a grounded registry evaluation, substitution and linearization end, and a lookup that goes
deeper gives no other values. A reference to a decision expression whose expansion comes to it again
fails as cyclic, and a reference that returns something returns what its expansion does where the
decision expression is struck out. -/
theorem evaluation_ends (hs : s.registry.Keyed) (hg : s.registry.IsGrounded) :
    (∀ (e : Expr K) (env : Env K),
      Ends ((e.evaluate env).start s).1 ∧ Ends ((e.evaluateValue env).start s).1 ∧
      Ends ((do e.substitute (← Run.lookup) env : Run K (Expr K)).start s).1 ∧
      Ends ((linearize e env).start s).1 ∧
      ∀ n, s.registry.size + 2 ≤ n →
        ((e.value (lookup n) env).start s).1 = ((e.evaluateValue env).start s).1) ∧
    ∀ {D : String} {d : DecisionExpression K} (idx : Option (Expr K)) (env : Env K),
      s.registry.dexprs.find? D = some d →
        Guards D ((dexpr D idx).evaluate env) s
          ((dexpr D idx).asNumber (d.evaluated D idx env)) s ∧
        Guards D ((dexpr D idx).evaluateValue env) s (d.evaluated D idx env) s ∧
        ∀ {idx' : Option (Expr K)} {s₁ : Store K},
          (do (dexpr D idx).substitute (← Run.lookup) env).Returns s (.dexpr D idx') s₁ →
            Guards D (linearize (.dexpr D idx) env) s (d.linearized D idx' env) s₁ := by
  refine ⟨fun e env => ?_,
    fun idx env hd => ⟨guards_evaluate hs hg hd, guards_evaluateValue hs hg hd,
    guards_linearize hs hg hd⟩⟩
  have hself := hs.like_self
  have hn : (s.registry.invalidate.rest []).size + 2 ≤ s.registry.size + familyDepth := by
    rw [size_rest_nil]
    exact Nat.add_le_add_left (by decide) _
  have hvalue := hg.invalidate.value_alike hn hn e env
  refine ⟨?_, ?_, ?_, (hg.invalidate.linearize_alike e env hself).ends, fun n hdeep => ?_⟩
  · rw [show (e.evaluate env).start s = _ from start_lookup _ s]
    exact (asNumber (R := comparison (hg.invalidate.deep hn hn).lawful) e hvalue hself).ends
  · rw [show (e.evaluateValue env).start s = _ from start_lookup _ s]
    exact (hvalue hself).ends
  · rw [start_lookup]
    exact (hg.invalidate.substitute_alike hn hn e env hself).ends
  · rw [show (e.evaluateValue env).start s = _ from start_lookup _ s]
    rw [← size_rest_nil] at hdeep
    exact (hg.invalidate.value_alike hdeep hn e env hself).answer

end Ending

/-- A range whose bound is derived from a parameter, and two decision expressions that mention each
other. -/
def mutualReferences : Registry ℚ where
  params := ⟨[("n", { symbol := "n", type := .int, value := some (.int 2) }),
    ("m", { symbol := "m", type := .int, definition := some (.arith .add (.name "n") (.num 1)) })]⟩
  boundRanges := ⟨[("I", { symbol := "I", first := .num 1, last := .name "m" })]⟩
  dexprs := ⟨[("a", { symbol := "a", type := "float", body := .dexpr "b" none }),
    ("b", {
      symbol := "b"
      type := "float"
      body := .arith .add (.sum [.mk "i" (.named "I" none) none] (.name "i") none)
        (.dexpr "a" none) })]⟩

theorem isGrounded_mutualReferences : mutualReferences.IsGrounded := by
  refine .of_rank (fun | .domain _ => 2 | .parameter "m" => 1 | _ => 0) ?_
  decide +kernel

theorem keyed_mutualReferences : mutualReferences.Keyed :=
  .of_entries (by decide +kernel) (by decide +kernel) (by decide +kernel)

theorem evaluation_ends_mutualReferences : ∃ s : Store ℚ, s.registry.Keyed ∧
    s.registry.IsGrounded ∧
    ((dexpr "a" none).evaluate empty).FailsCyclic s ∧
    ((dexpr "b" none).evaluateValue empty).FailsCyclic s ∧
    (linearize (.dexpr "a" none) empty).FailsCyclic s ∧
    Ends ((linearize (.name "m") empty).start s).1 := by
  have hends := evaluation_ends (s := { registry := mutualReferences }) keyed_mutualReferences
    isGrounded_mutualReferences
  refine ⟨_, keyed_mutualReferences, isGrounded_mutualReferences, ?_, ?_, ?_,
    (hends.1 (.name "m") empty).2.2.2.1⟩
  · exact (hends.2 none empty rfl).1.cyclic (reaches_of_misses (by decide +kernel))
  · exact (hends.2 none empty rfl).2.1.cyclic (reaches_of_misses (by decide +kernel))
  · exact ((hends.2 none empty rfl).2.2 rfl).cyclic (reaches_of_misses (by decide +kernel))

end LinearModel
