import LinearModel.Proofs.Termination

/-!
# Nesting

The index of a reference is evaluated while the decision expression is looked into. What it mentions
is therefore nested in the decision expression as much as what the body mentions. Where no decision
expression is nested in itself, evaluation and linearization never report one as cyclic. A family in
whose index the same family is mentioned is nested in itself, even if no body mentions a decision
expression.
-/
namespace LinearModel

open Run Relation Regime

variable {K : Type}

/-- A decision expression is nested in another: it is mentioned in the body, or in the index of a
reference, be it in an expression or in a body. -/
inductive Registry.Nests (r : Registry K) (e : Expr K) : String → String → Prop
  | body {D u : String} (h : r.Refers (.dexpr D) (.dexpr u)) : Nests r e D u
  | index {D u : String} {q : Site} (hq : q ∈ e.mentions []) (hD : D ∈ q.1)
    (hu : q.2 = .dexpr u) : Nests r e D u
  | bodyIndex {D u v : String} {q : Site} (hq : q ∈ r.mentionsOf (.dexpr v)) (hD : D ∈ q.1)
    (hu : q.2 = .dexpr u) : Nests r e D u

/-- Whether a decision expression that is mentioned is ranked below another one. -/
def Mention.isBelow (rank : String → Nat) (D : String) : Mention → Bool
  | .dexpr u => rank u < rank D
  | .parameter _ | .domain _ | .dvar _ => true

namespace Registry

variable {r : Registry K} {e : Expr K}

/-- No decision expression is nested in itself if what is nested can be ranked below. -/
theorem not_nests_of_rank (rank : String → Nat)
    (hbodies : ∀ D ∈ r.dexprs.keys, ∀ q ∈ r.mentionsOf (.dexpr D),
      ∀ v ∈ D :: q.1, q.2.isBelow rank v = true)
    (he : ∀ q ∈ e.mentions [], ∀ v ∈ q.1, q.2.isBelow rank v = true) (D : String) :
    ¬ TransGen (r.Nests e) D D := by
  have hdeclared : ∀ {D q}, q ∈ r.mentionsOf (.dexpr D) → D ∈ r.dexprs.keys := by
    intro D q hq
    cases hd : r.dexprs.find? D with
    | none => simp [mentionsOf, hd] at hq
    | some d => exact Table.mem_keys_iff.2 ⟨d, hd⟩
  have hstep : ∀ {D u}, r.Nests e D u → rank u < rank D := by
    intro D u h
    cases h with
    | body h =>
      obtain ⟨q, hq, hu⟩ := h
      simpa [hu, Mention.isBelow] using hbodies D (hdeclared hq) q hq D List.mem_cons_self
    | index hq hD hu => simpa [hu, Mention.isBelow] using he _ hq D hD
    | bodyIndex hq hD hu =>
      simpa [hu, Mention.isBelow] using hbodies _ (hdeclared hq) _ hq D (List.mem_cons_of_mem _ hD)
  intro hcycle
  have hless : ∀ {u}, TransGen (r.Nests e) D u → rank u < rank D := by
    intro u h
    induction h with
    | single h => exact hstep h
    | tail _ h ih => exact (hstep h).trans ih
  exact (hless hcycle).false

/-- Evaluation that does not report a decision expression as cyclic. -/
def unnested (r : Registry K) : Regime K where
  base := r.invalidate
  hidden _ := false
  excused _ := False
  barred c := ∃ u path, c = .cyclicDexpr u path

/-- A decision expression may be mentioned if it is nested in all that are looked into. -/
def Nested (r : Registry K) (e : Expr K) (A : List String) : Mention → Prop
  | .dexpr u => ∀ D ∈ A, TransGen (r.Nests e) D u
  | .parameter _ | .domain _ | .dvar _ => True

variable (hdata : ∀ {x : Mention}, x.IsData → ∀ s, ¬ r.Refers x (.dexpr s))

include hdata in
/-- What a body mentions is nested in the decision expression, and in all that this is nested in. -/
theorem descends_nested : r.unnested.Descends (r.Nested e) (r.Nested e) := by
  intro A x hx _ q (hq : q ∈ r.invalidate.mentionsOf x)
  rw [r.mentionsOf_invalidate] at hq
  cases hu : q.2 with
  | parameter s | domain s | dvar s => trivial
  | dexpr u =>
    have hrefers : r.Refers x (.dexpr u) := ⟨q, hq, hu⟩
    cases x with
    | parameter s | domain s =>
      refine absurd hrefers (hdata ?_ u)
      trivial
    | dvar s => cases hq
    | dexpr s =>
      intro D hD
      simp only [Mention.inside, List.append_assoc, List.mem_append, List.mem_singleton] at hD
      obtain hA | rfl | hindex := hD
      · exact (hx D hA).tail (.body hrefers)
      · exact .single (.body hrefers)
      · exact .single (.bodyIndex hq hindex hu)

include hdata in
theorem single_unnested [Scalar K] (hacyclic : ∀ D, ¬ TransGen (r.Nests e) D D) :
    r.unnested.Single (r.Nested e) := by
  have hlawful : r.unnested.Lawful (r.Nested e) :=
    { plain := by
        rintro _ hc ⟨u, path, rfl⟩
        cases hc
      leftover := fun _ ⟨_, _, h⟩ => by cases h
      visible := fun _ _ => rfl
      undeclared := fun _ _ ⟨_, _, h⟩ => by cases h
      cyclic := fun hp hs => absurd (hp _ hs) (hacyclic _) }
  have hendless : ¬ r.unnested.barred .endless := by
    rintro ⟨_, _, h⟩
    cases h
  exact
    { whole := rfl
      lawful := hlawful
      descends := descends_nested hdata
      params := fun _ _ => trivial
      endless := hendless
      lookups := lookups_all (fun _ => trivial) hlawful (descends_nested hdata) hendless }

end Registry

variable {s : Store K}

theorem Regime.RelAt.not_failsCyclic {α : Type} {r : Registry K} {x : Run K α}
    (h : r.unnested.RelAt x x s s) : ¬ x.FailsCyclic s := by
  rintro ⟨f, s', u, path, hfails, hcause⟩
  exact h.2 f s' hfails ⟨u, path, hcause⟩

variable [Scalar K]

/-- A family that is referred to in its own index has no value: the index is evaluated while the
family is looked into. -/
theorem failsCyclic_ownIndex {D i : String} {d : DecisionExpression K}
    (hd : s.registry.dexprs.find? D = some d) (hi : d.index = some i) (idx : Option (Expr K))
    (env : Env K) : ((Expr.dexpr D (some (.dexpr D idx))).evaluateValue env).FailsCyclic s := by
  have hstart := start_lookup (fun L => (Expr.dexpr D (some (.dexpr D idx))).value L env) s
  by_cases hD : D ∈ env.active
  · exact (failsCyclic_value hD _).of_start hstart
  · have hinside : D ∈ (env.inside D).active := by simp [Env.inside]
    refine FailsCyclic.of_start ?_ (hstart.trans (DecisionExpression.start_value hd hD _ _))
    simp only [DecisionExpression.value, DecisionExpression.scope, hi, Option.map_some, bind_assoc]
    exact (failsCyclic_value hinside _).bind _

/-- If no decision expression is nested in itself and no definition of a parameter or domain
mentions one, nothing is reported as cyclic. A family in its own index is nested in itself, and is
always reported. -/
theorem not_failsCyclic_of_acyclic (hs : s.registry.Keyed) :
    (∀ {e : Expr K} {env : Env K},
      (∀ {x : Mention}, x.IsData → ∀ u, ¬ s.registry.Refers x (.dexpr u)) →
      (∀ D, ¬ TransGen (s.registry.Nests e) D D) → env.active = [] →
      ¬ (e.evaluate env).FailsCyclic s ∧ ¬ (e.evaluateValue env).FailsCyclic s ∧
        ¬ (linearize e env).FailsCyclic s) ∧
    ∀ {D i : String} {d : DecisionExpression K}, s.registry.dexprs.find? D = some d →
      d.index = some i → ∀ (idx : Option (Expr K)) (env : Env K),
        ((Expr.dexpr D (some (.dexpr D idx))).evaluateValue env).FailsCyclic s := by
  refine ⟨fun {e env} hdata hacyclic henv => ?_, failsCyclic_ownIndex⟩
  have hsingle := Registry.single_unnested hdata hacyclic
  have hlike : s.registry.unnested.Like s.registry s.registry :=
    ⟨hs, rfl, (Registry.hide_nothing _).symm, trivial⟩
  have he : (comparison hsingle.lawful).Allows env.active (e.mentions []) := by
    intro q hq
    rw [henv, List.nil_append]
    change s.registry.Nested e q.1 q.2
    cases hu : q.2 with
    | dexpr u => exact fun D hD => .single (.index hq hD hu)
    | parameter u | domain u | dvar u => trivial
  exact ⟨(hsingle.evaluate e he hlike).not_failsCyclic,
    (hsingle.evaluateValue e he hlike).not_failsCyclic,
    (hsingle.linearize e he hlike).not_failsCyclic⟩

/-- Two families of decision expressions over the same numbers, one of which mentions the other. -/
def twoFamilies : Registry ℚ where
  indexSets := ⟨[("I", { symbol := "I", first := 1, last := 3 })]⟩
  dexprs := ⟨[("D", {
      symbol := "D"
      type := "float"
      body := .name "i"
      index := some "i"
      domain := some "I" }),
    ("E", {
      symbol := "E"
      type := "float"
      body := .dexpr "D" (some (.name "i"))
      index := some "i"
      domain := some "I" })]⟩

theorem not_failsCyclic_of_acyclic_twoFamilies : ∃ s : Store ℚ, s.registry.Keyed ∧
    (∀ {x : Mention}, x.IsData → ∀ u, ¬ s.registry.Refers x (.dexpr u)) ∧
    (∀ D, ¬ TransGen (s.registry.Nests (.dexpr "E" (some (.dexpr "D" (some (.num 1)))))) D D) ∧
    ¬ ((Expr.dexpr "E" (some (.dexpr "D" (some (.num 1))))).evaluate Env.empty).FailsCyclic s ∧
    ((Expr.dexpr "D" (some (.dexpr "D" (some (.num 1))))).evaluateValue
      Env.empty).FailsCyclic s := by
  have hkeyed : twoFamilies.Keyed :=
    .of_entries (by decide +kernel) (by decide +kernel) (by decide +kernel)
  have hgrounded : twoFamilies.IsGrounded := .of_rank (fun _ => 0) (by decide +kernel)
  have hacyclic : ∀ D, ¬ TransGen (twoFamilies.Nests
      (.dexpr "E" (some (.dexpr "D" (some (.num 1)))))) D D :=
    Registry.not_nests_of_rank (fun u => if u = "E" then 1 else 0) (by decide +kernel)
      (by decide +kernel)
  have h := not_failsCyclic_of_acyclic (s := { registry := twoFamilies }) hkeyed
  exact ⟨_, hkeyed, hgrounded.data, hacyclic, (h.1 hgrounded.data hacyclic rfl).1,
    h.2 rfl rfl (some (.num 1)) Env.empty⟩

end LinearModel
