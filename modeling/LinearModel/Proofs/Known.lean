import LinearModel.Proofs.Definitions

/-!
# What is known

Evaluation computes what it needs and keeps it. The lookup `known` computes nothing: it answers
from what the registry holds, and fails where that is not enough. Whatever an evaluation returned,
`known` gives again in every later registry, without changing it. So the answers of several
evaluations can be compared in one registry, the one that the last of them left.
-/
namespace LinearModel

open Run Registry

variable {K : Type} {α β : Type}

/-! ## Environments in which more can be evaluated -/

/-- The second environment has the same bindings, at least the same values of variables, and
looks into no further decision expressions. -/
structure Env.Below (a b : Env K) : Prop where
  frames : a.frames = b.frames
  values : ∀ n v, a.values.find? n = some v → b.values.find? n = some v
  active : ∀ s, s ∈ b.active → s ∈ a.active

namespace Env.Below

variable {a b c : Env K}

theorem refl (a : Env K) : a.Below a := ⟨rfl, fun _ _ h => h, fun _ h => h⟩

theorem get? (h : a.Below b) (s : String) : a.get? s = b.get? s := by
  simp only [Env.get?, h.frames]

theorem bind (h : a.Below b) (s : String) (v : Value K) : (a.bind s v).Below (b.bind s v) :=
  ⟨by simp [Env.bind, h.frames], h.values, h.active⟩

theorem spawn (h : a.Below b) : a.spawn.Below b.spawn := ⟨rfl, h.values, h.active⟩

theorem variableValue [Scalar K] (h : a.Below b) {n : String} {x : K}
    (hx : a.variableValue n = .ok x) :
    b.variableValue n = .ok x := by
  simp only [Env.variableValue] at hx ⊢
  cases ha : a.values.find? n with
  | none => simp [ha] at hx
  | some v => simpa [h.values n v ha, ha] using hx

theorem enter (h : a.Below b) {s : String} {a' : Env K} (ha : a.enter s = .ok a') :
    ∃ b', b.enter s = .ok b' ∧ a'.Below b' := by
  simp only [Env.enter] at ha ⊢
  split at ha
  · cases ha
  · rename_i hs
    obtain rfl : { a with active := a.active ++ [s] } = a' := by simpa using ha
    have hb : ¬ b.active.contains s = true := by
      simp only [List.contains_iff_mem] at hs ⊢
      exact fun hmem => hs (h.active s hmem)
    refine ⟨{ b with active := b.active ++ [s] }, by simp only [hb]; rfl, h.frames, h.values, ?_⟩
    intro u hu
    simp only [List.mem_append] at hu ⊢
    exact hu.imp_left (h.active u)

end Env.Below

theorem Registry.KeptIn.sameDeclarations {r t : Registry K} (h : r.KeptIn t) :
    r.SameDeclarations t :=
  ⟨h.vars.symm, h.dexprs.symm, h.tupleSets.symm, h.params.contains⟩

/-! ## What a computation ensures -/

/-- An account of how the registry changes in the course of a computation: what holds of it all the
time, and which registries come after which. -/
structure Progress (K : Type) where
  holds : Registry K → Prop
  later : Registry K → Registry K → Prop
  refl : ∀ r, later r r
  trans : ∀ {r t u}, later r t → later t u → later r u
  kept : ∀ {r t}, holds r → later r t → holds t

/-- What is known is only added to, in a registry whose entries stand under their own symbols. -/
def Progress.keyed : Progress K where
  holds := Keyed
  later := KeptIn
  refl := .refl
  trans := .trans
  kept := Keyed.kept

/-- What is known is only added to, in a tidy registry. -/
def Progress.tidy : Progress K where
  holds := Registry.Tidy
  later := KeptIn
  refl := .refl
  trans := .trans
  kept := Registry.Tidy.kept

namespace Run

/-- A computation leads to a later registry, and what it returns has a property in every registry
that comes after that. -/
def EnsuresFrom (G : Progress K) (x : Run K α) (P : Registry K → α → Prop) : Prop :=
  ∀ ⦃s : Store K⦄ ⦃a : α⦄ ⦃s' : Store K⦄, G.holds s.registry → x.Returns s a s' →
    G.later s.registry s'.registry ∧ ∀ ⦃t : Registry K⦄, G.later s'.registry t → P t a

/-- What holds of the answers of a computation on registries whose entries stand under their own
symbols. -/
abbrev Ensures (x : Run K α) (P : Registry K → α → Prop) : Prop := x.EnsuresFrom Progress.keyed P

/-- What the first computation returns, the second one gives in every later registry. -/
abbrev Keeps (x y : Run K α) : Prop := x.Ensures fun t a => y.Gives t a

variable {G : Progress K} {P Q : Registry K → α → Prop} {x : Run K α} {f : α → Run K β}

theorem EnsuresFrom.mono (hx : x.EnsuresFrom G P) (h : ∀ t a, P t a → Q t a) :
    x.EnsuresFrom G Q := by
  intro s a s' hs hr
  obtain ⟨hlater, hP⟩ := hx hs hr
  exact ⟨hlater, fun t ht => h t a (hP ht)⟩

theorem ensures_pure {a : α} (h : ∀ t, P t a) : (pure a : Run K α).EnsuresFrom G P := by
  intro s b s' _ hr
  obtain ⟨rfl, rfl⟩ := returns_pure.1 hr
  exact ⟨G.refl _, fun t _ => h t⟩

theorem ensures_fail {c : Cause K} : (fail c : Run K α).EnsuresFrom G P :=
  fun _ _ _ _ h => absurd h not_returns_fail

theorem ensures_ofExcept {x : Except (Cause K) α} (h : ∀ a, x = .ok a → ∀ t, P t a) :
    (Run.ofExcept x).EnsuresFrom G P := by
  cases x with
  | ok a => exact ensures_pure (h a rfl)
  | error c => exact ensures_fail

/-- What the first step ensures may be assumed of the second. -/
theorem EnsuresFrom.bind {Q : Registry K → β → Prop} (hx : x.EnsuresFrom G P)
    (hf : ∀ a, (f a).EnsuresFrom G fun t b => P t a → Q t b) : (x >>= f).EnsuresFrom G Q := by
  intro s b s' hs hr
  obtain ⟨a, s₁, h₁, h₂⟩ := returns_bind.1 hr
  obtain ⟨hlater₁, hP⟩ := hx hs h₁
  obtain ⟨hlater₂, hQ⟩ := hf a (G.kept hs hlater₁) h₂
  exact ⟨G.trans hlater₁ hlater₂, fun t ht => hQ ht (hP (G.trans hlater₂ ht))⟩

/-- A step that reads the registry may use that it is an earlier one. -/
theorem ensures_registry {f : Registry K → Run K α}
    (h : ∀ r, (f r).EnsuresFrom G fun t a => G.holds r → G.later r t → P t a) :
    (registry >>= f).EnsuresFrom G P := by
  intro s a s' hs hr
  have h₂ := returns_registry_bind.1 hr
  obtain ⟨hlater, hP⟩ := h s.registry hs h₂
  exact ⟨hlater, fun t ht => hP ht hs (G.trans hlater ht)⟩

theorem ensures_mapM {P : α → Registry K → β → Prop} (as : List α)
    (hf : ∀ a, (f a).EnsuresFrom G (P a)) :
    (as.mapM f).EnsuresFrom G fun t bs => List.Forall₂ (fun a b => P a t b) as bs := by
  induction as with
  | nil =>
    exact ensures_pure fun _ => .nil
  | cons a as ih =>
    simp only [List.mapM_cons]
    exact (hf a).bind fun b => ih.bind fun bs => ensures_pure fun t hbs hb => .cons hb hbs

theorem ensures_if {c : Bool} {y : Run K α} (hx : c = true → x.EnsuresFrom G P)
    (hy : c = false → y.EnsuresFrom G P) : (if c = true then x else y).EnsuresFrom G P := by
  cases c with
  | true => exact hx rfl
  | false => exact hy rfl

/-- A computation that leads to later registries only. -/
abbrev Advances (G : Progress K) (x : Run K α) : Prop := x.EnsuresFrom G fun _ _ => True

theorem Advances.andThen (hx : x.Advances G) (hf : ∀ a, (f a).Advances G) : (x >>= f).Advances G :=
  EnsuresFrom.bind hx fun a => (hf a).mono fun _ _ _ _ => trivial

theorem advances_pure (a : α) : (pure a : Run K α).Advances G := ensures_pure fun _ => trivial

theorem advances_ofExcept (x : Except (Cause K) α) : (Run.ofExcept x).Advances G :=
  ensures_ofExcept fun _ _ _ => trivial

theorem advances_registry {f : Registry K → Run K α} (h : ∀ r, (f r).Advances G) :
    (registry >>= f).Advances G :=
  ensures_registry fun r => (h r).mono fun _ _ _ _ _ => trivial

theorem advances_warn (w : String) : (warn w : Run K Unit).Advances G := by
  intro s u s' _ hr
  obtain rfl := returns_warn.1 hr
  exact ⟨G.refl _, fun _ _ => trivial⟩

theorem advances_modifyRegistry {f : Registry K → Registry K} (h : ∀ r, G.later r (f r)) :
    (modifyRegistry f).Advances G := by
  intro s u s' _ hr
  obtain rfl := returns_modifyRegistry.1 hr
  exact ⟨h _, fun _ _ => trivial⟩

/-- What holds of the answers of a computation on tidy registries. -/
abbrev Secures (x : Run K α) (P : Registry K → α → Prop) : Prop := x.EnsuresFrom Progress.tidy P

theorem Ensures.secures (hx : x.Ensures P) : x.Secures P :=
  fun _ _ _ hs hr => hx hs.toKeyed hr

theorem Gives.kept {y : Run K α} {v : α} {t : Registry K} (hx : x.Gives t v) (ht : t.Keyed)
    (h : x.Keeps y) : y.Gives t v := by
  obtain ⟨w, hw⟩ := hx []
  exact (h (s := ⟨t, []⟩) ht hw).2 (.refl _)

end Run

variable [Scalar K]

/-! ## The lookup of what is known -/

/-- The value of a parameter, if it need not be computed. -/
def settledValue (s : String) (idx : Index K) : Run K (Value K) := do
  match (← Run.registry).params.find? s with
  | none => Run.fail (.parameterNotDeclared s)
  | some p => if p.isSettled then Run.ofExcept (p.get idx) else Run.fail .endless

/-- The elements of a domain, if they need not be computed. -/
def Domain.knownElements (d : Domain K) (env : Env K) (given : Option (Value K)) :
    Except (Cause K) (List (Value K)) :=
  match d with
  | .tuples d => .ok d.records
  | .primitive d => .ok d.elements
  | .index d => .ok (intRange d.first d.last)
  | .range d =>
    match d.knownFirst, d.knownLast with
    | some first, some last => .ok (intRange first last)
    | _, _ => .error .endless
  | .computed d => do
    let (key, _) ← memberScope d env given
    match d.known.find? key with
    | some vs => .ok vs
    | none => .error .endless

/-- The elements of a declared domain, if they need not be computed. -/
def knownElements (s : String) (env : Env K) (given : Option (Value K)) :
    Run K (List (Value K)) := do
  match (← Run.registry).domain? s with
  | none => Run.fail (.domainNotDeclared s)
  | some d => Run.ofExcept (d.knownElements env given)

/-- Lookup of what is known, through decision expressions that are nested `n` deep. -/
def known : Nat → Lookup K
  | 0 =>
    { parameter := fun _ _ => Run.fail .endless
      elements := fun _ _ _ => Run.fail .endless
      body := fun _ _ => Run.fail .endless }
  | n + 1 =>
    { parameter := settledValue
      elements := knownElements
      body := fun e env => e.number (known n) env }

theorem memberScope_below {a b : Env K} (h : a.Below b) {d : ComputedSet K}
    {given : Option (Value K)} {key : Value K} {scope : Env K}
    (hk : memberScope d a given = .ok (key, scope)) :
    ∃ scope', memberScope d b given = .ok (key, scope') := by
  simp only [memberScope] at hk ⊢
  cases ho : d.outer with
  | none =>
    simp only [ho] at hk
    cases hk
    exact ⟨_, rfl⟩
  | some outer =>
    simp only [ho, outerIndex, h.get?] at hk ⊢
    cases hv : outerIndex d outer b given with
    | error c =>
      simp only [outerIndex] at hv
      simp only [hv] at hk
      cases hk
    | ok v =>
      simp only [outerIndex] at hv
      simp only [hv] at hk ⊢
      cases hkey : v.isKey with
      | false => simp [bind, Except.bind, hkey] at hk
      | true =>
        simp only [bind, Except.bind, hkey, ↓reduceIte, pure, Except.pure, Except.ok.injEq,
          Prod.mk.injEq] at hk ⊢
        exact ⟨_, hk.1, rfl⟩

namespace Simulation

/-- The first computation only adds to what is known, and the second one finds its answer there. -/
def keeping : Simulation K where
  rel := Run.Keeps
  sees := Env.Below
  like := SameDeclarations
  isOpen := True
  ret a := ensures_pure fun _ => gives_pure.2 rfl
  seq hxy hfg := hxy.bind fun a => (hfg a).mono fun _ _ hg hy => hy.bind hg
  failure _ := ensures_fail
  warning w := by
    intro s u s' _ h
    obtain rfl := returns_warn.1 h
    exact ⟨.refl _, fun _ _ => gives_warn w _⟩
  declarations hfg := by
    intro s b s' hs h
    have hf := returns_registry_bind.1 h
    obtain ⟨h₁, _⟩ := hfg s.registry s.registry (.refl _) hs hf
    refine ⟨h₁, fun t ht => ?_⟩
    obtain ⟨_, hg⟩ := hfg s.registry t (h₁.trans ht).sameDeclarations hs hf
    exact (gives_registry.2 rfl).bind (hg ht)
  params h s := .inl (h.params s)
  tupleSets h s := .inl (by rw [h.tupleSets])
  vars _ _ _ h := h.vars
  dexprs _ _ _ h := h.dexprs
  binding := Env.Below.get?
  depth h := by simp only [Env.depth, h.frames]
  bound s v h := h.bind s v
  spawn _ _ _ := Env.Below.spawn
  assigned _ _ _ n hab := ensures_ofExcept fun _ hx _ => gives_ofExcept.2 (hab.variableValue hx)
  enter _ _ _ _ _ _ n hab hfg := by
    intro s x s' hs h
    obtain ⟨a', s₁, henter, hf⟩ := returns_bind.1 h
    obtain ⟨ha, rfl⟩ := returns_ofExcept.1 henter
    obtain ⟨b', hb, hab'⟩ := hab.enter ha
    obtain ⟨h₁, hg⟩ := hfg ha hab' hs hf
    exact ⟨h₁, fun t ht => (gives_ofExcept.2 hb).bind (hg ht)⟩

/-- The first computation leaves the registry as it is, and the second one returns the same. -/
def including : Simulation K where
  rel x y := ∀ ⦃s a s'⦄, s.registry.Keyed → x.Returns s a s' →
    s'.registry = s.registry ∧ y.Returns s a s'
  sees := Env.Below
  like := SameDeclarations
  isOpen := True
  ret a := by
    intro s b s' _ h
    obtain ⟨rfl, rfl⟩ := returns_pure.1 h
    exact ⟨rfl, h⟩
  seq hxy hfg := by
    intro s b s' hs h
    obtain ⟨a, s₁, hx, hf⟩ := returns_bind.1 h
    obtain ⟨h₁, hy⟩ := hxy hs hx
    obtain ⟨h₂, hg⟩ := hfg a (h₁ ▸ hs) hf
    exact ⟨h₂.trans h₁, returns_bind.2 ⟨a, s₁, hy, hg⟩⟩
  failure c := fun _ _ _ _ h => absurd h not_returns_fail
  warning w := by
    intro s u s' _ h
    obtain rfl := returns_warn.1 h
    exact ⟨rfl, h⟩
  declarations hfg := by
    intro s b s' hs h
    obtain ⟨r, s₁, hr, hf⟩ := returns_bind.1 h
    obtain ⟨rfl, rfl⟩ := returns_registry.1 hr
    obtain ⟨h₁, hg⟩ := hfg s.registry s.registry (.refl _) hs hf
    exact ⟨h₁, returns_bind.2 ⟨_, s, hr, hg⟩⟩
  params h s := .inl (h.params s)
  tupleSets h s := .inl (by rw [h.tupleSets])
  vars _ _ _ h := h.vars
  dexprs _ _ _ h := h.dexprs
  binding := Env.Below.get?
  depth h := by simp only [Env.depth, h.frames]
  bound s v h := h.bind s v
  spawn _ _ _ := Env.Below.spawn
  assigned _ _ _ n hab := by
    intro s x s' _ h
    obtain ⟨hx, rfl⟩ := returns_ofExcept.1 h
    exact ⟨rfl, returns_ofExcept.2 ⟨hab.variableValue hx, rfl⟩⟩
  enter _ _ _ _ _ _ n hab hfg := by
    intro s x s' hs h
    obtain ⟨a', s₁, henter, hf⟩ := returns_bind.1 h
    obtain ⟨ha, rfl⟩ := returns_ofExcept.1 henter
    obtain ⟨b', hb, hab'⟩ := hab.enter ha
    obtain ⟨h₁, hg⟩ := hfg ha hab' hs hf
    exact ⟨h₁, returns_bind.2 ⟨b', s, returns_ofExcept.2 ⟨hb, rfl⟩, hg⟩⟩

/-- A property of computations that sequencing keeps. -/
def ofProperty (P : ∀ {α : Type}, Run K α → Prop) (ret : ∀ {α : Type} (a : α), P (pure a))
    (seq : ∀ {α β : Type} {x : Run K α} {f : α → Run K β}, P x → (∀ a, P (f a)) → P (x >>= f))
    (failure : ∀ {α : Type} (c : Cause K), P (fail c : Run K α)) (warning : ∀ w, P (warn w))
    (reading : ∀ {α : Type} {f : Registry K → Run K α}, (∀ r, P (f r)) → P (registry >>= f)) :
    Simulation K where
  rel x _ := P x
  sees := Eq
  like := Eq
  isOpen := True
  ret := ret
  seq := seq
  failure := failure
  warning := warning
  declarations hf := reading fun r => hf r r rfl
  params h s := .inl (by rw [h])
  tupleSets h s := .inl (by rw [h])
  vars _ _ _ h := by rw [h]
  dexprs _ _ _ h := by rw [h]
  binding := @Env.get?_of_eq K
  depth := @Env.depth_of_eq K
  bound := @Env.bind_of_eq K
  spawn := @Env.spawn_of_eq K True
  assigned _ a _ n _ := by
    cases a.variableValue n with
    | ok x => exact ret x
    | error c => exact failure c
  enter _ _ a _ _ _ n _ hf := by
    cases ha : a.enter n with
    | ok a' => exact hf ha rfl
    | error c => exact failure c

/-- A computation that keeps an invariant of the registry. -/
def preserving (Inv : Registry K → Prop) : Simulation K :=
  ofProperty (Preserves Inv) (fun a => (steady_pure a).preserves Inv) Preserves.bind
    (fun c => (steady_fail c).preserves Inv) (fun w => (steady_warn w).preserves Inv)
    fun hf => Preserves.bind (steady_registry.preserves Inv) hf

/-- A computation that only reads the registry. -/
def steady : Simulation K :=
  ofProperty Steady steady_pure Steady.bind steady_fail steady_warn (Steady.bind steady_registry)

/-- A computation that leads to later registries. -/
def advancing (G : Progress K) : Simulation K :=
  ofProperty (Advances G) advances_pure Advances.andThen (fun _ => ensures_fail) advances_warn
    advances_registry

end Simulation

end LinearModel
