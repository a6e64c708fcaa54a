import LinearModel.Run
import Mathlib.Data.List.Forall2

/-!
# Returning

A computation that does not fail returns a value and leaves a store. The lemmas here take a
computation apart into its steps, so that later proofs never look into the monad.
-/
/-- The steps of a computation that did not fail. -/
theorem LinearModel.bind_eq_ok {ε α β : Type} {x : Except ε α} {f : α → Except ε β} {b : β} :
    (x >>= f) = .ok b ↔ ∃ a, x = .ok a ∧ f a = .ok b := by
  cases x <;> simp [bind, Except.bind]

namespace LinearModel.Run

variable {K : Type} {α β : Type} {f : α → Run K β} {s s' : Store K} {x y : Run K α} {t : Registry K}
  {a b : α} {c : Cause K} {bs : List β} {as : List α}

/-- A computation, started in a store, returns a value and leaves a store. -/
def Returns (x : Run K α) (s : Store K) (a : α) (s' : Store K) : Prop := x.start s = (.ok a, s')

/-- A computation, started in a store, fails and leaves a store. -/
def Fails (x : Run K α) (s : Store K) (f : Failure K) (s' : Store K) : Prop :=
  x.start s = (.error f, s')

/-! ## Steps -/

theorem start_bind (x : Run K α) (f : α → Run K β) (s : Store K) :
    (x >>= f).start s = match x.start s with
      | (.ok a, s') => (f a).start s'
      | (.error e, s') => (.error e, s') := by
  simp only [start, ExceptT.run_bind, StateT.run_bind]
  cases h : StateT.run (ExceptT.run x) s with
  | mk o s' => cases o <;> rfl

@[simp] theorem start_pure (a : α) (s : Store K) : (pure a : Run K α).start s = (.ok a, s) := rfl

@[simp] theorem start_fail (c : Cause K) (s : Store K) :
    (fail c : Run K α).start s = (.error { cause := c }, s) := rfl

@[simp] theorem start_registry (s : Store K) : (registry : Run K _).start s = (.ok s.registry, s) :=
  rfl

@[simp] theorem start_modifyRegistry (f : Registry K → Registry K) (s : Store K) :
    (modifyRegistry f).start s = (.ok (), { s with registry := f s.registry }) := rfl

@[simp] theorem start_warn (w : String) (s : Store K) :
    (warn w : Run K Unit).start s = (.ok (), { s with warnings := s.warnings ++ [w] }) := rfl

theorem start_mapFailure (f : Failure K → Failure K) (x : Run K α) (s : Store K) :
    (mapFailure f x).start s = match x.start s with
      | (.ok a, s') => (.ok a, s')
      | (.error e, s') => (.error (f e), s') := by
  simp only [mapFailure, start, tryCatch, tryCatchThe, MonadExceptOf.tryCatch, ExceptT.tryCatch,
    ExceptT.run, ExceptT.mk, StateT.run_bind]
  cases h : StateT.run x s with
  | mk o s' => cases o <;> rfl

/-! ## Returns, by steps -/

@[simp] theorem returns_pure : (pure a : Run K α).Returns s b s' ↔ a = b ∧ s = s' := by
  simp [Returns]

theorem returns_bind {b : β} :
    (x >>= f).Returns s b s' ↔ ∃ a s₁, x.Returns s a s₁ ∧ (f a).Returns s₁ b s' := by
  simp only [Returns, start_bind]
  cases h : x.start s with
  | mk o s₁ =>
    cases o with
    | ok a =>
      constructor
      · intro hb
        exact ⟨a, s₁, rfl, hb⟩
      · rintro ⟨c, s₂, hc, hb⟩
        cases hc
        exact hb
    | error e => simp

@[simp] theorem not_returns_fail : ¬ (fail c : Run K α).Returns s a s' := by
  simp [Returns]

@[simp] theorem returns_registry {r : Registry K} :
    (registry : Run K _).Returns s r s' ↔ s.registry = r ∧ s = s' := by
  simp [Returns]

theorem returns_registry_bind {f : Registry K → Run K α} :
    (registry >>= f).Returns s a s' ↔ (f s.registry).Returns s a s' := by
  simp [returns_bind]

theorem returns_bind_pure {f : α → β} {b : β} :
    (x >>= fun a => pure (f a)).Returns s b s' ↔ ∃ a, x.Returns s a s' ∧ f a = b := by
  simp only [returns_bind, returns_pure]
  grind

@[simp] theorem returns_modifyRegistry {f : Registry K → Registry K} {u : Unit} :
    (modifyRegistry f).Returns s u s' ↔ { s with registry := f s.registry } = s' := by
  simp [Returns]

@[simp] theorem returns_warn {w : String} {u : Unit} :
    (warn w : Run K Unit).Returns s u s' ↔ { s with warnings := s.warnings ++ [w] } = s' := by
  simp [Returns]

@[simp] theorem returns_ofExcept {x : Except (Cause K) α} :
    (ofExcept x).Returns s a s' ↔ x = .ok a ∧ s = s' := by
  cases x <;> simp [ofExcept]

@[simp] theorem returns_mapFailure {f : Failure K → Failure K} :
    (mapFailure f x).Returns s a s' ↔ x.Returns s a s' := by
  simp only [Returns, start_mapFailure]
  cases h : x.start s with
  | mk o s₁ => cases o <;> simp

theorem returns_mapM_nil : (([] : List α).mapM f).Returns s bs s' ↔ [] = bs ∧ s = s' := by
  simp

theorem returns_mapM_cons : ((a :: as).mapM f).Returns s bs s' ↔
      ∃ b s₁ cs, (f a).Returns s b s₁ ∧ (as.mapM f).Returns s₁ cs s' ∧ b :: cs = bs := by
  simp only [List.mapM_cons, returns_bind, returns_pure]
  constructor
  · rintro ⟨b, s₁, hb, cs, s₂, hcs, rfl, rfl⟩
    exact ⟨b, s₁, cs, hb, hcs, rfl⟩
  · rintro ⟨b, s₁, cs, hb, hcs, rfl⟩
    exact ⟨b, s₁, hb, cs, s', hcs, rfl, rfl⟩

theorem returns_if {c : Prop} [Decidable c] :
    (if c then x else y).Returns s a s' ↔ (c ∧ x.Returns s a s') ∨ (¬ c ∧ y.Returns s a s') := by
  by_cases h : c <;> simp [h]

theorem returns_of_toOption (h : (x.start s).1.toOption = some a) : ∃ s', x.Returns s a s' := by
  refine ⟨(x.start s).2, ?_⟩
  cases hx : (x.start s).1 with
  | error e => simp [hx, Except.toOption] at h
  | ok b =>
    obtain rfl : b = a := by simpa [hx, Except.toOption] using h
    exact Prod.ext hx rfl

/-- A computation returns at most one value. -/
theorem Returns.unique {s₁ s₂ : Store K} (h₁ : x.Returns s a s₁) (h₂ : x.Returns s b s₂) :
    a = b ∧ s₁ = s₂ := by
  have h : (Except.ok a, s₁) = (Except.ok b, s₂) := h₁.symm.trans h₂
  simpa using h

/-! ## Fails, by steps -/

@[simp] theorem not_fails_pure {f : Failure K} : ¬ (pure a : Run K α).Fails s f s' := by
  simp [Fails]

theorem fails_bind {g : α → Run K β} {f : Failure K} : (x >>= g).Fails s f s' ↔
      x.Fails s f s' ∨ ∃ a s₁, x.Returns s a s₁ ∧ (g a).Fails s₁ f s' := by
  simp only [Fails, Returns, start_bind]
  cases h : x.start s with
  | mk o s₁ =>
    cases o with
    | ok a =>
      constructor
      · intro hf
        exact .inr ⟨a, s₁, rfl, hf⟩
      · rintro (hx | ⟨c, s₂, hc, hf⟩)
        · cases hx
        · cases hc
          exact hf
    | error e => simp

@[simp] theorem fails_fail {f : Failure K} :
    (fail c : Run K α).Fails s f s' ↔ { cause := c } = f ∧ s = s' := by
  simp [Fails]

@[simp] theorem not_fails_registry {f : Failure K} : ¬ (registry : Run K _).Fails s f s' := by
  simp [Fails]

@[simp] theorem not_fails_modifyRegistry {g : Registry K → Registry K} {f : Failure K} :
    ¬ (modifyRegistry g).Fails s f s' := by
  simp [Fails]

@[simp] theorem fails_ofExcept {x : Except (Cause K) α} {f : Failure K} :
    (ofExcept x).Fails s f s' ↔ ∃ c, x = .error c ∧ { cause := c } = f ∧ s = s' := by
  cases x <;> simp [ofExcept]

@[simp] theorem fails_mapFailure {g : Failure K → Failure K} {f : Failure K} :
    (mapFailure g x).Fails s f s' ↔ ∃ e, x.Fails s e s' ∧ g e = f := by
  simp only [Fails, start_mapFailure]
  cases h : x.start s with
  | mk o s₁ =>
    cases o with
    | ok a => simp
    | error e => simp [and_comm]

theorem fails_of_toOption (h : (x.start s).1.toOption = none) : ∃ f s', x.Fails s f s' := by
  cases hx : (x.start s).1 with
  | ok a => simp [hx, Except.toOption] at h
  | error f => exact ⟨f, (x.start s).2, Prod.ext hx rfl⟩

theorem fails_if {c : Prop} [Decidable c] {f : Failure K} :
    (if c then x else y).Fails s f s' ↔ (c ∧ x.Fails s f s') ∨ (¬ c ∧ y.Fails s f s') := by
  by_cases h : c <;> simp [h]

/-! ## Answers that leave the registry as it is -/

/-- A computation gives a value in a registry and leaves the registry as it is, whatever warnings
have been issued. -/
def Gives (x : Run K α) (t : Registry K) (a : α) : Prop :=
  ∀ w, ∃ w', x.Returns ⟨t, w⟩ a ⟨t, w'⟩

/-- A computation that only reads the registry, and does not see the warnings. -/
def Steady (x : Run K α) : Prop :=
  ∀ ⦃s : Store K⦄ ⦃a : α⦄ ⦃s' : Store K⦄, x.Returns s a s' →
    s'.registry = s.registry ∧ x.Gives s.registry a

theorem Gives.unique (ha : x.Gives t a) (hb : x.Gives t b) : a = b := by
  obtain ⟨_, h₁⟩ := ha []
  obtain ⟨_, h₂⟩ := hb []
  exact (h₁.unique h₂).1

theorem Gives.bind {b : β} (hx : x.Gives t a) (hf : (f a).Gives t b) : (x >>= f).Gives t b := by
  intro w
  obtain ⟨w₁, h₁⟩ := hx w
  obtain ⟨w₂, h₂⟩ := hf w₁
  exact ⟨w₂, returns_bind.2 ⟨a, _, h₁, h₂⟩⟩

@[simp] theorem gives_pure : (pure a : Run K α).Gives t b ↔ a = b := by
  simp [Gives]

@[simp] theorem not_gives_fail : ¬ (fail c : Run K α).Gives t a := by
  simp [Gives]

@[simp] theorem gives_registry {r : Registry K} : (registry : Run K _).Gives t r ↔ t = r := by
  simp [Gives]

@[simp] theorem gives_ofExcept {x : Except (Cause K) α} : (ofExcept x).Gives t a ↔ x = .ok a := by
  simp [Gives]

theorem gives_warn (w : String) (t : Registry K) : (warn w).Gives t () := by
  intro ws
  exact ⟨_, returns_warn.2 rfl⟩

theorem steady_pure (a : α) : (pure a : Run K α).Steady := by
  intro s b s' h
  obtain ⟨rfl, rfl⟩ := returns_pure.1 h
  exact ⟨rfl, gives_pure.2 rfl⟩

theorem steady_fail (c : Cause K) : (fail c : Run K α).Steady :=
  fun _ _ _ h => absurd h not_returns_fail

theorem steady_registry : (registry : Run K _).Steady := by
  intro s r s' h
  obtain ⟨rfl, rfl⟩ := returns_registry.1 h
  exact ⟨rfl, gives_registry.2 rfl⟩

theorem steady_warn (w : String) : (warn w : Run K Unit).Steady := by
  intro s u s' h
  obtain rfl := returns_warn.1 h
  exact ⟨rfl, gives_warn w _⟩

theorem steady_ofExcept (x : Except (Cause K) α) : (ofExcept x).Steady := by
  cases x with
  | ok a => exact steady_pure a
  | error c => exact steady_fail c

theorem Steady.bind (hx : x.Steady) (hf : ∀ a, (f a).Steady) : (x >>= f).Steady := by
  intro s b s' h
  obtain ⟨a, s₁, h₁, h₂⟩ := returns_bind.1 h
  obtain ⟨hr₁, hg₁⟩ := hx h₁
  obtain ⟨hr₂, hg₂⟩ := hf a h₂
  exact ⟨hr₂.trans hr₁, hg₁.bind (hr₁ ▸ hg₂)⟩

theorem steady_mapM (as : List α) (hf : ∀ a, (f a).Steady) : (as.mapM f).Steady := by
  induction as with
  | nil =>
    exact steady_pure []
  | cons a as ih =>
    simp only [List.mapM_cons]
    exact (hf a).bind fun b => Steady.bind ih fun bs => steady_pure _

theorem steady_forM {f : α → Run K PUnit} (as : List α) (hf : ∀ a, (f a).Steady) :
    (as.forM f).Steady := by
  induction as with
  | nil => exact steady_pure ()
  | cons a as ih => exact (hf a).bind fun _ => ih

/-- What a sequence of two steps gives, step by step. -/
theorem gives_bind (hx : x.Steady) (hf : ∀ a, (f a).Steady) {b : β} :
    (x >>= f).Gives t b ↔ ∃ a, x.Gives t a ∧ (f a).Gives t b := by
  constructor
  · intro h
    obtain ⟨w, hw⟩ := h []
    obtain ⟨a, ⟨r, w₁⟩, h₁, h₂⟩ := returns_bind.1 hw
    obtain ⟨hr, hg₁⟩ := hx h₁
    obtain rfl : r = t := hr
    exact ⟨a, hg₁, (hf a h₂).2⟩
  · rintro ⟨a, h₁, h₂⟩
    exact h₁.bind h₂

theorem gives_mapM
    (h : List.Forall₂ (fun a b => (f a).Gives t b) as bs) : (as.mapM f).Gives t bs := by
  induction h with
  | nil => simp
  | cons hb _ ih =>
    simp only [List.mapM_cons]
    exact hb.bind (ih.bind (gives_pure.2 rfl))

theorem forall₂_of_gives_mapM (hf : ∀ a, (f a).Steady)
    (h : (as.mapM f).Gives t bs) : List.Forall₂ (fun a b => (f a).Gives t b) as bs := by
  induction as generalizing bs with
  | nil =>
    rw [List.mapM_nil, gives_pure] at h
    exact h ▸ .nil
  | cons a as ih =>
    rw [List.mapM_cons, gives_bind (hf a) fun _ => (steady_mapM as hf).bind fun _ => steady_pure _]
      at h
    obtain ⟨b, hb, h⟩ := h
    obtain ⟨bs, hbs, h⟩ := (gives_bind (steady_mapM as hf) fun _ => steady_pure _).1 h
    obtain rfl := gives_pure.1 h
    exact .cons hb (ih hbs)

/-- A computation that keeps an invariant of the registry. -/
def Preserves (Inv : Registry K → Prop) (x : Run K α) : Prop :=
  ∀ ⦃s : Store K⦄ ⦃a : α⦄ ⦃s' : Store K⦄, Inv s.registry → x.Returns s a s' → Inv s'.registry

theorem Preserves.bind {Inv : Registry K → Prop} (hx : Preserves Inv x)
    (hf : ∀ a, Preserves Inv (f a)) : Preserves Inv (x >>= f) := by
  intro s b s' hs h
  obtain ⟨a, s₁, h₁, h₂⟩ := returns_bind.1 h
  exact hf a (hx hs h₁) h₂

/-- From a registry with one invariant, a computation leads to a registry with another, and what it
returns has a property. -/
def Leads (Inv Inv' : Registry K → Prop) (x : Run K α) (P : α → Prop) : Prop :=
  ∀ ⦃s : Store K⦄ ⦃a : α⦄ ⦃s' : Store K⦄, Inv s.registry → x.Returns s a s' →
    Inv' s'.registry ∧ P a

section Leads

variable {Inv Inv' Inv'' : Registry K → Prop} {P : α → Prop} {Q : β → Prop}

theorem leads_pure (h : P a) : (pure a : Run K α).Leads Inv Inv P := by
  intro s b s' hs hr
  obtain ⟨rfl, rfl⟩ := returns_pure.1 hr
  exact ⟨hs, h⟩

theorem leads_fail : (fail c : Run K α).Leads Inv Inv' P :=
  fun _ _ _ _ h => absurd h not_returns_fail

theorem leads_ofExcept {x : Except (Cause K) α} (h : ∀ a, x = .ok a → P a) :
    (ofExcept x).Leads Inv Inv P := by
  cases x with
  | ok a => exact leads_pure (h a rfl)
  | error c => exact leads_fail

theorem leads_registry : (registry : Run K _).Leads Inv Inv Inv := by
  intro s r s' hs hr
  obtain ⟨rfl, rfl⟩ := returns_registry.1 hr
  exact ⟨hs, hs⟩

theorem leads_modifyRegistry {f : Registry K → Registry K} (h : ∀ r, Inv r → Inv' (f r)) :
    (modifyRegistry f).Leads Inv Inv' fun _ => True := by
  intro s u s' hs hr
  obtain rfl := returns_modifyRegistry.1 hr
  exact ⟨h _ hs, trivial⟩

theorem Leads.bind (hx : x.Leads Inv Inv' P) (hf : ∀ a, P a → (f a).Leads Inv' Inv'' Q) :
    (x >>= f).Leads Inv Inv'' Q := by
  intro s b s' hs h
  obtain ⟨a, s₁, h₁, h₂⟩ := returns_bind.1 h
  obtain ⟨hs₁, ha⟩ := hx hs h₁
  exact hf a ha hs₁ h₂

theorem Leads.mono {P' : α → Prop} (hx : x.Leads Inv Inv' P) (h : ∀ a, P a → P' a) :
    x.Leads Inv Inv' P' :=
  fun _ _ _ hs hr => (hx hs hr).imp_right (h _)

theorem leads_if {c : Prop} [Decidable c] (hx : x.Leads Inv Inv' P)
    (hy : y.Leads Inv Inv' P) : (if c then x else y).Leads Inv Inv' P := by
  split
  exacts [hx, hy]

theorem leads_mapM (as : List α) (hf : ∀ a, (f a).Leads Inv Inv Q) :
    (as.mapM f).Leads Inv Inv fun bs => ∀ b ∈ bs, Q b := by
  induction as with
  | nil =>
    exact leads_pure (by simp)
  | cons a as ih =>
    simp only [List.mapM_cons]
    refine (hf a).bind fun b hb => ih.bind fun bs hbs => leads_pure ?_
    exact List.forall_mem_cons.2 ⟨hb, hbs⟩

theorem Preserves.leads (hx : Preserves Inv x) : x.Leads Inv Inv fun _ => True :=
  fun _ _ _ hs hr => ⟨hx hs hr, trivial⟩

end Leads

theorem Steady.preserves (hx : x.Steady) (Inv : Registry K → Prop) : Preserves Inv x := by
  intro s a s' hs h
  rw [(hx h).1]
  exact hs

/-- A step before which only the registry is read. -/
theorem leads_after {Inv Inv' : Registry K → Prop} {P : β → Prop} (hx : x.Steady)
    (hf : ∀ a, (f a).Leads Inv Inv' P) : (x >>= f).Leads Inv Inv' P :=
  (Steady.preserves hx Inv).leads.bind fun a _ => hf a

/-! ## Invariants that survive a failure -/

/-- A computation that keeps an invariant of the registry, whether it returns or fails. -/
def Maintains (Inv : Registry K → Prop) (x : Run K α) : Prop :=
  ∀ ⦃s : Store K⦄, Inv s.registry → Inv (x.start s).2.registry

section Maintains

variable {Inv : Registry K → Prop} {x : Run K α} {s s' : Store K}

theorem Maintains.returns (hx : Maintains Inv x) (hs : Inv s.registry) (h : x.Returns s a s') :
    Inv s'.registry := by
  have hs' := hx hs
  rwa [h] at hs'

theorem Maintains.fails (hx : Maintains Inv x) (hs : Inv s.registry) {f : Failure K}
    (h : x.Fails s f s') : Inv s'.registry := by
  have hs' := hx hs
  rwa [h] at hs'

theorem maintains_pure (a : α) : Maintains Inv (pure a : Run K α) := fun _ hs => hs

theorem maintains_fail (c : Cause K) : Maintains Inv (fail c : Run K α) := fun _ hs => hs

theorem maintains_registry : Maintains Inv (registry : Run K _) := fun _ hs => hs

theorem maintains_warn (w : String) : Maintains Inv (warn w : Run K Unit) := fun _ hs => hs

theorem maintains_ofExcept (x : Except (Cause K) α) : Maintains Inv (ofExcept x) := by
  cases x with
  | ok a => exact maintains_pure a
  | error c => exact maintains_fail c

theorem maintains_mapFailure (f : Failure K → Failure K) (hx : Maintains Inv x) :
    Maintains Inv (mapFailure f x) := by
  intro s hs
  have hs' := hx hs
  rw [start_mapFailure]
  cases h : x.start s with
  | mk o s₁ =>
    rw [h] at hs'
    cases o <;> exact hs'

theorem Maintains.bind (hx : Maintains Inv x) (hf : ∀ a, Maintains Inv (f a)) :
    Maintains Inv (x >>= f) := by
  intro s hs
  have hs₁ := hx hs
  rw [start_bind]
  cases h : x.start s with
  | mk o s₁ =>
    rw [h] at hs₁
    cases o with
    | ok a => exact hf a hs₁
    | error e => exact hs₁

theorem Maintains.registry_bind {f : Registry K → Run K α}
    (h : ∀ r, Inv r → Maintains Inv (f r)) : Maintains Inv (registry >>= f) :=
  fun s hs => h s.registry hs hs

theorem maintains_mapM {f : β → Run K α} (hf : ∀ b, Maintains Inv (f b)) (bs : List β) :
    Maintains Inv (bs.mapM f) := by
  induction bs with
  | nil => exact maintains_pure []
  | cons b bs ih =>
    rw [List.mapM_cons]
    exact (hf b).bind fun _ => Maintains.bind ih fun _ => maintains_pure _

end Maintains

end LinearModel.Run
