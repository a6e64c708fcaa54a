import LinearModel.Proofs.Staleness
import LinearModel.Proofs.Linearization

/-!
# Histories

What a registry has computed so far depends on what it was asked. Two registries that are current
for the same declarations answer alike: whatever is evaluated in both of them, if it gives an answer
in both, then the same.

Expressions of data are evaluated in any environment, also inside of decision expressions. What is
being looked into there makes no difference, because data does not mention decision expressions.
-/
namespace LinearModel

open Run Simulation

variable {K : Type} {α β γ δ : Type}

/-! ## Data inside of decision expressions -/

/-- The bindings of an environment, and nothing else of it. -/
def Env.bare (env : Env K) : Env K := { frames := env.frames }

variable [Scalar K] {given : Option (Value K)} {r : Registry K}

/-- Computations that do the same in every state of a registry. -/
def Simulation.forgetting (r : Registry K) : Simulation K where
  rel x y := Maintains (·.IsStateOf r) x ∧ ∀ ⦃s⦄, s.registry.IsStateOf r → x.start s = y.start s
  sees a b := a.frames = b.frames
  like t t' := t.IsStateOf r ∧ t = t'
  isOpen := False
  ret a := ⟨maintains_pure a, fun _ _ => rfl⟩
  seq hxy hfg := by
    refine ⟨hxy.1.bind fun a => (hfg a).1, fun s hs => ?_⟩
    have hs₁ := hxy.1 hs
    rw [start_bind, start_bind, ← hxy.2 hs]
    split
    · rename_i a s₁ hx
      rw [hx] at hs₁
      exact (hfg a).2 hs₁
    · rfl
  failure c := ⟨maintains_fail c, fun _ _ => rfl⟩
  warning w := ⟨maintains_warn w, fun _ _ => rfl⟩
  declarations hfg :=
    ⟨fun s hs => (hfg s.registry s.registry ⟨hs, rfl⟩).1 hs, fun s hs =>
      (hfg s.registry s.registry ⟨hs, rfl⟩).2 hs⟩
  params h s := .inl (by rw [h.2])
  tupleSets h s := .inl (by rw [h.2])
  vars := False.elim
  dexprs := False.elim
  binding h s := by simp only [Env.get?, h]
  depth h := by simp only [Env.depth, h]
  bound s v h := by simp only [Env.bind, h]
  spawn := False.elim
  assigned := False.elim
  enter := False.elim

/-- The member of a comprehension depends on its outer index only. -/
theorem memberScope_outer {a b : Env K} {d : ComputedSet K}
    (houter : ∀ outer, d.outer = some outer →
      outerIndex d outer b given = outerIndex d outer a given) :
    (∃ c, memberScope d a given = .error c ∧ memberScope d b given = .error c) ∨
      ∃ key scope scope', memberScope d a given = .ok (key, scope) ∧
        memberScope d b given = .ok (key, scope') ∧ (forgetting r).comparison.Meets
          a.active (d.outer.toList.map Iter.symbol) scope scope' := by
  simp only [memberScope]
  cases hd : d.outer with
  | none => exact .inr ⟨.null, a.spawn, b.spawn, rfl, rfl, rfl, rfl, Env.binds_nil _⟩
  | some outer =>
    simp only [houter outer hd]
    cases outerIndex d outer a given with
    | error c => exact .inl ⟨c, rfl, rfl⟩
    | ok v =>
      simp only [bind, Except.bind]
      split
      · exact .inr ⟨v, _, _, rfl, rfl, rfl, rfl, (Env.binds_nil _).bind _ _⟩
      · exact .inl ⟨_, rfl, rfl⟩

section Forgetting

variable {r : Registry K} {L : Lookup K} (hL : (forgetting r).Lookups L L) {a b : Env K}

/-- Noting something that has been computed does the same in every environment. -/
theorem forgetting_note {f : Registry K → Registry K}
    (h : r.unrestricted.Rel (modifyRegistry f) (modifyRegistry f)) :
    (forgetting r).rel (modifyRegistry f) (modifyRegistry f) :=
  ⟨h.maintains, fun _ _ => rfl⟩

include hL

theorem rangeElements_forgets {d : BoundRange K} (hd : (Domain.range d).isData = true) :
    (forgetting r).rel (rangeElements L d a) (rangeElements L d b) :=
  Comparison.rangeElements hL.compared (meets (a := a.spawn) (b := b.spawn) rfl)
    (allows (.inr (Domain.isData_mentions hd))) (fun ht => by rw [ht.2])
    fun _ hf => forgetting_note (Regime.rel_changeRange (fun _ => trivial) hf)

theorem memberElements_forgets {d : ComputedSet K} (hd : (Domain.computed d).isData = true)
    (houter : ∀ outer, d.outer = some outer →
      outerIndex d outer b given = outerIndex d outer a given) :
    (forgetting r).rel (memberElements L d a given) (memberElements L d b given) :=
  Comparison.memberElements hL.compared (memberScope_outer houter)
    (allows (.inr (Domain.isData_mentions hd)))
    fun _ hf => forgetting_note (Regime.rel_changeMembers (fun _ => trivial) hf)

/-- The elements of a domain depend on the bindings of an environment only. -/
theorem domainElements_forgets (hdata : r.IsData) (symbol : String) (given : Option (Value K))
    (hab : a.frames = b.frames) : (forgetting r).rel (domainElements L symbol a given)
      (domainElements L symbol b given) := by
  have hisData : ∀ {t t' d}, (forgetting r).like t t' → t.domain? symbol = some d →
      d.isData = true := fun ht hd =>
    (Registry.isData_invalidate.1 (ht.1.same ▸ Registry.isData_invalidate.2 hdata)).domains hd
  refine Comparison.domainElements (R := (forgetting r).comparison)
    (fun ht => by rw [ht.2]) (fun ht hd => rangeElements_forgets hL (hisData ht hd)) fun ht hd => ?_
  exact memberElements_forgets hL (hisData ht hd) fun outer _ => by
    simp only [outerIndex, Env.get?, hab]

end Forgetting

/-- Data is looked up alike in all environments with the same bindings. -/
theorem lookup_forgets (hdata : r.IsData) (n : Nat) :
    (forgetting r).Lookups (lookup n) (lookup n : Lookup K) := by
  induction n with
  | zero =>
    exact ⟨fun _ _ => (forgetting r).failure _,
      fun _ _ _ => (forgetting r).failure _, False.elim⟩
  | succ n ih =>
    refine ⟨fun symbol idx => ⟨?_, fun _ _ => rfl⟩, fun {a b} symbol given hab => ?_, False.elim⟩
    · have hlookups := r.single_unrestricted.lookups (n + 1)
      exact (hlookups.parameter (A := []) symbol idx trivial).maintains
    · exact domainElements_forgets ih hdata symbol given hab

/-! ## Computations that agree -/

/-- A registry in which everything computed is what it amounts to, and nothing is half computed. -/
structure Registry.UpToDate (r B : Registry K) : Prop where
  current : r.CurrentFor B
  tidy : r.Tidy

namespace Run

/-- From any two registries that are up to date, what two computations return is related, and the
registries they leave are up to date. -/
def Agrees (B : Registry K) (P : α → β → Prop) (x : Run K α) (y : Run K β) : Prop :=
  ∀ ⦃s t : Store K⦄ ⦃a : α⦄ ⦃b : β⦄ ⦃s' t' : Store K⦄, s.registry.UpToDate B →
    t.registry.UpToDate B → x.Returns s a s' → y.Returns t b t' →
      s'.registry.UpToDate B ∧ t'.registry.UpToDate B ∧ P a b

variable {B : Registry K} {P : α → β → Prop} {Q : γ → δ → Prop} {x : Run K α} {y : Run K β}

theorem agrees_pure {a : α} {b : β} (h : P a b) : Agrees B P (pure a : Run K α) (pure b) := by
  intro s t _ _ _ _ hs ht hx hy
  obtain ⟨rfl, rfl⟩ := returns_pure.1 hx
  obtain ⟨rfl, rfl⟩ := returns_pure.1 hy
  exact ⟨hs, ht, h⟩

theorem agrees_fail (c : Cause K) (y : Run K β) : Agrees B P (fail c : Run K α) y :=
  fun _ _ _ _ _ _ _ _ h _ => absurd h not_returns_fail

theorem agrees_ofExcept {x : Except (Cause K) α} {y : Except (Cause K) β}
    (h : ∀ a b, x = .ok a → y = .ok b → P a b) :
    Agrees B P (Run.ofExcept x : Run K α) (Run.ofExcept y) := by
  intro s t a b _ _ hs ht hx hy
  obtain ⟨ha, rfl⟩ := returns_ofExcept.1 hx
  obtain ⟨hb, rfl⟩ := returns_ofExcept.1 hy
  exact ⟨hs, ht, h a b ha hb⟩

theorem Agrees.bind {f : α → Run K γ} {g : β → Run K δ}
    (h : Agrees B P x y) (hfg : ∀ a b, P a b → Agrees B Q (f a) (g b)) :
    Agrees B Q (x >>= f) (y >>= g) := by
  intro s t _ _ _ _ hs ht hx hy
  obtain ⟨a, s₁, hx, hf⟩ := returns_bind.1 hx
  obtain ⟨b, t₁, hy, hg⟩ := returns_bind.1 hy
  obtain ⟨hs₁, ht₁, hab⟩ := h hs ht hx hy
  exact hfg a b hab hs₁ ht₁ hf hg

theorem Agrees.mono {P' : α → β → Prop} (h : Agrees B P x y)
    (hP : ∀ a b, P a b → P' a b) : Agrees B P' x y := by
  intro s t a b s' t' hs ht hx hy
  obtain ⟨hs', ht', hab⟩ := h hs ht hx hy
  exact ⟨hs', ht', hP a b hab⟩

theorem agrees_registry {f : Registry K → Run K α} {g : Registry K → Run K β}
    (h : ∀ r t, r.UpToDate B → t.UpToDate B → Agrees B P (f r) (g t)) :
    Agrees B P (registry >>= f) (registry >>= g) := by
  intro s t _ _ _ _ hs ht hx hy
  have hf := returns_registry_bind.1 hx
  obtain ⟨r', t₁, hr', hg⟩ := returns_bind.1 hy
  obtain ⟨rfl, rfl⟩ := returns_registry.1 hr'
  exact h _ _ hs ht hs ht hf hg

theorem agrees_mapM {f : γ → Run K α} {g : γ → Run K β} (cs : List γ)
    (h : ∀ c ∈ cs, Agrees B P (f c) (g c)) : Agrees B (List.Forall₂ P) (cs.mapM f) (cs.mapM g) := by
  induction cs with
  | nil => exact agrees_pure .nil
  | cons c cs ih =>
    rw [List.forall_mem_cons] at h
    simp only [List.mapM_cons]
    exact h.1.bind fun a b hab => (ih h.2).bind fun as bs hbs => agrees_pure (.cons hab hbs)

theorem agrees_mapFailure (h : Agrees B P x y)
    (f g : Failure K → Failure K) : Agrees B P (mapFailure f x) (mapFailure g y) :=
  fun _ _ _ _ _ _ hs ht hx hy => h hs ht (returns_mapFailure.1 hx) (returns_mapFailure.1 hy)

theorem agrees_steady (hx : x.Steady) (hy : y.Steady) : Agrees B (fun _ _ => True) x y := by
  intro s t a b s' t' hs ht ha hb
  rw [(hx ha).1, (hy hb).1]
  exact ⟨hs, ht, trivial⟩

end Run

/-- Computations that return the same in all registries that are up to date. -/
def Simulation.agreeing (B : Registry K) : Simulation K where
  rel x y := Run.Agrees B Eq x y
  sees := Eq
  like r t := r.UpToDate B ∧ t.UpToDate B
  isOpen := True
  ret a := agrees_pure rfl
  seq hxy hfg := hxy.bind fun a b hab => hab ▸ hfg a
  failure c := agrees_fail c _
  warning w := by
    intro s t _ _ _ _ hs ht hx hy
    obtain rfl := returns_warn.1 hx
    obtain rfl := returns_warn.1 hy
    exact ⟨hs, ht, rfl⟩
  declarations hfg := agrees_registry fun r t hr ht => hfg r t ⟨hr, ht⟩
  params h s := .inl
    ((h.1.current.sameSight.params s).symm.trans (h.2.current.sameSight.params s))
  tupleSets h s := .inl (by
    rw [← h.1.current.sameSight.tupleSets, ← h.2.current.sameSight.tupleSets])
  vars _ r t h := by
    have hr := congrArg Registry.vars h.1.current.base
    have ht := congrArg Registry.vars h.2.current.base
    exact hr.trans ht.symm
  dexprs _ r t h := by
    have hr := congrArg Registry.dexprs h.1.current.base
    have ht := congrArg Registry.dexprs h.2.current.base
    exact hr.trans ht.symm
  binding := @Env.get?_of_eq K
  depth := @Env.depth_of_eq K
  bound := @Env.bind_of_eq K
  spawn := @Env.spawn_of_eq K True
  assigned _ a b n h := by
    subst h
    exact agrees_ofExcept fun x y hx hy => Except.ok.inj (hx.symm.trans hy)
  enter _ _ a b f g s h hfg := by
    subst h
    cases ha : a.enter s with
    | ok a' => exact hfg ha rfl
    | error c => exact agrees_fail c _

/-! ## Looking up -/

/-- Registries that are current for the same declarations have the same lookup. -/
theorem Registry.CurrentFor.lookup {r B : Registry K} (h : r.CurrentFor B) :
    r.lookup = B.lookup := by
  have hsize : r.size = r.invalidate.size := by
    simp [Registry.size, Registry.invalidate, Table.map, Table.size]
  rw [Registry.lookup, hsize, h.base, Registry.lookup]

section Lookups

variable {B : Registry K} (hB : B.Keyed) (hdata : B.IsData) (hfamilies : B.FamiliesAgree)

include hB hdata hfamilies

/-- An answer that a question gets in a current registry is the one that it means. -/
theorem resolving_returns (n : Nat) {q : Question K} (hq : q.IsPlain) {s s' : Store K}
    {a : q.Answer} (hs : s.registry.CurrentFor B) (h : (resolving n q).Returns s a s') :
    B.meant (fun _ => False) q = .ok a ∧ s'.registry.CurrentFor B := by
  have hstart : (resolving n q).start s = (.ok a, s') := h
  obtain ⟨hcurrent, hamounts⟩ := resolving_amounts hB hdata hfamilies n hq hs
  rw [hstart] at hamounts hcurrent
  exact ⟨(hamounts (ends_ok a)).meant_eq hB hdata hq, hcurrent⟩

variable [ReflBEq (Value K)]

/-- The value of a parameter is the one that it means. -/
theorem lookup_parameter_returns (n : Nat) {symbol : String} {idx : Index K} {v : Value K}
    {s s' : Store K} (hs : s.registry.UpToDate B)
    (h : ((lookup n).parameter symbol idx).Returns s v s') : s'.registry.UpToDate B ∧
      ∃ p, B.meant (fun _ => False) (.parameter symbol) = .ok p ∧ p.get idx = .ok v := by
  have hkept := ((lookup_keeps n).parameter symbol idx hs.tidy.toKeyed h).1
  rw [(lookup_asks n).parameter] at h
  obtain ⟨p, s₁, hp, h⟩ := returns_bind.1 h
  obtain ⟨hv, rfl⟩ := returns_ofExcept.1 h
  obtain ⟨hmeant, hcurrent⟩ :=
    resolving_returns hB hdata hfamilies n (q := .parameter symbol) trivial hs.current hp
  exact ⟨⟨hcurrent, hs.tidy.kept hkept⟩, p, hmeant, hv⟩

/-- The elements of a domain are those that it means, at the bindings of the environment. -/
theorem lookup_elements_returns (n : Nat) {symbol : String} {env : Env K} {vs : List (Value K)}
    {s s' : Store K} (hs : s.registry.UpToDate B)
    (h : ((lookup n).elements symbol env given).Returns s vs s') : s'.registry.UpToDate B ∧
      B.meant (fun _ => False) (.elements symbol env.bare given) = .ok vs := by
  have hisData : s.registry.IsData := Registry.isData_invalidate.1 (hs.current.base ▸ hdata)
  have hkept := ((lookup_keeps n).elements symbol given (.refl env) hs.tidy.toKeyed h).1
  have hbare : ((lookup n).elements symbol env.bare given).Returns s vs s' :=
    (((lookup_forgets hisData n).elements (a := env) (b := env.bare) symbol given rfl).2
      ⟨hs.tidy.toKeyed, rfl⟩).symm.trans h
  rw [(lookup_asks n).elements] at hbare
  obtain ⟨hmeant, hcurrent⟩ := resolving_returns hB hdata hfamilies n
    (q := .elements symbol env.bare given) rfl hs.current hbare
  exact ⟨⟨hcurrent, hs.tidy.kept hkept⟩, hmeant⟩

/-- Whatever is looked up in two registries that are up to date, the answers are the same. -/
theorem lookup_agrees (n : Nat) : (agreeing B).Lookups (lookup n) (lookup n) := by
  induction n with
  | zero =>
    exact ⟨fun _ _ => agrees_fail _ _, fun _ _ _ => agrees_fail _ _,
      fun _ _ _ _ _ => agrees_fail _ _⟩
  | succ n ih =>
    refine ⟨fun symbol idx => ?_, fun {a b} symbol given hab => ?_, fun _ _ _ e hab => ?_⟩
    · intro s t v w s' t' hs ht hv hw
      obtain ⟨hs', p, hp, hv⟩ := lookup_parameter_returns hB hdata hfamilies (n + 1) hs hv
      obtain ⟨ht', q, hq, hw⟩ := lookup_parameter_returns hB hdata hfamilies (n + 1) ht hw
      obtain rfl : p = q := Except.ok.inj (hp.symm.trans hq)
      exact ⟨hs', ht', Except.ok.inj (hv.symm.trans hw)⟩
    · subst hab
      intro s t vs ws s' t' hs ht hvs hws
      obtain ⟨hs', hvs⟩ := lookup_elements_returns hB hdata hfamilies (n + 1) hs hvs
      obtain ⟨ht', hws⟩ := lookup_elements_returns hB hdata hfamilies (n + 1) ht hws
      exact ⟨hs', ht', Except.ok.inj (hvs.symm.trans hws)⟩
    · exact exprNumber ih e hab

end Lookups

/-- Computations through the lookup of the registry agree if they do through the same lookup. -/
theorem agrees_lookup {B : Registry K} {P : α → β → Prop} {f : Lookup K → Run K α}
    {g : Lookup K → Run K β} (h : Agrees B P (f B.lookup) (g B.lookup)) :
    Agrees B P (Run.lookup >>= f) (Run.lookup >>= g) := by
  simp only [Run.lookup, bind_assoc, pure_bind]
  refine agrees_registry fun r t hr ht => ?_
  rw [hr.current.lookup, ht.current.lookup]
  exact h

end LinearModel
