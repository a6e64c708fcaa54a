import LinearModel.Proofs.Declared

/-!
# Evaluating again

An undefined number does not equal itself, so a member of a family of sets at an undefined index is
never found again, and is computed anew each time. The registry then changes even though nothing
new is learned. What holds in any arithmetic is that an evaluation returns the same when it is
repeated, and leads on to later registries. All that is needed is that equality is one that only
ever relates values to values that equal themselves.
-/
namespace LinearModel

open Run Simulation Registry Progress

variable {K : Type} {α β : Type}

/-- Started in a registry, a computation returns a value and leads to a later registry, whatever
warnings have been issued. -/
def Run.Repeats (x : Run K α) (t : Registry K) (a : α) : Prop :=
  ∀ w, ∃ s', x.Returns ⟨t, w⟩ a s' ∧ t.KeptIn s'.registry

namespace Run

variable {t : Registry K} {a : α}

theorem repeats_pure : (pure a : Run K α).Repeats t a :=
  fun w => ⟨⟨t, w⟩, returns_pure.2 ⟨rfl, rfl⟩, .refl t⟩

theorem Gives.repeats {x : Run K α} (h : x.Gives t a) : x.Repeats t a := by
  intro w
  obtain ⟨w', hw'⟩ := h w
  exact ⟨_, hw', .refl t⟩

theorem Repeats.unique {x : Run K α} {b : α} (ha : x.Repeats t a) (hb : x.Repeats t b) : a = b := by
  obtain ⟨_, ha, _⟩ := ha []
  obtain ⟨_, hb, _⟩ := hb []
  exact (ha.unique hb).1

/-- The second step may rely on what holds in all later registries. -/
theorem Repeats.bind {x : Run K α} {f : α → Run K β} {b : β} (hx : x.Repeats t a)
    (hf : ∀ u, t.KeptIn u → (f a).Repeats u b) : (x >>= f).Repeats t b := by
  intro w
  obtain ⟨s₁, h₁, hkept₁⟩ := hx w
  obtain ⟨s₂, h₂, hkept₂⟩ := hf s₁.registry hkept₁ s₁.warnings
  exact ⟨s₂, returns_bind.2 ⟨a, s₁, h₁, h₂⟩, hkept₁.trans hkept₂⟩

/-- A computation on each element of a list, where each may be repeated in all later registries. -/
theorem repeats_mapM {f : α → Run K β} {as : List α} {bs : List β}
    (h : ∀ u, t.KeptIn u → List.Forall₂ (fun a b => (f a).Repeats u b) as bs) :
    (as.mapM f).Repeats t bs := by
  induction as generalizing t bs with
  | nil =>
    cases h t (.refl t)
    exact repeats_pure
  | cons a as ih =>
    obtain ⟨b, bs', hb, hbs, rfl⟩ := List.forall₂_cons_left_iff.1 (h t (.refl t))
    rw [List.mapM_cons]
    refine hb.bind fun u hu => Repeats.bind (ih fun v hv => ?_) fun _ _ => repeats_pure
    exact (List.forall₂_cons.1 (h v (hu.trans hv))).2

end Run

/-- Whether a symbol names a family of sets. -/
def Registry.isFamily (t : Registry K) (symbol : String) : Bool :=
  match t.domain? symbol with
  | some (.computed d) => d.outer.isSome
  | _ => false

theorem Registry.KeptIn.isFamily {r t : Registry K} (h : r.KeptIn t) {symbol : String}
    (ht : t.isFamily symbol = false) : r.isFamily symbol = false := by
  cases hd : r.domain? symbol with
  | none => simp [Registry.isFamily, hd]
  | some d =>
    obtain ⟨e, he, hde⟩ := h.domain hd
    cases hde with
    | @computed d e hde =>
      have houter : e.outer = none := by simpa [Registry.isFamily, he] using ht
      have houter' : d.outer = none := by
        rw [← hde.declaration]
        exact houter
      simp [Registry.isFamily, hd, houter']
    | _ => simp [Registry.isFamily, hd]

variable [Scalar K]

/-- The first computation only adds to what is known, and the second one returns the same in every
later registry. -/
def Simulation.repeatingFrom (G : Progress K) (hG : ∀ {r t}, G.later r t ↔ r.KeptIn t) :
    Simulation K where
  rel x y := x.EnsuresFrom G fun t a => y.Repeats t a
  sees := Eq
  like := SameDeclarations
  isOpen := True
  ret a := ensures_pure fun _ => repeats_pure
  seq hxy hfg := by
    intro s b s' hs h
    obtain ⟨a, s₁, hx, hf⟩ := returns_bind.1 h
    obtain ⟨h₁, hy⟩ := hxy hs hx
    obtain ⟨h₂, hg⟩ := hfg a (G.kept hs h₁) hf
    refine ⟨G.trans h₁ h₂, fun t ht => (hy (G.trans h₂ ht)).bind fun u hu => ?_⟩
    exact hg (G.trans ht (hG.2 hu))
  failure _ := ensures_fail
  warning w := by
    intro s u s' _ h
    obtain rfl := returns_warn.1 h
    exact ⟨G.refl _, fun t _ => (gives_warn w t).repeats⟩
  declarations hfg := by
    intro s b s' hs h
    have hf := returns_registry_bind.1 h
    obtain ⟨h₁, _⟩ := hfg s.registry s.registry (.refl _) hs hf
    refine ⟨h₁, fun t ht w => ?_⟩
    obtain ⟨_, hg⟩ := hfg s.registry t (hG.1 (G.trans h₁ ht)).sameDeclarations hs hf
    obtain ⟨s'', hs'', hkept⟩ := hg ht w
    exact ⟨s'', returns_bind.2 ⟨_, _, returns_registry.2 ⟨rfl, rfl⟩, hs''⟩, hkept⟩
  params h s := .inl (h.params s)
  tupleSets h s := .inl (by rw [h.tupleSets])
  vars _ _ _ h := h.vars
  dexprs _ _ _ h := h.dexprs
  binding := @Env.get?_of_eq K
  depth := @Env.depth_of_eq K
  bound := @Env.bind_of_eq K
  spawn := @Env.spawn_of_eq K True
  assigned _ a b n hab := by
    subst hab
    exact ensures_ofExcept fun x hx t => (gives_ofExcept.2 hx).repeats
  enter _ _ a b f g n hab hfg := by
    subst hab
    intro s x s' hs h
    obtain ⟨a', s₁, henter, hf⟩ := returns_bind.1 h
    obtain ⟨ha, rfl⟩ := returns_ofExcept.1 henter
    obtain ⟨h₁, hg⟩ := hfg ha rfl hs hf
    refine ⟨h₁, fun t ht => (gives_ofExcept.2 ha).repeats.bind fun u hu => ?_⟩
    exact hg (G.trans ht (hG.2 hu))

/-- What the first computation returns, the second one returns in every later registry whose entries
stand under their own symbols. -/
abbrev Simulation.repeating : Simulation K := .repeatingFrom keyed Iff.rfl

variable {L M : Lookup K}

/-- A lookup whose answers are repeated leads to later registries. -/
theorem Simulation.Lookups.advances (hL : repeating.Lookups L M) :
    (Simulation.advancing Progress.keyed).Lookups L L where
  parameter s idx := EnsuresFrom.mono (hL.parameter s idx) fun _ _ _ => trivial
  elements s given hab := by
    subst hab
    exact EnsuresFrom.mono (hL.elements s given rfl) fun _ _ _ => trivial
  body _ _ _ e hab := by
    subst hab
    exact EnsuresFrom.mono (hL.body trivial e rfl) fun _ _ _ => trivial

/-! ## Parameters and domains -/

theorem parameterValue_repeats (hL : Simulation.repeating.Lookups L M) (symbol : String)
    (idx : Index K) : (parameterValue L symbol idx).Ensures fun t v =>
      (parameterValue M symbol idx).Repeats t v := by
  intro s v s' hs h
  obtain ⟨hkept, p, hp, hsettled, hv⟩ := parameterValue_settles hL.advances hs h
  refine ⟨hkept, fun t ht w => ?_⟩
  obtain ⟨q, hq, hpq⟩ := ht.params.find hp
  obtain rfl := hpq.settled hsettled
  have hknown : (settledValue symbol idx).Returns ⟨t, w⟩ v ⟨t, w⟩ := by
    simp [settledValue, returns_bind, hq, hsettled, hv]
  have hkeyed := hs.kept (hkept.trans ht)
  exact ⟨_, (settledValue_included symbol idx hkeyed hknown).2, .refl t⟩

/-- A member of a comprehension is found again, or is computed again. -/
theorem memberElements_repeats (hself : ∀ {v w : Value K}, (v == w) = true → (w == w) = true)
    (hL : repeating.Lookups L M) {d : ComputedSet K} {env : Env K}
    {given : Option (Value K)} {s s' : Store K} {vs : List (Value K)} (hs : s.registry.Keyed)
    (hd : s.registry.computedSets.find? d.symbol = some d)
    (h : (memberElements L d env given).Returns s vs s') :
    s.registry.KeptIn s'.registry ∧ ∀ {t : Registry K} {e : ComputedSet K}, s'.registry.KeptIn t →
      t.computedSets.find? d.symbol = some e → (memberElements M e env given).Repeats t vs := by
  simp only [memberElements, returns_bind, returns_ofExcept] at h
  obtain ⟨⟨key, scope⟩, _, ⟨hscope, rfl⟩, h⟩ := h
  have hfound : ∀ {t : Registry K} {e : ComputedSet K}, d.KeptIn e → e.known.find? key = some vs →
      (memberElements M e env given).Repeats t vs := by
    intro t e hde hknown
    have hsame : memberScope e env given = .ok (key, scope) := by
      rw [← hscope, ← hde.declaration]
      rfl
    refine Gives.repeats (Gives.bind (gives_ofExcept.2 hsame) ?_)
    simp only [hknown]
    exact gives_pure.2 rfl
  cases hknown : d.known.find? key with
  | some ws =>
    simp only [hknown, returns_pure] at h
    obtain ⟨rfl, rfl⟩ := h
    refine ⟨.refl _, fun {t e} ht he => ?_⟩
    obtain ⟨e', he', hde⟩ := ht.computedSets.find hd
    obtain rfl := Option.some.inj (he.symm.trans he')
    exact hfound hde (hde.find hknown)
  | none =>
    simp only [hknown, returns_bind, returns_modifyRegistry, returns_pure] at h
    obtain ⟨ws, s₁, hcomputed, _, _, rfl, rfl, rfl⟩ := h
    obtain ⟨hkept, hagain⟩ := members hL trivial d rfl hs hcomputed
    have hs₁ := hs.kept hkept
    refine ⟨hkept.changeMembers hs₁ hd fun e he => he.insert ws hknown, fun {t e} ht he => ?_⟩
    obtain ⟨e₁, he₁, hde₁⟩ := hkept.computedSets.find hd
    by_cases hkey : (key == key) = true
    · -- the member has been entered, and is found
      have he₂ : (s₁.registry.changeMembers d.symbol fun d =>
          { d with known := d.known.insert key ws }).computedSets.find? d.symbol =
          some { e₁ with known := e₁.known.insert key ws } := by
        simp [find?_changeMembers hs₁, he₁]
      obtain ⟨e', he', hkept'⟩ := ht.computedSets.find he₂
      obtain rfl := Option.some.inj (he.symm.trans he')
      exact hfound ((hde₁.insert ws hknown).trans hkept')
        (hkept'.find (Table.find?_insert_of_beq hkey _ _))
    · -- no entry is ever found under the key, so the member is computed again
      have hmissing : ∀ f : ComputedSet K, f.known.find? key = none := by
        intro f
        refine Option.eq_none_iff_forall_ne_some.2 fun us hus => hkey ?_
        obtain ⟨k, _, hk⟩ := Table.exists_of_find? hus
        exact hself hk
      have hlater : s₁.registry.KeptIn t :=
        ((KeptIn.refl _).changeMembers hs₁ he₁ fun f hf =>
          hf.insert ws (hmissing e₁)).trans ht
      obtain ⟨e', he', hde'⟩ := (hkept.trans hlater).computedSets.find hd
      obtain rfl := Option.some.inj (he.symm.trans he')
      have hsame : memberScope e env given = .ok (key, scope) := by
        rw [← hscope, ← hde'.declaration]
        rfl
      have hcomprehend : comprehend M e scope = comprehend M d scope := by
        rw [← hde'.declaration]
        rfl
      refine (gives_ofExcept.2 hsame).repeats.bind fun u hu => ?_
      simp only [hmissing e, hcomprehend]
      refine (hagain (hlater.trans hu)).bind fun v hv w => ?_
      refine ⟨_, returns_bind.2 ⟨(), _, returns_modifyRegistry.2 rfl, returns_pure.2 ⟨rfl, rfl⟩⟩,
        ?_⟩
      obtain ⟨f, hf, _⟩ := ((hlater.trans hu).trans hv).computedSets.find he₁
      have hsymbol : e.symbol = d.symbol := by
        rw [← hde'.declaration]
      rw [hsymbol]
      exact (KeptIn.refl v).changeMembers ((hs₁.kept hlater).kept (hu.trans hv)) hf
        fun g hg => hg.insert ws (hmissing f)

/-- The elements of a domain are listed again. -/
theorem domainElements_repeats (hself : ∀ {v w : Value K}, (v == w) = true → (w == w) = true)
    (hL : Simulation.repeating.Lookups L M) (symbol : String) (given : Option (Value K))
    (env : Env K) : (domainElements L symbol env given).Ensures fun t vs =>
      (domainElements M symbol env given).Repeats t vs := by
  intro s vs s' hs h
  by_cases hcomputed : ∃ d, s.registry.domain? symbol = some (.computed d)
  · obtain ⟨d, hd⟩ := hcomputed
    rw [returns_domainElements_computed hd] at h
    have hfound := find?_of_domain?_computed hd
    obtain rfl := hs.computedSets hfound
    obtain ⟨hkept, hagain⟩ := memberElements_repeats hself hL hs hfound h
    refine ⟨hkept, fun t ht w => ?_⟩
    obtain ⟨_, he, ⟨⟩⟩ := (hkept.trans ht).domain hd
    simp only [returns_domainElements_computed (s := ⟨t, w⟩) he]
    exact hagain ht (find?_of_domain?_computed he) w
  · obtain ⟨hkept, d, hd, hvs⟩ := domainElements_known hL.advances hs (not_exists.1 hcomputed) h
    refine ⟨hkept, fun t ht w => ?_⟩
    have hkeyed : t.Keyed := hs.kept (hkept.trans ht)
    obtain ⟨w', hw'⟩ := gives_knownElements ht hd (.refl env) hvs w
    exact ⟨_, (knownElements_included symbol given (.refl env) hkeyed hw').2, .refl t⟩

/-- The members of a comprehension that is no family are known once they have been listed. -/
theorem memberElements_known (hL : (advancing keyed).Lookups L L) {d : ComputedSet K} {env : Env K}
    {given : Option (Value K)} {s s' : Store K} {vs : List (Value K)} (hs : s.registry.Keyed)
    (hd : s.registry.computedSets.find? d.symbol = some d) (houter : d.outer = none)
    (h : (memberElements L d env given).Returns s vs s') :
    ∃ e, s'.registry.computedSets.find? d.symbol = some e ∧ e.outer = none ∧
      e.known.find? .null = some vs := by
  simp only [memberElements, memberScope, houter, returns_bind, returns_ofExcept] at h
  obtain ⟨_, _, ⟨⟨⟩, rfl⟩, h⟩ := h
  cases hknown : d.known.find? .null with
  | some ws =>
    simp only [hknown, returns_pure] at h
    obtain ⟨rfl, rfl⟩ := h
    exact ⟨d, hd, houter, hknown⟩
  | none =>
    simp only [hknown, returns_bind, returns_modifyRegistry, returns_pure] at h
    obtain ⟨ws, s₁, hcomputed, _, _, rfl, rfl, rfl⟩ := h
    obtain ⟨hkept, -⟩ := members hL trivial d rfl hs hcomputed
    obtain ⟨e, he, hde⟩ := hkept.computedSets.find hd
    have houter' : e.outer = none := by
      rw [← houter, ← hde.declaration]
    have hinserted : (s₁.registry.changeMembers d.symbol fun d =>
        { d with known := d.known.insert .null ws }).computedSets.find? d.symbol =
        some { e with known := e.known.insert .null ws } := by
      simp [find?_changeMembers (hs.kept hkept), he]
    have hnull : ((.null : Value K) == .null) = true := by
      simp only [BEq.beq, Value.beq]
    exact ⟨_, hinserted, houter', Table.find?_insert_of_beq hnull _ _⟩

/-- The elements of a domain that is no family are known in every environment once they have been
listed in one. -/
theorem domainElements_plain (hself : ∀ {v w : Value K}, (v == w) = true → (w == w) = true)
    (hL : repeating.Lookups L M) {symbol : String} {env : Env K} {s s' : Store K}
    {vs : List (Value K)} (hs : s.registry.Keyed) (hplain : s.registry.isFamily symbol = false)
    (h : (domainElements L symbol env none).Returns s vs s') :
    ∃ d, s'.registry.domain? symbol = some d ∧ ∀ env, d.knownElements env none = .ok vs := by
  obtain ⟨hkept, -⟩ := domainElements_repeats hself hL symbol none env hs h
  cases hd : s.registry.domain? symbol with
  | none => simp [domainElements, returns_bind, hd] at h
  | some d =>
    obtain ⟨d', hd', hdd'⟩ := hkept.domain hd
    refine ⟨d', hd', fun env' => ?_⟩
    cases hdd' with
    | @computed d e =>
      rw [returns_domainElements_computed hd] at h
      have hfound := find?_of_domain?_computed hd
      obtain rfl := hs.computedSets hfound
      have houter : d.outer = none := by simpa [isFamily, hd] using hplain
      obtain ⟨e', he', houter', hknown⟩ := memberElements_known hL.advances hs hfound houter h
      obtain rfl := Option.some.inj ((find?_of_domain?_computed hd').symm.trans he')
      simp [Domain.knownElements, memberScope, houter', hknown, bind, Except.bind]
    | _ =>
      obtain ⟨-, e, he, hvs⟩ := domainElements_known hL.advances hs (by simp [hd]) h
      obtain rfl := Option.some.inj (hd'.symm.trans he)
      exact hvs

/-! ## Evaluation -/

/-- Whatever evaluation looks up, it looks up again. -/
theorem lookup_repeats (hself : ∀ {v w : Value K}, (v == w) = true → (w == w) = true) (n : Nat) :
    repeating.Lookups (lookup n) (lookup n : Lookup K) := by
  induction n with
  | zero => exact ⟨fun _ _ => ensures_fail, fun _ _ _ => ensures_fail,
      fun _ _ _ _ _ => ensures_fail⟩
  | succ n ih =>
    refine ⟨parameterValue_repeats ih, fun s given hab => ?_, fun _ _ ho e hab => ?_⟩
    · subst hab
      exact domainElements_repeats hself ih s given _
    · exact exprNumber ih e hab

/-- A domain that is no family is looked up with the same elements in every environment. -/
theorem lookup_plain (hself : ∀ {v w : Value K}, (v == w) = true → (w == w) = true) (n : Nat)
    {symbol : String} {env : Env K} {s s' : Store K} {vs : List (Value K)} (hs : s.registry.Keyed)
    (hplain : s.registry.isFamily symbol = false)
    (h : ((lookup n).elements symbol env none).Returns s vs s') {t : Registry K}
    (ht : s'.registry.KeptIn t) (env' : Env K) :
    ((lookup n).elements symbol env' none).Repeats t vs := by
  obtain ⟨hkept, -⟩ := (lookup_repeats hself n).elements symbol none rfl hs h
  cases n with
  | zero => simp [lookup] at h
  | succ n =>
    obtain ⟨d, hd, hknown⟩ := domainElements_plain hself (lookup_repeats hself n) hs hplain h
    intro w
    obtain ⟨w', hw'⟩ := gives_knownElements ht hd (.refl env') (hknown env') w
    have hkeyed : t.Keyed := hs.kept (hkept.trans ht)
    exact ⟨_, (knownElements_included symbol none (.refl env') hkeyed hw').2, .refl t⟩

/-- Later registries have the same lookup. -/
theorem Simulation.repeatingFrom_lookup {G : Progress K} (hG : ∀ {r t}, G.later r t ↔ r.KeptIn t)
    {f : Lookup K → Run K α} (hf : ∀ n, (repeatingFrom G hG).rel (f (lookup n)) (f (lookup n))) :
    (repeatingFrom G hG).rel (Run.lookup >>= f) (Run.lookup >>= f) := by
  simp only [Run.lookup, bind_assoc, pure_bind]
  refine ensures_registry fun r => (hf _).mono fun t x h _ ht w => ?_
  obtain ⟨s', hs', hkept⟩ := h w
  exact ⟨s', returns_bind.2 ⟨t, _, returns_registry.2 ⟨rfl, rfl⟩, (hG.1 ht).lookup ▸ hs'⟩, hkept⟩

theorem Simulation.repeating_lookup {f : Lookup K → Run K α}
    (hf : ∀ n, repeating.rel (f (lookup n)) (f (lookup n))) :
    repeating.rel (Run.lookup >>= f) (Run.lookup >>= f) :=
  repeatingFrom_lookup Iff.rfl hf

/-- An expression that evaluates has the same value whenever it is evaluated again. -/
theorem Expr.evaluate_repeats (hself : ∀ {v w : Value K}, (v == w) = true → (w == w) = true)
    (e : Expr K) (env : Env K) : repeating.rel (e.evaluate env) (e.evaluate env) :=
  repeating_lookup fun n => exprNumber (lookup_repeats hself n) e rfl

/-! ## Problems that are reached -/

namespace Registry

variable {r t : Registry K}

theorem renewed_keyed : Renewed (K := K) Keyed Keyed where
  stored _ _ hr := hr.putParameter _
  elements _ hr := hr.putDomain _
  records _ hr := hr.putDomain _
  forgotten hr := hr.invalidate

end Registry

section Reached

variable (hself : ∀ {v w : Value K}, (v == w) = true → (w == w) = true)

include hself

theorem lookup_advances (n : Nat) :
    (Simulation.advancing Progress.keyed).Lookups (lookup n) (lookup n : Lookup K) :=
  (lookup_repeats hself n).advances

/-- Listing the references of statements only adds to what is known. -/
theorem referencesOf_advances (stmts : List (Statement K)) : (referencesOf stmts).Advances keyed :=
  (Judgement.Sound.referencesOf (fun _ => Judgement.any_sound (lookup_advances hself _)
    fun h => h.dexprs) stmts).mono fun _ _ _ => trivial

theorem Expr.evaluateValue_advances (e : Expr K) (env : Env K) :
    (e.evaluateValue env).Advances keyed := by
  simp only [Expr.evaluateValue, Run.lookup, bind_assoc, pure_bind]
  exact advances_registry fun r => exprValue (lookup_advances hself _) e rfl

theorem resolveDomain_advances (symbol : String) (env : Env K) (given : Option (Value K)) :
    (resolveDomain symbol env given).Advances keyed := by
  simp only [resolveDomain, Run.lookup, bind_assoc, pure_bind]
  exact advances_registry fun r => (lookup_advances hself _).elements symbol given rfl

theorem Registry.keyed_keptByEvaluation : KeptByEvaluation (Keyed (K := K)) where
  value e _ _ _ hs h := hs.kept (e.evaluateValue_advances hself _ hs h).1
  elements symbol _ _ _ hs h := hs.kept (resolveDomain_advances hself symbol _ _ hs h).1

/-- In every problem that is reached, entries stand under their own symbols. -/
theorem Registry.keyed_lasts : Lasts (K := K) Keyed where
  empty := isSound_empty.toKeyed
  read textual text s stmt s' hs h := by
    have hInv : ReadsTo (K := K) Keyed Keyed Expr.Indexed := by
      refine ⟨keyed_keptByEvaluation hself, fun ht => ht, fun ht _ hdeclare => ?_⟩
      unfold declare at hdeclare
      split at hdeclare
      · cases hdeclare
      · cases hdeclare
        exact ht.put _
    exact (parseStatement_leads hInv (forms_indexed _) rfl hs h).1
  data hx _ _ _ hs h := (hx.leads renewed_keyed hs h).1
  value e env _ _ _ hs h := hs.kept (e.evaluateValue_advances hself env hs h).1
  references _ _ _ _ hs h := hs.kept (referencesOf_advances hself _ hs h).1

theorem Problem.Reached.keyed {p : Problem K} (h : p.Reached) : p.registry.Keyed :=
  h.keeps (keyed_lasts hself)

end Reached

theorem Registry.isSound_lasts [ReflBEq (Value K)] : Lasts (K := K) IsSound where
  empty := isSound_empty
  read _ _ _ _ _ hs h := (parseStatement_settles hs h).1
  data hx _ _ _ hs h := (hx.leads renewed_isSound hs.isConsistent h).1
  value e env _ _ _ hs h := hs.kept (evaluateValue_ensures e env hs.toKeyed h).1
  references _ _ _ _ hs h := hs.kept (referencesOf_advances (fun _ => BEq.rfl) _ hs.toKeyed h).1

/-- Every problem that is reached has a sound registry. -/
theorem Problem.Reached.isSound [ReflBEq (Value K)] {p : Problem K} (h : p.Reached) :
    p.registry.IsSound :=
  h.keeps isSound_lasts

end LinearModel
