import LinearModel.Proofs.Histories
import LinearModel.Proofs.Untouched

/-!
# Replaying an evaluation

An evaluation that is started again from where it ended finds what it has computed, and comes to the
same end. If it returned, it may be started from any registry that knows as much. If it failed, what
was being computed then is not known, and is computed again.

This is so where no definition leads back to itself. What is entered while a definition is evaluated
is then something else than what the definition stands for.
-/
namespace LinearModel

open Run Registry Simulation Table Parameter

variable {K : Type} {α β : Type} [Scalar K] {q : Parameter K} {d : ComputedSet K} {s : Store K}
  {e : Expr K}

/-! ## What is known -/

/-- Something that a registry may have computed. -/
inductive Fact (K : Type) where
  | first (symbol : String) (i : Int)
  | last (symbol : String) (i : Int)
  | members (symbol : String) (key : Value K) (vs : List (Value K))
  | values (symbol : String) (p : Parameter K)

namespace Registry

/-- A registry has computed something. -/
def Knows (r : Registry K) : Fact K → Prop
  | .first s i => (r.boundRanges.find? s).bind (·.knownFirst) = some i
  | .last s i => (r.boundRanges.find? s).bind (·.knownLast) = some i
  | .members s key vs => (r.computedSets.find? s).bind (·.known.find? key) = some vs
  | .values s p => r.params.find? s = some p ∧ p.isSettled = true

/-- Everything that one registry has computed, the other one has. -/
def KnownIn (r t : Registry K) : Prop := ∀ f, r.Knows f → t.Knows f

variable {r t u : Registry K}

theorem KnownIn.refl (r : Registry K) : r.KnownIn r := fun _ hf => hf

theorem KnownIn.trans (h : r.KnownIn t) (h' : t.KnownIn u) : r.KnownIn u :=
  fun f hf => h' f (h f hf)

/-- A registry from which a computation can be started again that ended in another one. It knows as
much, and not more if the computation failed. -/
structure After (a : Except (Failure K) α) (r t : Registry K) : Prop where
  within : r.KnownIn t
  failed : ∀ f, a = .error f → t.KnownIn r

theorem knows_putParameter {f : Fact K} (hf : ∀ p, f ≠ .values q.symbol p) :
    (r.putParameter q).Knows f ↔ r.Knows f := by
  rcases f with ⟨s, i⟩ | ⟨s, i⟩ | ⟨s, key, vs⟩ | ⟨s, p⟩
  iterate 3 exact .rfl
  have hs : q.symbol ≠ s := fun h => hf p (by rw [h])
  simp only [Knows, putParameter, find?_insert_of_ne _ _ hs]

/-- Changing a parameter that is not settled. -/
theorem knownIn_putParameter {p : Parameter K} (hp : r.params.find? q.symbol = some p)
    (hopen : p.isSettled = false) : r.KnownIn (r.putParameter q) := fun f hf => by
  refine (knows_putParameter fun p' hf' => ?_).2 hf
  subst hf'
  obtain rfl : p = p' := Option.some.inj (hp.symm.trans hf.1)
  exact absurd hf.2 (by simp [hopen])

/-- A parameter that is not settled adds nothing to what is known. -/
theorem putParameter_knownIn (hopen : q.isSettled = false) :
    (r.putParameter q).KnownIn r := fun f hf => by
  refine (knows_putParameter fun p' hf' => ?_).1 hf
  subst hf'
  obtain rfl : q = p' := Option.some.inj ((find?_insert_self _ _ _).symm.trans hf.1)
  exact absurd hf.2 (by simp [hopen])

/-- Noting something about a range. -/
theorem knownIn_changeRange (hr : r.Keyed) {s : String} {d : BoundRange K}
    {f : BoundRange K → BoundRange K} (hd : r.boundRanges.find? s = some d)
    (hfirst : ∀ i, d.knownFirst = some i → (f d).knownFirst = some i)
    (hlast : ∀ i, d.knownLast = some i → (f d).knownLast = some i) :
    r.KnownIn (r.changeRange s f) := by
  have hfind := find?_changeRange hr s f
  rw [hd, Option.map_some] at hfind
  -- one end of a range
  have hend : ∀ {known : BoundRange K → Option Int} {s' : String} {i : Int},
      (∀ i, known d = some i → known (f d) = some i) →
      (r.boundRanges.find? s').bind known = some i →
      ((r.changeRange s f).boundRanges.find? s').bind known = some i := by
    intro known s' i hkept hi
    by_cases hs : s' = s
    · subst hs
      rw [hd, Option.bind_some] at hi
      rw [hfind, Option.bind_some]
      exact hkept i hi
    · rwa [(sameAt_changeRange (m := .domain s') hr f (by simpa using hs)).1]
  rintro (⟨s', i⟩ | ⟨s', i⟩ | ⟨s', key, vs⟩ | ⟨s', p⟩) hf
  · exact hend hfirst hf
  · exact hend hlast hf
  · simpa only [Knows, changeRange, hd] using hf
  · simpa only [Knows, params_changeRange] using hf

/-- Changing the members that are known of a comprehension. -/
theorem knownIn_changeMembers (hr : r.Keyed) {s : String}
    {f : ComputedSet K → ComputedSet K} (hd : r.computedSets.find? s = some d) :
    ((∀ key vs, d.known.find? key = some vs → (f d).known.find? key = some vs) →
      r.KnownIn (r.changeMembers s f)) ∧
    ((∀ key vs, (f d).known.find? key = some vs → d.known.find? key = some vs) →
      (r.changeMembers s f).KnownIn r) := by
  have hfind := find?_changeMembers hr s f
  have hother : ∀ g, (∀ key vs, g ≠ .members s key vs) →
      ((r.changeMembers s f).Knows g ↔ r.Knows g) := by
    rintro (⟨s', i⟩ | ⟨s', i⟩ | ⟨s', key, vs⟩ | ⟨s', p⟩) hg
    · simp only [Knows, changeMembers, hd]
    · simp only [Knows, changeMembers, hd]
    · have hs : s' ≠ s := fun h => hg key vs (by rw [h])
      simp only [Knows, (sameAt_changeMembers (m := .domain s') hr f (by simpa using hs)).2]
    · simp only [Knows, params_changeMembers]
  refine ⟨fun hkept g hg => ?_, fun hkept g hg => ?_⟩ <;>
    by_cases hmembers : ∃ key vs, g = .members s key vs
  · obtain ⟨key, vs, rfl⟩ := hmembers
    simp only [Knows, hd, hfind, Option.bind_some] at hg ⊢
    exact hkept key vs hg
  · exact (hother g fun key vs hg => hmembers ⟨key, vs, hg⟩).2 hg
  · obtain ⟨key, vs, rfl⟩ := hmembers
    simp only [Knows, hd, hfind, Option.bind_some] at hg ⊢
    exact hkept key vs hg
  · exact (hother g fun key vs hg => hmembers ⟨key, vs, hg⟩).1 hg

end Registry

/-! ## Computations that can be started again -/

namespace Run

/-- A computation that has led from one store to another: started again from there, a computation
comes to the same end and to nothing new. Unfinished things that are the same at the beginning are
the same at the end. -/
structure ReplaysAt (B : Registry K) (same : Registry K → Registry K → Prop) (y : Run K α)
    (s : Store K) (a : Except (Failure K) α) (s' : Store K) : Prop where
  state : s'.registry.IsStateOf B
  within : s.registry.KnownIn s'.registry
  draft : same s'.registry s'.registry
  again : ∀ ⦃t : Store K⦄, t.registry.IsStateOf B → same s.registry t.registry →
    s'.registry.After a t.registry → ∃ t', y.start t = (a, t') ∧ t'.registry.IsStateOf B ∧
      t.registry.KnownIn t'.registry ∧ t'.registry.KnownIn t.registry ∧ same s'.registry t'.registry

/-- Started again from where the first computation ends, the second one ends alike. -/
def Replays (B : Registry K) (same : Registry K → Registry K → Prop) (x y : Run K α) : Prop :=
  ∀ ⦃s : Store K⦄, s.registry.IsStateOf B → same s.registry s.registry →
    ReplaysAt B same y s (x.start s).1 (x.start s).2

/-- A computation that ends alike when it is started again from where it ended. -/
abbrev Repeatable (B : Registry K) (x : Run K α) : Prop := Replays B (fun _ _ => True) x x

variable {B : Registry K} {same : Registry K → Registry K → Prop}

/-- A computation that changes nothing. -/
theorem ReplaysAt.still {y : Run K α} {a : Except (Failure K) α}
    (hs : s.registry.IsStateOf B) (hsame : same s.registry s.registry)
    (hy : ∀ ⦃t : Store K⦄, t.registry.IsStateOf B → same s.registry t.registry →
      s.registry.After a t.registry → ∃ w, y.start t = (a, ⟨t.registry, w⟩)) :
    ∀ w, ReplaysAt B same y s a ⟨s.registry, w⟩ := fun w =>
  { state := hs
    within := .refl _
    draft := hsame
    again := fun t ht hst hafter => by
      obtain ⟨w', hw'⟩ := hy ht hst hafter
      exact ⟨_, hw', ht, .refl _, .refl _, hst⟩ }

theorem replays_pure (a : α) : Replays B same (pure a : Run K α) (pure a) :=
  fun s hs hsame => ReplaysAt.still hs hsame (fun t _ _ _ => ⟨t.warnings, rfl⟩) s.warnings

theorem replays_fail (c : Cause K) : Replays B same (fail c : Run K α) (fail c) :=
  fun s hs hsame => ReplaysAt.still hs hsame (fun t _ _ _ => ⟨t.warnings, rfl⟩) s.warnings

theorem replays_warn (w : String) : Replays B same (warn w) (warn w) :=
  fun _ hs hsame => ReplaysAt.still hs hsame (fun _ _ _ _ => ⟨_, rfl⟩) _

theorem Replays.bind {x y : Run K α} {f g : α → Run K β} (hxy : Replays B same x y)
    (hfg : ∀ a, Replays B same (f a) (g a)) : Replays B same (x >>= f) (y >>= g) := by
  intro s hs hsame
  have hx := hxy hs hsame
  rw [start_bind]
  cases hstart : x.start s with
  | mk a s₁ =>
    rw [hstart] at hx
    cases a with
    | error e =>
      refine { hx with again := fun t ht hst hafter => ?_ }
      have hafter' : s₁.registry.After (.error e : Except (Failure K) α) t.registry :=
        ⟨hafter.within, fun f _ => hafter.failed e rfl⟩
      obtain ⟨t', hy, hrest⟩ := hx.again ht hst hafter'
      exact ⟨t', by rw [start_bind, hy], hrest⟩
    | ok a =>
      have hf := hfg a hx.state hx.draft
      refine ⟨hf.state, hx.within.trans hf.within, hf.draft, fun t ht hst hafter => ?_⟩
      have hafter₁ : s₁.registry.After (.ok a : Except (Failure K) α) t.registry :=
        ⟨hf.within.trans hafter.within, nofun⟩
      obtain ⟨t₁, hy, ht₁, hwithin, hwithin', hst₁⟩ := hx.again ht hst hafter₁
      obtain ⟨t₂, hg, ht₂, hwithin₂, hwithin₂', hst₂⟩ := hf.again ht₁ hst₁
        ⟨hafter.within.trans hwithin, fun e he => hwithin'.trans (hafter.failed e he)⟩
      exact ⟨t₂, by rw [start_bind, hy]; exact hg, ht₂, hwithin.trans hwithin₂,
        hwithin₂'.trans hwithin', hst₂⟩

theorem Replays.congr {x y : Run K α} (h : Replays B same y y)
    (hxy : ∀ t : Store K, t.registry.IsStateOf B → x.start t = y.start t) : Replays B same x x := by
  intro s hs hsame
  rw [hxy s hs]
  have hy := h hs hsame
  refine { hy with again := fun t ht hst hafter => ?_ }
  rw [hxy t ht]
  exact hy.again ht hst hafter

theorem replays_registry {f g : Registry K → Run K α}
    (h : ∀ r t, r.IsStateOf B ∧ t.IsStateOf B → Replays B same (f r) (g t)) :
    Replays B same (registry >>= f) (registry >>= g) := by
  intro s hs hsame
  have hf := h s.registry s.registry ⟨hs, hs⟩ hs hsame
  exact { hf with
    again := fun t ht hst hafter =>
      (h s.registry t.registry ⟨hs, ht⟩ hs hsame).again ht hst hafter }

end Run

/-- Computations on data that can be started again. -/
def Simulation.replaying (B : Registry K) (same : Registry K → Registry K → Prop) :
    Simulation K where
  rel := Replays B same
  sees := Eq
  like r t := r.IsStateOf B ∧ t.IsStateOf B
  isOpen := False
  ret := replays_pure
  seq := Replays.bind
  failure := replays_fail
  warning := replays_warn
  declarations := replays_registry
  params h s := .inl (by
    rw [← (sameSight_invalidate _).params, h.1.same, ← h.2.same, (sameSight_invalidate _).params])
  tupleSets h s := .inl (by
    rw [← (sameSight_invalidate _).tupleSets, h.1.same, ← h.2.same,
      (sameSight_invalidate _).tupleSets])
  vars := False.elim
  dexprs := False.elim
  binding := @Env.get?_of_eq K
  depth := @Env.depth_of_eq K
  bound := @Env.bind_of_eq K
  spawn := @Env.spawn_of_eq K False
  assigned := False.elim
  enter := False.elim

/-- Computations on data that end alike when they are started again. -/
abbrev Simulation.restarting (B : Registry K) : Simulation K := .replaying B fun _ _ => True

/-! ## Parameters -/

/-- A computation that leaves a parameter alone can be started again while it is being computed. -/
theorem Run.Replays.tracking {B : Registry K} {x : Run K α} (hx : Repeatable B x)
    (p : Parameter K) (hstill : ∀ r₀, Maintains (B.StillAt r₀ (.parameter p.symbol)) x) :
    Replays B (SameDraft p) x x := by
  have hfind : ∀ {s : Store K}, s.registry.IsStateOf B →
      (x.start s).2.registry.params.find? p.symbol = s.registry.params.find? p.symbol :=
    fun {s} hs => (hstill s.registry ⟨hs, .refl _ _⟩).same
  intro s hs hdraft
  have hreplays := hx hs trivial
  refine ⟨hreplays.state, hreplays.within, ?_, fun t ht hst hafter => ?_⟩
  · obtain ⟨q, hpq, hq, hfound, -⟩ := hdraft
    exact ⟨q, hpq, hq, (hfind hs).trans hfound, (hfind hs).trans hfound⟩
  · obtain ⟨t', hstart, ht', hwithin, hwithin', -⟩ := hreplays.again ht trivial hafter
    obtain ⟨q, hpq, hq, hfound, hfound'⟩ := hst
    refine ⟨t', hstart, ht', hwithin, hwithin', q, hpq, hq, (hfind hs).trans hfound, ?_⟩
    have hsame := hfind ht
    rw [hstart] at hsame
    exact hsame.trans hfound'

section Parameters

variable {B : Registry K} {p : Parameter K} {n : Nat}

omit [Scalar K] in
/-- A derived parameter is not settled before its definition has been evaluated. -/
theorem Regime.Derives.unsettled {W : Regime K} (hp : W.Derives p) (hpq : p.SameDeclaration q)
    (hq : q.isDefined = false) : q.isSettled = false := by
  obtain ⟨e, he⟩ := Option.isSome_iff_exists.1 hp.1
  simp [isSettled, hpq.definition, he, hq]

/-- Writing to an unfinished parameter. -/
theorem writing_replays (hp : B.unrestricted.Derives p) (place : Option (Index K)) (v : Value K) :
    Replays B (SameDraft p) (writing p.symbol place v) (writing p.symbol place v) := by
  rintro s hs ⟨q, hpq, hq, hfind, -⟩
  simp only [writing, start_bind, start_registry, hfind]
  cases hwrite : q.write place v with
  | error e =>
    refine ReplaysAt.still hs ⟨q, hpq, hq, hfind, hfind⟩ (fun t ht hst _ => ?_) s.warnings
    obtain ⟨q', _, _, hs', ht'⟩ := hst
    obtain rfl : q = q' := Option.some.inj (hfind.symm.trans hs')
    exact ⟨t.warnings, by simp [start_bind, ht', hwrite, Run.ofExcept]⟩
  | ok q' =>
    obtain ⟨hqq', hdefined⟩ := write_ok hwrite
    have hpq' := hpq.trans hqq'
    have hq' : q'.isDefined = false := hdefined.trans hq
    have hput : ∀ {r : Registry K}, r.IsStateOf B → r.params.find? p.symbol = some q →
        (r.putParameter q').IsStateOf B ∧ r.KnownIn (r.putParameter q') ∧
          (r.putParameter q').KnownIn r := fun {r} hr hfind => by
      obtain ⟨hkeyed, hsame, -⟩ := hp.put hr.keyed hr.same hfind hpq hqq'
      exact ⟨⟨hkeyed, hsame⟩, knownIn_putParameter (hpq'.symbol ▸ hfind) (hp.unsettled hpq hq),
        putParameter_knownIn (hp.unsettled hpq' hq')⟩
    obtain ⟨hstate, hwithin, -⟩ := hput hs hfind
    refine ⟨hstate, hwithin, sameDraft_putParameter hpq' hq' _ _, fun t ht hst _ => ?_⟩
    obtain ⟨q₁, _, _, hs₁, ht₁⟩ := hst
    obtain rfl : q = q₁ := Option.some.inj (hfind.symm.trans hs₁)
    obtain ⟨hstate', hwithin', hwithin''⟩ := hput ht ht₁
    refine ⟨⟨t.registry.putParameter q', t.warnings⟩, ?_, hstate', hwithin', hwithin'',
      sameDraft_putParameter hpq' hq' _ _⟩
    simp [start_bind, ht₁, hwrite, Run.ofExcept]

/-- While a parameter is being computed, what does not lead to it can be computed again. -/
theorem lookup_tracks (hdata : B.IsData)
    (hL : (restarting B).Lookups (lookup n) (lookup n)) (p : Parameter K) :
    ((replaying B (SameDraft p)).sparing B (.parameter p.symbol)).Lookups (lookup n)
      (lookup n) where
  parameter s idx hs := (hL.parameter s idx).tracking p fun r₀ =>
    (lookup_spares hdata r₀ _ n).parameter (A := []) s idx hs
  elements {a b} s given hab hs := by
    obtain rfl : a = b := hab
    exact (hL.elements s given rfl).tracking p fun r₀ =>
      (lookup_spares hdata r₀ _ n).elements s given rfl hs
  body hab _ _ := hab.entered.choose_spec.2.2.1.elim

/-- Filling in the values of a parameter that is not settled. -/
theorem fillParameter_replays (hdata : B.IsData) (hg : B.IsGrounded)
    (hL : (restarting B).Lookups (lookup n) (lookup n))
    (hp : B.unrestricted.Derives p) (he : p.definition = some e) :
    Replays B (SameDraft p) (fillParameter (lookup n) p e) (fillParameter (lookup n) p e) := by
  have hfind : B.mentionsOf (.parameter p.symbol) = { p with definition := some e }.mentions := by
    have hbase : B.invalidate.params.find? p.symbol = some p.clear := hp.2
    rw [← B.mentionsOf_invalidate, mentionsOf, hbase, Option.elim_some, mentions_clear, ← he]
  exact Comparison.fillParameter (lookup_tracks hdata hL p) ⟨rfl, rfl, Env.binds_nil _⟩
    (hfind ▸ sparing_allows hdata (x := .parameter p.symbol) trivial (hg.spares trivial) [])
    (writing_replays hp)

/-- The store in which the values of a parameter are struck out. -/
def Store.strikeOut (s : Store K) (p : Parameter K) : Store K :=
  { s with registry := s.registry.putParameter { p with value := none, values := empty } }

/-- A parameter that is not settled is computed from the beginning. -/
theorem start_settledParameter_blank {L : Lookup K} (he : p.definition = some e)
    (hopen : p.isDefined = false) {t : Store K} (hq : t.registry.params.find? p.symbol = some q)
    (hpq : p.SameDeclaration q) (hqopen : q.isDefined = false) :
    (settledParameter L p.symbol).start t = (do
      fillParameter L p e
      modifyRegistry (·.closeParameter p.symbol)
      registeredParameter p.symbol : Run K (Parameter K)).start (t.strikeOut p) := by
  rw [start_settledParameter_open hq (hpq.definition.trans he) hqopen,
    draftParameter_congr L e hpq (hqopen.trans hopen.symm), draftParameter_eq, hpq.symbol,
    bind_assoc,
    start_bind, start_modifyRegistry]
  rfl

/-- Striking out the values of a parameter that is not settled changes nothing that is known. -/
theorem strikeOut_replays (hp : B.unrestricted.Derives p) (hopen : p.isDefined = false)
    {t : Store K} (ht : t.registry.IsStateOf B) (hq : t.registry.params.find? p.symbol = some q)
    (hpq : p.SameDeclaration q) (hqopen : q.isDefined = false) :
    (t.strikeOut p).registry.IsStateOf B ∧ t.registry.KnownIn (t.strikeOut p).registry ∧
      (t.strikeOut p).registry.KnownIn t.registry := by
  have hstruck : p.SameDeclaration { p with value := none, values := empty } := rfl
  obtain ⟨hkeyed, hsame, -⟩ := hp.put ht.keyed ht.same hq hpq (hpq.symm.trans hstruck)
  refine ⟨⟨hkeyed, hsame⟩, knownIn_putParameter hq (hp.unsettled hpq hqopen), ?_⟩
  exact putParameter_knownIn (hp.unsettled hstruck hopen)

omit [Scalar K] in
theorem sameDraft_strikeOut (hopen : p.isDefined = false) (s t : Store K) :
    SameDraft p (s.strikeOut p).registry (t.strikeOut p).registry := by
  have hstruck : p.SameDeclaration { p with value := none, values := empty } := rfl
  exact sameDraft_putParameter hstruck hopen _ _

theorem openParameter_replays (hdata : B.IsData) (hg : B.IsGrounded)
    (hL : (restarting B).Lookups (lookup n) (lookup n))
    (hs : s.registry.IsStateOf B) (hp : s.registry.params.find? p.symbol = some p)
    (he : p.definition = some e) (hopen : p.isDefined = false) :
    ReplaysAt B (fun _ _ => True) (settledParameter (lookup n) p.symbol) s
      ((settledParameter (lookup n) p.symbol).start s).1
      ((settledParameter (lookup n) p.symbol).start s).2 := by
  have hderives : B.unrestricted.Derives p := .of_find hs.keyed hs.same hp (by simp [he])
  obtain ⟨hs₀, hwithin, -⟩ := strikeOut_replays hderives hopen hs hp rfl hopen
  have hfill := fillParameter_replays hdata hg hL hderives he hs₀ (sameDraft_strikeOut hopen s s)
  rw [start_settledParameter_blank he hopen hp rfl hopen, start_bind]
  cases hstart : (fillParameter (lookup n) p e).start (s.strikeOut p) with
  | mk a s₁ =>
    rw [hstart] at hfill
    obtain ⟨q₁, hpq₁, hq₁, hfound, -⟩ := hfill.draft
    cases a with
    | error c =>
      refine ⟨hfill.state, hwithin.trans hfill.within, trivial, fun t ht _ hafter => ?_⟩
      obtain ⟨q, hq, hpq⟩ := hderives.find ht.same
      have hqopen : q.isDefined = false := by
        refine Bool.eq_false_iff.2 fun hdefined => ?_
        have hknown := hafter.failed c rfl (.values p.symbol q)
          ⟨hq, by simp [isSettled, hdefined]⟩
        obtain rfl : q₁ = q := Option.some.inj (hfound.symm.trans hknown.1)
        exact absurd hdefined (by simp [hq₁])
      obtain ⟨ht₀, hwithin₀, hwithin₀'⟩ := strikeOut_replays hderives hopen ht hq hpq hqopen
      obtain ⟨t', hstart', ht', hwithin', hwithin'', -⟩ := hfill.again ht₀
        (sameDraft_strikeOut hopen s t)
        ⟨hafter.within.trans hwithin₀, fun f _ => hwithin₀'.trans (hafter.failed c rfl)⟩
      refine ⟨t', ?_, ht', hwithin₀.trans hwithin', hwithin''.trans hwithin₀', trivial⟩
      rw [start_settledParameter_blank he hopen hq hpq hqopen, start_bind, hstart']
    | ok u =>
      have hclosed := start_closeParameter hfound hpq₁.symbol
      have hsettled : q₁.SameDeclaration { q₁ with isDefined := true } := rfl
      obtain ⟨hkeyed, hsame, -⟩ :=
        hderives.put hfill.state.keyed hfill.state.same hfound hpq₁ hsettled
      simp only [hclosed]
      refine ⟨⟨hkeyed, hsame⟩, (hwithin.trans hfill.within).trans
        (knownIn_putParameter (hpq₁.symbol ▸ hfound) (hderives.unsettled hpq₁ hq₁)), trivial,
        fun t ht _ hafter => ?_⟩
      have hknown := hafter.within (.values p.symbol { q₁ with isDefined := true })
        ⟨by simp [putParameter, hpq₁.symbol, find?_insert_self], by simp [isSettled]⟩
      exact ⟨t, start_settledParameter hknown.1 hknown.2 _, ht, .refl _, .refl _, trivial⟩

/-- A parameter that is settled is found again, and one that could not be is computed again. -/
theorem settledParameter_replays (hdata : B.IsData) (hg : B.IsGrounded)
    (hL : (restarting B).Lookups (lookup n) (lookup n)) (symbol : String) :
    Repeatable B (settledParameter (lookup n) symbol) := by
  intro s hs _
  cases hp : s.registry.params.find? symbol with
  | none =>
    rw [start_settledParameter_none hp]
    refine ReplaysAt.still hs trivial (fun t ht _ _ => ⟨t.warnings, ?_⟩) s.warnings
    refine start_settledParameter_none ?_ _
    have hcontains := (sameSight_invalidate t.registry).params symbol
    rw [ht.same, ← hs.same, (sameSight_invalidate s.registry).params] at hcontains
    simpa [contains, hp] using hcontains.symm
  | some p =>
    obtain rfl := hs.keyed.params hp
    cases hsettled : p.isSettled with
    | true =>
      rw [start_settledParameter hp hsettled]
      refine ReplaysAt.still hs trivial (fun t _ _ hafter => ⟨t.warnings, ?_⟩) s.warnings
      have hknown : t.registry.Knows (.values p.symbol p) :=
        hafter.within (.values p.symbol p) ⟨hp, hsettled⟩
      exact start_settledParameter hknown.1 hknown.2 _
    | false =>
      obtain ⟨e, he, hopen⟩ := definition_of_open hsettled
      exact openParameter_replays hdata hg hL hs hp he hopen

end Parameters

/-! ## Ranges -/

/-- A bound of a range that is known by now, or else computed. -/
def boundNow (L : Lookup K) (symbol : String) (e : Expr K) (known : BoundRange K → Option Int)
    (note : Int → BoundRange K → BoundRange K) (env : Env K) : Run K Int := do
  boundOf L symbol e (((← Run.registry).boundRanges.find? symbol).bind known) note env

theorem start_rangeElements {L : Lookup K} {d : BoundRange K} {env : Env K}
    (hd : s.registry.boundRanges.find? d.symbol = some d) : (rangeElements L d env).start s = (do
      let first ← boundNow L d.symbol d.first (·.knownFirst)
        (fun i d => { d with knownFirst := some i }) env
      let last ← boundNow L d.symbol d.last (·.knownLast)
        (fun i d => { d with knownLast := some i }) env
      return intRange first last : Run K (List (Value K))).start s := by
  simp only [rangeElements, boundNow, bind_assoc]
  rw [start_bind, start_bind, start_registry]
  simp only [hd, Option.bind_some]
  rw [start_bind]

/-- One end of a range: what is known of it, and how it is noted. -/
structure IsEnd (known : BoundRange K → Option Int) (note : Int → BoundRange K → BoundRange K)
    (fact : String → Int → Fact K) : Prop where
  forget : ∀ i d, (note i d).forget = d.forget
  noted : ∀ i d, known (note i d) = some i
  knows : ∀ (r : Registry K) s i, r.Knows (fact s i) ↔ (r.boundRanges.find? s).bind known = some i
  adds : ∀ {r : Registry K} {s d} i, r.Keyed → r.boundRanges.find? s = some d → known d = none →
    r.KnownIn (r.changeRange s (note i))

theorem isEnd_first : IsEnd (K := K) (·.knownFirst) (fun i d => { d with knownFirst := some i })
    .first where
  forget _ _ := rfl
  noted _ _ := rfl
  knows _ _ _ := .rfl
  adds i hr hd hnone := knownIn_changeRange hr hd (fun j hj => by simp [hnone] at hj) fun _ hj => hj

theorem isEnd_last : IsEnd (K := K) (·.knownLast) (fun i d => { d with knownLast := some i })
    .last where
  forget _ _ := rfl
  noted _ _ := rfl
  knows _ _ _ := .rfl
  adds i hr hd hnone := knownIn_changeRange hr hd (fun _ hj => hj) fun j hj => by simp [hnone] at hj

section Domains

variable {B : Registry K} {n : Nat} {symbol : String}

/-- What is known is found again. What is not known is computed and noted, so that it is known from
then on, or noting it was in vain and it is computed again. -/
theorem repeatable_of_noted {x y : Run K α} (known : Registry K → Option α)
    (note : α → Registry K → Registry K) (fact : α → Fact K)
    (hfact : ∀ r a, r.Knows (fact a) ↔ known r = some a)
    (hfound : ∀ {s : Store K} {a}, known s.registry = some a → y.start s = (.ok a, s))
    (hopen : ∀ {s : Store K}, known s.registry = none → y.start s = (do
      let a ← x
      modifyRegistry (note a)
      return a).start s)
    (hx : Repeatable B x) (hstill : ∀ {s : Store K}, s.registry.IsStateOf B →
      known (x.start s).2.registry = known s.registry)
    (hnote : ∀ {r : Registry K} (a), r.IsStateOf B → known r = none →
      (note a r).IsStateOf B ∧ r.KnownIn (note a r))
    (hnoted : ∀ a,
      (∀ {r : Registry K}, r.IsStateOf B → known r = none → known (note a r) = some a) ∨
      ∀ {r : Registry K}, r.IsStateOf B → known r = none ∧ (note a r).KnownIn r) :
    Repeatable B y := by
  intro s hs _
  cases hknown : known s.registry with
  | some a =>
    rw [hfound hknown]
    exact ReplaysAt.still hs trivial (fun t _ _ hafter => ⟨t.warnings, hfound
      ((hfact _ _).1 (hafter.within _ ((hfact _ _).2 hknown)))⟩) s.warnings
  | none =>
    rw [hopen hknown, start_bind]
    have hrun := hx hs trivial
    have hsame := hstill hs
    cases hresult : x.start s with
    | mk a s₁ =>
      rw [hresult] at hrun hsame
      cases a with
      | error c =>
        refine ⟨hrun.state, hrun.within, trivial, fun t ht _ hafter => ?_⟩
        have hmissing : known t.registry = none := by
          refine Option.eq_none_iff_forall_ne_some.2 fun a ha => ?_
          have ha₁ := (hfact _ _).1 (hafter.failed c rfl _ ((hfact _ _).2 ha))
          rw [hsame, hknown] at ha₁
          cases ha₁
        obtain ⟨t', hagain, hrest⟩ :=
          hrun.again ht trivial ⟨hafter.within, fun f _ => hafter.failed c rfl⟩
        exact ⟨t', by rw [hopen hmissing, start_bind, hagain], hrest⟩
      | ok a =>
        have hnone := hsame.trans hknown
        obtain ⟨hstate, hadds⟩ := hnote a hrun.state hnone
        refine ⟨hstate, hrun.within.trans hadds, trivial, fun t ht _ hafter => ?_⟩
        obtain hkept | hvain := hnoted a
        · exact ⟨t, hfound ((hfact _ _).1 (hafter.within _ ((hfact _ _).2
            (hkept hrun.state hnone)))), ht, .refl _, .refl _, trivial⟩
        · obtain ⟨t₁, hagain, ht₁, hwithin, hwithin', -⟩ :=
            hrun.again ht trivial ⟨hadds.trans hafter.within, nofun⟩
          obtain ⟨hstate₁, hadds₁⟩ := hnote a ht₁ (hvain ht₁).1
          refine ⟨⟨note a t₁.registry, t₁.warnings⟩, ?_, hstate₁, hwithin.trans hadds₁,
            (hvain ht₁).2.trans hwithin', trivial⟩
          rw [hopen (hvain ht).1, start_bind, hagain]
          rfl

/-- A bound is found again, or could not be computed and is computed again. -/
theorem boundNow_replays {known : BoundRange K → Option Int}
    {note : Int → BoundRange K → BoundRange K} {fact : String → Int → Fact K}
    (hend : IsEnd known note fact)
    (hdeclared : ∀ {r : Registry K}, r.IsStateOf B → ∃ d, r.boundRanges.find? symbol = some d)
    {env : Env K} (hvalue : Repeatable B (rangeBound e (e.value (lookup n) env.spawn)))
    (hstill : ∀ r₀, Maintains (B.StillAt r₀ (.domain symbol))
      (rangeBound e (e.value (lookup n) env.spawn))) :
    Repeatable B (boundNow (lookup n) symbol e known note env) := by
  refine repeatable_of_noted (x := rangeBound e (e.value (lookup n) env.spawn))
    (fun r => (r.boundRanges.find? symbol).bind known)
    (fun i r => r.changeRange symbol (note i)) (fact symbol)
    (fun r i => hend.knows r symbol i) (fun {s i} hi => ?_) (fun {s} hnone => ?_) hvalue
    (fun {s} hs => ?_) (fun {r} i hr hnone => ?_) fun i => .inl fun {r} hr _ => ?_
  · rw [boundNow, start_bind, start_registry]
    simp only [hi]
    rfl
  · rw [boundNow, start_bind, start_registry]
    simp only [hnone]
    rfl
  · rw [(hstill s.registry ⟨hs, .refl _ _⟩).same.1]
  · obtain ⟨d, hd⟩ := hdeclared hr
    have hrel : B.unrestricted.Rel (modifyRegistry (·.changeRange symbol (note i)))
        (modifyRegistry (·.changeRange symbol (note i))) :=
      Regime.rel_changeRange (fun _ => trivial) (hend.forget i)
    exact ⟨hrel.maintains (s := ⟨r, []⟩) hr, hend.adds i hr.keyed hd (by simpa [hd] using hnone)⟩
  · obtain ⟨d, hd⟩ := hdeclared hr
    simp only [find?_changeRange hr.keyed symbol (note i), hd]
    exact hend.noted i d

/-! ## Comprehensions -/

/-- A member of a comprehension that is known by now, or else computed. -/
def memberNow (L : Lookup K) (d : ComputedSet K) (key : Value K) (scope : Env K) :
    Run K (List (Value K)) := do
  match ((← Run.registry).computedSets.find? d.symbol).bind (·.known.find? key) with
  | some vs => return vs
  | none =>
    let vs ← comprehend L d scope
    Run.modifyRegistry
      (·.changeMembers d.symbol fun d => { d with known := d.known.insert key vs })
    return vs

section Members

variable (hleft : ∀ {v w : Value K}, (v == w) = true → (v == v) = true)
  (hright : ∀ {v w : Value K}, (v == w) = true → (w == w) = true)

include hleft hright

/-- An entry under a key that does not equal itself is never found. -/
theorem find?_insert_undefined {known : Table (Value K) (List (Value K))} {key : Value K}
    (hkey : ¬ (key == key) = true) (vs : List (Value K)) (k : Value K) :
    (known.insert key vs).find? k = known.find? k := by
  obtain ⟨es⟩ := known
  simp only [Table.insert, Table.find?]
  induction es with
  | nil =>
    have hne : ¬ (key == k) = true := fun h => hkey (hleft h)
    simp [Table.insertIn, Table.findIn, hne]
  | cons e es ih =>
    have hne : ¬ (e.1 == key) = true := fun h => hkey (hright h)
    simp only [Table.insertIn, if_neg hne, Table.findIn, ih]

/-- A member is found again, or could not be computed and is computed again. At an index that does
not equal itself it is computed again in any case. -/
theorem memberNow_replays {key : Value K} {scope : Env K}
    (hdeclared : ∀ {r : Registry K}, r.IsStateOf B → ∃ e, r.computedSets.find? d.symbol = some e)
    (hmembers : Repeatable B (comprehend (lookup n) d scope))
    (hstill : ∀ r₀, Maintains (B.StillAt r₀ (.domain d.symbol)) (comprehend (lookup n) d scope)) :
    Repeatable B (memberNow (lookup n) d key scope) := by
  -- under a key that does not equal itself nothing is found
  have hnever : ¬ (key == key) = true → ∀ e : ComputedSet K, e.known.find? key = none := by
    refine fun hkey e => Option.eq_none_iff_forall_ne_some.2 fun vs hvs => hkey ?_
    obtain ⟨k, _, hk⟩ := exists_of_find? hvs
    exact hright hk
  refine repeatable_of_noted (x := comprehend (lookup n) d scope)
    (fun r => (r.computedSets.find? d.symbol).bind (·.known.find? key))
    (fun vs r => r.changeMembers d.symbol fun d =>
      { d with known := d.known.insert key vs }) (.members d.symbol key)
    (fun r vs => .rfl) (fun {s vs} hvs => ?_) (fun {s} hnone => ?_) hmembers (fun {s} hs => ?_)
    (fun {r} vs hr hnone => ?_) fun vs => ?_
  · rw [memberNow, start_bind, start_registry]
    simp only [hvs]
    rfl
  · rw [memberNow, start_bind, start_registry]
    simp only [hnone]
  · rw [(hstill s.registry ⟨hs, .refl _ _⟩).same.2]
  · obtain ⟨e, he⟩ := hdeclared hr
    have hfound : e.known.find? key = none := by simpa [he] using hnone
    have hrel : B.unrestricted.Rel
        (modifyRegistry (·.changeMembers d.symbol fun d =>
          { d with known := d.known.insert key vs }))
        (modifyRegistry (·.changeMembers d.symbol fun d =>
          { d with known := d.known.insert key vs })) :=
      Regime.rel_changeMembers (fun _ => trivial) fun _ => rfl
    exact ⟨hrel.maintains (s := ⟨r, []⟩) hr, (knownIn_changeMembers hr.keyed he).1 fun k ws hk =>
      findIn_of_initial (initial_insertIn (List.prefix_refl _) hfound) hk⟩
  · by_cases hkey : (key == key) = true
    · refine .inl fun {r} hr _ => ?_
      obtain ⟨e, he⟩ := hdeclared hr
      simp only [find?_changeMembers hr.keyed d.symbol, he]
      exact find?_insert_of_beq hkey _ _
    · refine .inr fun {r} hr => ?_
      obtain ⟨e, he⟩ := hdeclared hr
      exact ⟨by simp [he, hnever hkey], (knownIn_changeMembers hr.keyed he).2 fun k ws hk =>
        (find?_insert_undefined hleft hright hkey vs k).symm.trans hk⟩

end Members

/-! ## Declared domains -/

omit [Scalar K] in
/-- All states of a registry declare the same domains. -/
theorem Registry.IsStateOf.domain {r : Registry K} (hr : r.IsStateOf B) {s : String} {d : Domain K}
    (hd : B.invalidate.domain? s = some d) : ∃ e, r.domain? s = some e ∧ e.forget = d := by
  rw [← hr.same, domain?_invalidate] at hd
  exact Option.map_eq_some_iff.1 hd

section Lookups

variable (hdata : B.IsData) (hg : B.IsGrounded)
  (hL : (restarting B).Lookups (lookup n) (lookup n))

include hdata hg

/-- What a domain mentions does not lead back to it. -/
theorem mentions_spare {d : Domain K}
    (hd : B.invalidate.domain? symbol = some d) (a : Env K) (r₀ : Registry K) :
    ((maintaining (B.StillAt r₀ (.domain symbol))).sparing B (.domain symbol)).Allows
      a.active d.mentions := by
  have hmentions := sparing_allows (R := maintaining
    (B.StillAt r₀ (.domain symbol))) hdata (x := .domain symbol) trivial (hg.spares trivial)
    a.active
  rwa [← B.mentionsOf_invalidate, mentionsOf, hd, Option.elim_some] at hmentions

include hL

theorem rangeElements_replays {d : BoundRange K} (a : Env K)
    (given : Option (Value K)) (hd : B.invalidate.domain? symbol = some (.range d)) :
    Repeatable B (domainElements (lookup n) symbol a given) := by
  have hdeclared : ∀ {r : Registry K}, r.IsStateOf B →
      ∃ e, r.domain? symbol = some (.range e) ∧ e.forget = d := by
    intro r hr
    obtain ⟨e, he, hed⟩ := hr.domain hd
    cases e with
    | range e => exact ⟨e, he, by simpa [Domain.forget] using hed⟩
    | tuples _ | computed _ | primitive _ | index _ => cases hed
  have hisData := (isData_invalidate.2 hdata).domains hd
  simp only [Domain.isData, Bool.and_eq_true] at hisData
  have hmentions := mentions_spare hdata hg hd a
  have hbound : ∀ {known : BoundRange K → Option Int} {note : Int → BoundRange K → BoundRange K}
      {fact : String → Int → Fact K} {e : Expr K}, IsEnd known note fact → e.isData = true →
      (∀ r₀, ((maintaining (B.StillAt r₀ (.domain symbol))).sparing B
        (.domain symbol)).Allows a.active (e.mentions [])) →
      Repeatable B (boundNow (lookup n) symbol e known note a) := by
    intro known note fact e hend he hallows
    refine boundNow_replays hend (fun hr => ?_)
      (Simulation.rangeBound e (Simulation.exprValue hL e rfl (.inr he)))
      fun r₀ => Comparison.rangeBound e (Comparison.exprValue (lookup_spares hdata r₀ _ n) e
        ⟨rfl, rfl, Env.binds_nil a.spawn⟩ (hallows r₀))
    obtain ⟨e, he, -⟩ := hdeclared hr
    exact ⟨e, find?_of_domain?_range he⟩
  have hfirst := hbound isEnd_first hisData.1 fun r₀ =>
    (Comparison.allows_append.1 (hmentions r₀)).1
  have hlast := hbound isEnd_last hisData.2 fun r₀ => (Comparison.allows_append.1 (hmentions r₀)).2
  refine Replays.congr (hfirst.bind fun first => hlast.bind fun last =>
    replays_pure (intRange first last)) fun t ht => ?_
  obtain ⟨e, he, rfl⟩ := hdeclared ht
  have hfind := find?_of_domain?_range he
  obtain rfl := ht.keyed.boundRanges hfind
  have hstart : (domainElements (lookup n) e.symbol a given).start t =
      (rangeElements (lookup n) e a).start t := by
    simp only [domainElements, start_bind, start_registry, he]
  rw [hstart, start_rangeElements hfind]
  rfl

variable (hleft : ∀ {v w : Value K}, (v == w) = true → (v == v) = true)
  (hright : ∀ {v w : Value K}, (v == w) = true → (w == w) = true)

include hleft hright

theorem memberElements_replays (a : Env K) (given : Option (Value K))
    (hd : B.invalidate.domain? d.symbol = some (.computed d)) :
    Repeatable B (domainElements (lookup n) d.symbol a given) := by
  have hdeclared : ∀ {r : Registry K}, r.IsStateOf B →
      ∃ e, r.domain? d.symbol = some (.computed e) ∧ e.forget = d := by
    intro r hr
    obtain ⟨e, he, hed⟩ := hr.domain hd
    cases e with
    | computed e => exact ⟨e, he, by simpa [Domain.forget] using hed⟩
    | tuples _ | range _ | primitive _ | index _ => cases hed
  have hisData := (isData_invalidate.2 hdata).domains hd
  cases hscope : memberScope d a given with
  | error c =>
    refine Replays.congr (replays_fail c) fun t ht => ?_
    obtain ⟨e, he, hed⟩ := hdeclared ht
    have hsame : memberScope e a given = .error c := by
      rw [← hscope, ← hed]
      rfl
    simp [domainElements, start_bind, he, memberElements, hsame, Run.ofExcept]
  | ok member =>
    obtain ⟨key, scope⟩ := member
    have hmembers : Repeatable B (comprehend (lookup n) d scope) :=
      Simulation.comprehend hL d hisData rfl
    obtain ⟨hactive, hbinds⟩ := memberScope_binds hscope
    have hstill : ∀ r₀, Maintains (B.StillAt r₀ (.domain d.symbol))
        (comprehend (lookup n) d scope) := fun r₀ =>
      Comparison.comprehend (lookup_spares hdata r₀ _ n) ⟨rfl, hactive, hbinds⟩
        (mentions_spare hdata hg hd a r₀)
    refine Replays.congr (y := memberNow (lookup n) d key scope)
      (memberNow_replays hleft hright (fun hr => ?_) hmembers hstill) fun t ht => ?_
    · obtain ⟨e, he, -⟩ := hdeclared hr
      exact ⟨e, find?_of_domain?_computed he⟩
    · obtain ⟨e, he, hed⟩ := hdeclared ht
      have hsame : memberScope e a given = .ok (key, scope) := by
        rw [← hscope, ← hed]
        rfl
      have hcomprehend : comprehend (lookup n) e scope = comprehend (lookup n) d scope := by
        rw [← hed]
        rfl
      have hsymbol : e.symbol = d.symbol := by
        rw [← hed]
        rfl
      cases hknown : e.known.find? key <;>
        simp only [domainElements, memberElements, memberNow, start_bind, start_registry, he, hsame,
          Run.ofExcept, pure_bind, find?_of_domain?_computed he, Option.bind_some, hcomprehend,
          hsymbol, hknown]

/-- The elements of a domain are found again, or computed again. -/
theorem domainElements_replays (symbol : String) (a : Env K) (given : Option (Value K)) :
    Repeatable B (domainElements (lookup n) symbol a given) := by
  intro s hs hsame
  have hkeyed : B.invalidate.Keyed := hs.same ▸ hs.keyed.invalidate
  suffices hreplays : Repeatable B (domainElements (lookup n) symbol a given) from hreplays hs hsame
  cases hd : B.invalidate.domain? symbol with
  | none =>
    refine Replays.congr (replays_fail (.domainNotDeclared symbol)) fun t ht => ?_
    rw [← ht.same, domain?_invalidate, Option.map_eq_none_iff] at hd
    simp only [domainElements, start_bind, start_registry, hd]
  | some d =>
    -- what is not computed is there to be returned
    have hgiven : ∀ {v : List (Value K)}, (∀ e : Domain K, e.forget = d → ∀ t : Store K,
        t.registry.domain? symbol = some e →
        (domainElements (lookup n) symbol a given).start t = (.ok v, t)) →
        Repeatable B (domainElements (lookup n) symbol a given) := by
      intro v hvs
      refine Replays.congr (replays_pure v) fun t ht => ?_
      obtain ⟨e, he, hed⟩ := ht.domain hd
      exact hvs e hed t he
    cases d with
    | tuples d =>
      refine hgiven (v := d.records) fun e hed t he => ?_
      cases e <;> cases hed
      simp only [domainElements, start_bind, start_registry, he]
      rfl
    | primitive d =>
      refine hgiven (v := d.elements) fun e hed t he => ?_
      cases e <;> cases hed
      simp only [domainElements, start_bind, start_registry, he]
      rfl
    | index d =>
      refine hgiven (v := intRange d.first d.last) fun e hed t he => ?_
      cases e <;> cases hed
      simp only [domainElements, start_bind, start_registry, he]
      rfl
    | range d => exact rangeElements_replays hdata hg hL a given hd
    | computed d =>
      obtain rfl := hkeyed.computedSets (find?_of_domain?_computed hd)
      exact memberElements_replays hdata hg hL hleft hright a given hd

omit hL in
/-- Whatever is looked up in a grounded registry ends in the same way again. -/
theorem lookup_replays (n : Nat) : (restarting B).Lookups (lookup n) (lookup n) := by
  induction n with
  | zero =>
    exact ⟨fun _ _ => (restarting B).failure .endless,
      fun _ _ _ => (restarting B).failure .endless, False.elim⟩
  | succ n ih =>
    refine ⟨fun symbol idx => ?_, fun {a b} symbol given hab => ?_, False.elim⟩
    · have hvalue : Repeatable B (parameterValue (lookup n) symbol idx) := by
        rw [parameterValue_eq]
        exact (settledParameter_replays hdata hg ih symbol).bind fun p =>
          ofExcept (R := restarting B) _
      exact hvalue
    · obtain rfl : a = b := hab
      exact domainElements_replays hdata hg ih hleft hright symbol a given

end Lookups

end Domains

/-- A domain that is resolved again from where its resolution ended comes to the same end, also if
this was a failure. -/
theorem resolveDomain_replays (hleft : ∀ {v w : Value K}, (v == w) = true → (v == v) = true)
    (hright : ∀ {v w : Value K}, (v == w) = true → (w == w) = true)
    (hkeyed : s.registry.Keyed) (hdata : s.registry.IsData) (hg : s.registry.IsGrounded)
    (symbol : String) (env : Env K) (given : Option (Value K)) :
    ((resolveDomain symbol env given).start ((resolveDomain symbol env given).start s).2).1 =
      ((resolveDomain symbol env given).start s).1 := by
  have hstart : ∀ t : Store K, t.registry.IsStateOf s.registry →
      (resolveDomain symbol env given).start t =
        ((LinearModel.lookup (s.registry.size + familyDepth)).elements symbol env
          given).start t := by
    intro t ht
    rw [resolveDomain, start_lookup, Registry.lookup, ← size_invalidate, ht.same, size_invalidate]
  have hs : s.registry.IsStateOf s.registry := ⟨hkeyed, rfl⟩
  have hreplays := (lookup_replays hdata hg hleft hright (s.registry.size + familyDepth)).elements
    symbol given (rfl : env = env) hs trivial
  obtain ⟨t, ht, -⟩ := hreplays.again hreplays.state trivial ⟨.refl _, fun _ _ => .refl _⟩
  rw [hstart s hs, hstart _ hreplays.state, ht]

end LinearModel
