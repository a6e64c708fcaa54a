import LinearModel.Proofs.Known

/-!
# Evaluation keeps what is known

Evaluating a derived parameter, a range or a comprehension enters its result into the registry.
Each of these steps leaves a later registry, in which the result can be looked up again. By
induction on the depth of the lookup, the same holds of every evaluation.
-/
namespace LinearModel

open Run Simulation Registry Progress

variable {K : Type} [Scalar K] {α : Type} {L M : Lookup K} {s s' : Store K} {vs : List (Value K)}
  {symbol : String} {given : Option (Value K)} {v : Value K} {a env b : Env K} {r t : Registry K}

/-! ## Parameters -/

/-- A lookup that only adds to what is known keeps what was known at an earlier time, also while a
parameter is being computed. -/
theorem Simulation.Lookups.butFor (hL : (advancing keyed).Lookups L L) (hr : r.Keyed) (x : String) :
    (preserving fun t => r.KeptButFor x t).Lookups L L where
  parameter p idx := by
    intro s a s' hs h
    have hk : s.registry.Keyed := hr.later (fun _ _ _ hpq => hpq.1) hs
    exact hs.trans_kept (hL.parameter p idx hk h).1
  elements d given hab := by
    intro s a s' hs h
    have hk : s.registry.Keyed := hr.later (fun _ _ _ hpq => hpq.1) hs
    exact hs.trans_kept (hL.elements d given rfl hk h).1
  body _ _ _ e hab := by
    intro s a s' hs h
    have hk : s.registry.Keyed := hr.later (fun _ _ _ hpq => hpq.1) hs
    exact hs.trans_kept (hL.body trivial e rfl hk h).1

/-- Computing a derived parameter settles it, and keeps everything else. -/
theorem defineParameter_keeps (hL : (advancing keyed).Lookups L L)
    {p : Parameter K} {e : Expr K} {u : Unit} (hs : s.registry.Keyed)
    (hp : s.registry.params.find? p.symbol = some p) (hopen : p.isSettled = false)
    (h : (defineParameter L p e).Returns s u s') : s.registry.KeptIn s'.registry ∧
      ∃ q, s'.registry.params.find? p.symbol = some q ∧ q.isSettled = true := by
  let Inv := fun t => s.registry.KeptButFor p.symbol t
  have hLL : (preserving Inv).Lookups L L := hL.butFor hs p.symbol
  have hstart : Inv (s.registry.putParameter { p with value := none, values := Table.empty }) :=
    KeptButFor.stored (KeptIn.refl _).butFor hp ⟨p, hp, rfl⟩
  have hwriting : ∀ place v, Preserves Inv (writing p.symbol place v) := by
    intro place v σ _ σ' hσ hwrite
    obtain ⟨p', q, hp', hq, rfl⟩ := (returns_writing place).1 hwrite
    exact KeptButFor.stored hσ hp ⟨p', hp', (Parameter.write_ok hq).1⟩
  rw [defineParameter_eq, draftParameter_eq] at h
  simp only [returns_bind, returns_modifyRegistry] at h
  obtain ⟨_, s₂, ⟨_, _, rfl, hfill⟩, rfl⟩ := h
  have h₂ : Inv s₂.registry :=
    Simulation.fillParameter hLL (rfl : Env.empty = Env.empty) (.inl trivial) hwriting hstart hfill
  obtain ⟨q, hq, hpq, _⟩ := h₂.params.find hp
  have hsettled : ({ q with isDefined := true } : Parameter K).isSettled = true := by
    simp [Parameter.isSettled]
  have hfound : (s₂.registry.putParameter { q with isDefined := true }).params.find? p.symbol
      = some { q with isDefined := true } := by
    simp only [putParameter, hpq.symbol, Table.find?_insert_self]
  have hlast : Inv (s₂.registry.putParameter { q with isDefined := true }) :=
    KeptButFor.stored h₂ hp ⟨q, hq, rfl⟩
  simp only [closeParameter, hq]
  exact ⟨hlast.kept hp hopen hfound hsettled, _, hfound, hsettled⟩

theorem returns_storedValue {idx : Index K} : (storedValue symbol idx).Returns s v s' ↔
      s' = s ∧ ∃ p, s.registry.params.find? symbol = some p ∧ p.get idx = .ok v := by
  simp only [storedValue, returns_bind, returns_registry]
  constructor
  · rintro ⟨r, s₁, ⟨rfl, rfl⟩, h⟩
    cases hp : s.registry.params.find? symbol with
    | none => simp [hp] at h
    | some p =>
      simp only [hp, returns_ofExcept] at h
      exact ⟨h.2.symm, p, rfl, h.1⟩
  · rintro ⟨rfl, p, hp, hv⟩
    exact ⟨_, s', ⟨rfl, rfl⟩, by simp [hp, hv]⟩

/-- Reading a parameter settles it first. -/
theorem parameterValue_settles (hL : (advancing keyed).Lookups L L)
    {idx : Index K} (hs : s.registry.Keyed) (h : (parameterValue L symbol idx).Returns s v s') :
    s.registry.KeptIn s'.registry ∧ ∃ p, s'.registry.params.find? symbol = some p ∧
      p.isSettled = true ∧ p.get idx = .ok v := by
  simp only [parameterValue, returns_bind, returns_registry] at h
  obtain ⟨r, _, ⟨rfl, rfl⟩, h⟩ := h
  cases hp : s.registry.params.find? symbol with
  | none => simp [hp] at h
  | some p =>
    obtain rfl : p.symbol = symbol := hs.params hp
    simp only [hp] at h
    cases hopen : p.isSettled with
    | true =>
      have hread : (storedValue p.symbol idx).Returns s v s' := by
        cases he : p.definition with
        | none => simpa [he] using h
        | some e =>
          have hd : p.isDefined = true := by simpa [Parameter.isSettled, he] using hopen
          simpa [he, hd] using h
      obtain ⟨rfl, q, hq, hv⟩ := returns_storedValue.1 hread
      obtain rfl : p = q := Option.some.inj (hp.symm.trans hq)
      exact ⟨.refl _, p, hp, hopen, hv⟩
    | false =>
      cases he : p.definition with
      | none => simp [Parameter.isSettled, he] at hopen
      | some e =>
        have hd : p.isDefined = false := by simpa [Parameter.isSettled, he] using hopen
        simp only [he, hd, Bool.not_false, ↓reduceIte, returns_bind] at h
        obtain ⟨_, s₁, hdefine, hread⟩ := h
        obtain ⟨hkept, q, hq, hqs⟩ := defineParameter_keeps hL hs hp hopen hdefine
        obtain ⟨rfl, q', hq', hv⟩ := returns_storedValue.1 hread
        obtain rfl : q = q' := Option.some.inj (hq.symm.trans hq')
        exact ⟨hkept, q, hq, hqs, hv⟩

/-- A lookup whose answers stay known leads to later registries. -/
theorem Simulation.Lookups.keyed (hL : keeping.Lookups L M) : (advancing keyed).Lookups L L where
  parameter s idx := EnsuresFrom.mono (hL.parameter s idx) fun _ _ _ => trivial
  elements s given hab := by
    subst hab
    exact EnsuresFrom.mono (hL.elements s given (.refl _)) fun _ _ _ => trivial
  body _ _ _ e hab := by
    subst hab
    exact EnsuresFrom.mono (hL.body trivial e (.refl _)) fun _ _ _ => trivial

theorem parameterValue_keeps (hL : keeping.Lookups L M) (symbol : String)
    (idx : Index K) : Run.Keeps (parameterValue L symbol idx) (settledValue symbol idx) := by
  intro s v s' hs h
  obtain ⟨hkept, p, hp, hsettled, hv⟩ := parameterValue_settles hL.keyed hs h
  refine ⟨hkept, fun t ht => ?_⟩
  obtain ⟨q, hq, hpq⟩ := ht.params.find hp
  obtain rfl := hpq.settled hsettled
  refine (gives_registry.2 rfl).bind ?_
  simp [hq, hsettled, hv]

/-! ## Domains -/

theorem returns_boundOf (hL : (advancing keyed).Lookups L L) {e : Expr K}
    {bound : Option Int} {note : Int → BoundRange K → BoundRange K} {i : Int}
    (hs : s.registry.Keyed) (h : (boundOf L symbol e bound note env).Returns s i s') :
    (bound = some i ∧ s' = s) ∨ (bound = none ∧ ∃ s₁ : Store K, s.registry.KeptIn s₁.registry ∧
      s' = { s₁ with registry := s₁.registry.changeRange symbol (note i) }) := by
  cases bound with
  | some j =>
    obtain ⟨rfl, rfl⟩ := returns_pure.1 h
    exact .inl ⟨rfl, rfl⟩
  | none =>
    simp only [boundOf, returns_bind, returns_modifyRegistry, returns_pure] at h
    obtain ⟨j, s₁, hj, _, _, rfl, rfl, rfl⟩ := h
    have hcomputed := Simulation.rangeBound e
      (Simulation.exprValue hL e (rfl : env.spawn = env.spawn) (.inl trivial))
    exact .inr ⟨rfl, s₁, (hcomputed hs hj).1, rfl⟩

/-- Both bounds of a range are known once its elements have been listed. -/
theorem rangeElements_keeps (hL : (Simulation.advancing keyed).Lookups L L)
    {d : BoundRange K} (hs : s.registry.Keyed) (hd : s.registry.boundRanges.find? d.symbol = some d)
    (h : (rangeElements L d env).Returns s vs s') : s.registry.KeptIn s'.registry ∧ ∃ e first last,
      s'.registry.boundRanges.find? d.symbol = some e ∧ e.knownFirst = some first ∧
      e.knownLast = some last ∧ vs = intRange first last := by
  simp only [rangeElements, returns_bind, returns_registry, returns_pure] at h
  obtain ⟨first, s₁, hfirst, _, _, ⟨rfl, rfl⟩, last, s₂, hlast, rfl, rfl⟩ := h
  have h₁ : s.registry.KeptIn s₁.registry ∧ ∃ e₁, s₁.registry.boundRanges.find? d.symbol = some e₁ ∧
      e₁.knownFirst = some first := by
    rcases returns_boundOf hL hs hfirst with ⟨hknown, rfl⟩ | ⟨hunknown, σ, hσ, rfl⟩
    · exact ⟨.refl _, d, hd, hknown⟩
    · refine ⟨hσ.changeRange (hs.kept hσ) hd fun e he => ?_, ?_⟩
      · exact ⟨he.declaration, fun i hi => by simp [hunknown] at hi, he.last⟩
      · obtain ⟨e, he, _⟩ := hσ.boundRanges.find hd
        refine ⟨{ e with knownFirst := some first }, ?_, rfl⟩
        simp [find?_changeRange (hs.kept hσ), he]
  obtain ⟨hkept₁, e₁, he₁, hfirst₁⟩ := h₁
  have hs₁ := hs.kept hkept₁
  rcases returns_boundOf hL hs₁ hlast with ⟨hknown, rfl⟩ | ⟨hunknown, σ, hσ, rfl⟩
  · refine ⟨hkept₁, e₁, first, last, he₁, hfirst₁, ?_, rfl⟩
    simpa [he₁] using hknown
  · obtain ⟨e₂, he₂, he₁₂⟩ := hσ.boundRanges.find he₁
    have hlast₁ : e₁.knownLast = none := by simpa [he₁] using hunknown
    have hkept₂ : s₁.registry.KeptIn (σ.registry.changeRange d.symbol
        fun d => { d with knownLast := some last }) :=
      hσ.changeRange (hs₁.kept hσ) he₁ fun e he =>
        ⟨he.declaration, he.first, fun i hi => by simp [hlast₁] at hi⟩
    refine ⟨hkept₁.trans hkept₂, { e₂ with knownLast := some last }, first, last, ?_,
      he₁₂.first _ hfirst₁, rfl, rfl⟩
    simp [find?_changeRange (hs₁.kept hσ), he₂]

/-- A member of a comprehension is known once it has been listed. -/
theorem memberElements_keeps [ReflBEq (Value K)] (hL : keeping.Lookups L M)
    {d : ComputedSet K} (hs : s.registry.Keyed)
    (hd : s.registry.computedSets.find? d.symbol = some d)
    (h : (memberElements L d env given).Returns s vs s') :
    s.registry.KeptIn s'.registry ∧ ∃ key scope e, memberScope d env given = .ok (key, scope) ∧
      s'.registry.computedSets.find? d.symbol = some e ∧ e.known.find? key = some vs := by
  simp only [memberElements, returns_bind, returns_ofExcept] at h
  obtain ⟨⟨key, scope⟩, _, ⟨hscope, rfl⟩, h⟩ := h
  cases hknown : d.known.find? key with
  | some ws =>
    simp only [hknown, returns_pure] at h
    obtain ⟨rfl, rfl⟩ := h
    exact ⟨.refl _, key, scope, d, hscope, hd, hknown⟩
  | none =>
    simp only [hknown, returns_bind, returns_modifyRegistry, returns_pure] at h
    obtain ⟨ws, s₁, hcomputed, _, _, rfl, rfl, rfl⟩ := h
    have hkept := (members hL trivial d (.refl scope) hs hcomputed).1
    obtain ⟨e, he, hde⟩ := hkept.computedSets.find hd
    refine ⟨hkept.changeMembers (hs.kept hkept) hd fun e he => he.insert ws hknown, key, scope,
      { e with known := e.known.insert key ws }, hscope, ?_, ?_⟩
    · simp [find?_changeMembers (hs.kept hkept), he]
    · exact Table.find?_insert_self _ _ _

/-- The elements that a domain holds, it holds in every later state. -/
theorem Domain.KeptIn.knownElements {d e : Domain K} (h : d.KeptIn e) (hab : a.Below b)
    (hd : d.knownElements a given = .ok vs) : e.knownElements b given = .ok vs := by
  cases h with
  | tuples d => exact hd
  | primitive d => exact hd
  | index d => exact hd
  | @range d e h =>
    simp only [Domain.knownElements] at hd ⊢
    cases hfirst : d.knownFirst with
    | none => simp [hfirst] at hd
    | some first =>
      cases hlast : d.knownLast with
      | none => simp [hlast] at hd
      | some last => simpa [h.first _ hfirst, h.last _ hlast, hfirst, hlast] using hd
  | @computed d e h =>
    have hsame : memberScope e b given = memberScope d b given := by
      rw [← h.declaration]
      rfl
    simp only [Domain.knownElements, hsame, bind, Except.bind] at hd ⊢
    cases hscope : memberScope d a given with
    | error c => simp [hscope] at hd
    | ok member =>
      obtain ⟨key, scope⟩ := member
      obtain ⟨scope', hscope'⟩ := memberScope_below hab hscope
      simp only [hscope, hscope'] at hd ⊢
      cases hknown : d.known.find? key with
      | none => simp [hknown] at hd
      | some ws => simpa [h.find hknown, hknown] using hd

theorem gives_knownElements (h : r.KeptIn t) {d : Domain K}
    (hd : r.domain? symbol = some d) (hab : a.Below b)
    (hvs : d.knownElements a given = .ok vs) : (knownElements symbol b given).Gives t vs := by
  obtain ⟨e, he, hde⟩ := h.domain hd
  refine (gives_registry.2 rfl).bind ?_
  simp [he, hde.knownElements hab hvs]

/-- The elements of a domain other than a comprehension are known once they have been listed. -/
theorem domainElements_known (hL : (advancing keyed).Lookups L L)
    (hs : s.registry.Keyed) (hd : ∀ d, s.registry.domain? symbol ≠ some (.computed d))
    (h : (domainElements L symbol a given).Returns s vs s') :
    s.registry.KeptIn s'.registry ∧ ∃ d, s'.registry.domain? symbol = some d ∧
      d.knownElements a given = .ok vs := by
  simp only [domainElements, returns_bind, returns_registry] at h
  obtain ⟨r, _, ⟨rfl, rfl⟩, h⟩ := h
  cases hdomain : s.registry.domain? symbol with
  | none => simp [hdomain] at h
  | some d =>
    simp only [hdomain] at h
    cases d with
    | tuples d | primitive d | index d =>
      obtain ⟨rfl, rfl⟩ := returns_pure.1 h
      exact ⟨.refl _, _, hdomain, rfl⟩
    | range d =>
      have hfound := find?_of_domain?_range hdomain
      obtain rfl := hs.boundRanges hfound
      obtain ⟨hkept, e, first, last, he, hfirst, hlast, rfl⟩ := rangeElements_keeps hL hs hfound h
      obtain ⟨d', hd', hdd'⟩ := hkept.domain hdomain
      cases hdd' with
      | @range _ e' _ =>
        obtain rfl : e' = e := Option.some.inj
          ((find?_of_domain?_range hd').symm.trans he)
        exact ⟨hkept, _, hd', by simp [Domain.knownElements, hfirst, hlast]⟩
    | computed d => exact absurd hdomain (hd d)

theorem returns_domainElements_computed {d : ComputedSet K}
    (hd : s.registry.domain? symbol = some (.computed d)) :
    (domainElements L symbol a given).Returns s vs s' ↔
      (memberElements L d a given).Returns s vs s' := by
  simp only [domainElements, returns_bind, returns_registry]
  constructor
  · rintro ⟨r, _, ⟨rfl, rfl⟩, h⟩
    simpa only [hd] using h
  · intro h
    exact ⟨_, s, ⟨rfl, rfl⟩, by simpa only [hd] using h⟩

theorem domainElements_keeps [ReflBEq (Value K)] (hL : keeping.Lookups L M)
    (symbol : String) (given : Option (Value K)) (hab : a.Below b) :
    Run.Keeps (domainElements L symbol a given) (knownElements symbol b given) := by
  intro s vs s' hs h
  -- what the domain has become holds the elements
  have hlist : s.registry.KeptIn s'.registry ∧ ∃ d, s'.registry.domain? symbol = some d ∧
      d.knownElements a given = .ok vs := by
    by_cases hcomputed : ∃ d, s.registry.domain? symbol = some (.computed d)
    · obtain ⟨d, hd⟩ := hcomputed
      rw [returns_domainElements_computed hd] at h
      have hfound := find?_of_domain?_computed hd
      obtain rfl := hs.computedSets hfound
      obtain ⟨hkept, key, scope, e, hscope, he, hmember⟩ := memberElements_keeps hL hs hfound h
      obtain ⟨d', hd', hdd'⟩ := hkept.domain hd
      cases hdd' with
      | @computed _ e' hde =>
        obtain rfl : e' = e := Option.some.inj
          ((find?_of_domain?_computed hd').symm.trans he)
        have hsame : memberScope e' a given = memberScope d a given := by
          rw [← hde.declaration]
          rfl
        exact ⟨hkept, _, hd', by
          simp only [Domain.knownElements, hsame, hscope, bind, Except.bind, hmember]⟩
    · exact domainElements_known hL.keyed hs (not_exists.1 hcomputed) h
  obtain ⟨hkept, d, hd, hvs⟩ := hlist
  exact ⟨hkept, fun t ht => gives_knownElements ht hd hab hvs⟩

/-! ## Lookups -/

/-- Whatever evaluation looks up stays known. -/
theorem lookup_keeps [ReflBEq (Value K)] (n : Nat) :
    keeping.Lookups (lookup n) (known n : Lookup K) := by
  induction n with
  | zero => exact ⟨fun _ _ => ensures_fail, fun _ _ _ => ensures_fail,
      fun _ _ _ _ _ => ensures_fail⟩
  | succ n ih =>
    exact ⟨parameterValue_keeps ih, fun s given hab => domainElements_keeps ih s given hab,
      fun _ _ _ e hab => exprNumber ih e hab (.inl trivial)⟩

theorem settledValue_included (symbol : String) (idx : Index K) :
    including.rel (settledValue symbol idx) (parameterValue L symbol idx) := by
  intro s v s' _ h
  simp only [settledValue, returns_bind, returns_registry] at h
  obtain ⟨r, _, ⟨rfl, rfl⟩, h⟩ := h
  cases hp : s.registry.params.find? symbol with
  | none => simp [hp] at h
  | some p =>
    simp only [hp] at h
    split at h
    · rename_i hsettled
      obtain ⟨hv, rfl⟩ := returns_ofExcept.1 h
      have hread := returns_storedValue.2 ⟨rfl, p, hp, hv⟩
      refine ⟨rfl, returns_bind.2 ⟨_, s, returns_registry.2 ⟨rfl, rfl⟩, ?_⟩⟩
      simp only [hp]
      cases he : p.definition with
      | none => simpa using hread
      | some e =>
        have hd : p.isDefined = true := by simpa [Parameter.isSettled, he] using hsettled
        simpa [hd] using hread
    · exact absurd h not_returns_fail

theorem knownElements_included (symbol : String) (given : Option (Value K))
    (hab : a.Below b) : including.rel (knownElements symbol a given)
      (domainElements L symbol b given) := by
  intro s vs s' hs h
  simp only [knownElements, returns_bind, returns_registry] at h
  obtain ⟨r, _, ⟨rfl, rfl⟩, h⟩ := h
  cases hd : s.registry.domain? symbol with
  | none => simp [hd] at h
  | some d =>
    simp only [hd, returns_ofExcept] at h
    obtain ⟨hlist, rfl⟩ := h
    refine ⟨rfl, returns_bind.2 ⟨_, s, returns_registry.2 ⟨rfl, rfl⟩, ?_⟩⟩
    simp only [hd]
    cases d with
    | tuples d | primitive d | index d => simpa [Domain.knownElements] using hlist
    | range d =>
      have hfound := find?_of_domain?_range hd
      obtain rfl := hs.boundRanges hfound
      cases hfirst : d.knownFirst with
      | none => simp [Domain.knownElements, hfirst] at hlist
      | some first =>
        cases hlast : d.knownLast with
        | none => simp [Domain.knownElements, hlast] at hlist
        | some last =>
          simp only [Domain.knownElements, hfirst, hlast, Except.ok.injEq] at hlist
          simp [rangeElements, boundOf, hfirst, hlast, hfound, returns_bind, hlist]
    | computed d =>
      simp only [Domain.knownElements, bind, Except.bind] at hlist
      cases hscope : memberScope d a given with
      | error c => simp [hscope] at hlist
      | ok member =>
        obtain ⟨key, scope⟩ := member
        obtain ⟨scope', hscope'⟩ := memberScope_below hab hscope
        simp only [hscope] at hlist
        cases hknown : d.known.find? key with
        | none => simp [hknown] at hlist
        | some ws =>
          simp only [hknown, Except.ok.injEq] at hlist
          simp [memberElements, hscope', hknown, returns_bind, hlist]

/-- What is known is looked up without being computed. -/
theorem known_included {m n : Nat} (hmn : m ≤ n) :
    including.Lookups (known m) (lookup n : Lookup K) := by
  induction m generalizing n with
  | zero =>
    refine ⟨fun _ _ => ?_, fun _ _ _ => ?_, fun _ _ _ _ _ => ?_⟩ <;>
      exact fun _ _ _ _ h => absurd h not_returns_fail
  | succ m ih =>
    obtain ⟨n, rfl⟩ : ∃ k, n = k + 1 := ⟨n - 1, by omega⟩
    exact ⟨settledValue_included, fun s given hab => knownElements_included s given hab,
      fun _ _ _ e hab => exprNumber (ih (by omega)) e hab (.inl trivial)⟩

theorem settledValue_keeps (symbol : String) (idx : Index K) :
    Run.Keeps (settledValue symbol idx) (settledValue symbol idx) := by
  refine ensures_registry fun r => ?_
  cases hp : r.params.find? symbol with
  | none => exact ensures_fail
  | some p =>
    dsimp only
    split
    · rename_i hsettled
      refine ensures_ofExcept fun v hv t hr ht => ?_
      obtain ⟨q, hq, hpq⟩ := ht.params.find hp
      obtain rfl := hpq.settled hsettled
      refine (gives_registry.2 rfl).bind ?_
      simp [hq, hsettled, hv]
    · exact ensures_fail

/-- What is known stays known, and a deeper lookup knows it too. -/
theorem known_keeps {m n : Nat} (hmn : m ≤ n) : keeping.Lookups (known m) (known n : Lookup K) := by
  induction m generalizing n with
  | zero => exact ⟨fun _ _ => ensures_fail, fun _ _ _ => ensures_fail,
      fun _ _ _ _ _ => ensures_fail⟩
  | succ m ih =>
    obtain ⟨n, rfl⟩ : ∃ k, n = k + 1 := ⟨n - 1, by omega⟩
    refine ⟨settledValue_keeps, fun symbol given hab => ensures_registry fun r => ?_,
      fun _ _ _ e hab => exprNumber (ih (by omega)) e hab (.inl trivial)⟩
    cases hd : r.domain? symbol with
    | none => exact ensures_fail
    | some d =>
      exact ensures_ofExcept fun vs hvs t _ ht => gives_knownElements ht hd hab hvs

/-! ## Computations through the lookup of a registry -/

/-- A computation that reaches the registry through a lookup. -/
structure Through {α : Type} (f : Lookup K → Run K α) : Prop where
  keeps : ∀ {L M : Lookup K}, keeping.Lookups L M → (f L).Keeps (f M)
  includes : ∀ {L M : Lookup K}, including.Lookups L M →
    including.rel (f L) (f M)

theorem through_number (e : Expr K) (a : Env K) : Through fun L => e.number L a :=
  ⟨fun h => exprNumber h e (.refl a) (.inl trivial),
    fun h => exprNumber h e (.refl a) (.inl trivial)⟩

theorem through_holds (c : Option (Expr K)) (a : Env K) : Through fun L => Expr.holds L c a :=
  ⟨fun h => exprHolds h c (.refl a) (.inl trivial),
    fun h => exprHolds h c (.refl a) (.inl trivial)⟩

theorem through_sourceElements (src : Source K) (a : Env K) :
    Through fun L => Expr.sourceElements L src a :=
  ⟨fun h => exprSource h src (.refl a) (.inl trivial),
    fun h => exprSource h src (.refl a) (.inl trivial)⟩

theorem Registry.KeptIn.lookup (h : r.KeptIn t) : r.lookup = t.lookup := by
  simp only [Registry.lookup, h.size]

/-- Lookup of what is known, as deep as the lookup of a registry. -/
def Registry.knownLookup (t : Registry K) : Lookup K := LinearModel.known (t.size + familyDepth)

theorem start_lookup (c : Lookup K → Run K α) (s : Store K) :
    (Run.lookup >>= c).start s = (c s.registry.lookup).start s := by
  simp only [Run.lookup, bind_assoc, pure_bind, start_bind, start_registry]

theorem gives_lookup {f : Lookup K → Run K α} {x : α} :
    (Run.lookup >>= f).Gives t x ↔ (f t.lookup).Gives t x := by
  simp only [Gives, Run.lookup, bind_assoc, pure_bind, returns_bind, returns_registry]
  simp

namespace Through

variable {α : Type} {f : Lookup K → Run K α} {t : Registry K} {x : α}

/-- What is looked up without a change to the registry is known. -/
theorem gives_iff [ReflBEq (Value K)] (hf : Through f) (ht : t.Keyed) :
    (f t.lookup).Gives t x ↔ (f t.knownLookup).Gives t x := by
  constructor
  · intro h
    exact h.kept ht (hf.keeps (lookup_keeps _))
  · intro h w
    obtain ⟨w', hw'⟩ := h w
    exact ⟨w', (hf.includes (known_included (Nat.le_refl _)) ht hw').2⟩

/-- What was looked up once is looked up again in every later registry. -/
theorem stable [ReflBEq (Value K)] (hf : Through f) (r : Registry K) :
    (f r.lookup).Ensures fun t x => r.KeptIn t → (f t.lookup).Gives t x := by
  intro s x s' hs h
  obtain ⟨hkept, hknown⟩ := hf.keeps (lookup_keeps _) hs h
  refine ⟨hkept, fun t ht hrt => ?_⟩
  have ht' := hs.kept (hkept.trans ht)
  rw [hf.gives_iff ht', knownLookup, ← hrt.size]
  exact hknown ht

theorem keeps_lookup [ReflBEq (Value K)] (hf : Through f) :
    (Run.lookup >>= f).Keeps (Run.lookup >>= f) := by
  refine ensures_registry fun r => (hf.stable r).mono fun t x h _ hrt => ?_
  have hgives := gives_lookup.2 (h hrt)
  simpa only [Run.lookup, bind_assoc, pure_bind] using hgives

end Through

section

variable [ReflBEq (Value K)] (e : Expr K) (a : Env K)

theorem gives_evaluate {x : K} (ht : t.Keyed) :
    (e.evaluate a).Gives t x ↔ (e.number t.knownLookup a).Gives t x :=
  gives_lookup.trans ((through_number e a).gives_iff ht)

theorem evaluate_keeps : (e.evaluate a).Keeps (e.evaluate a) := (through_number e a).keeps_lookup

end

end LinearModel
