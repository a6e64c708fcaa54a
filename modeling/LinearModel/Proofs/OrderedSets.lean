import LinearModel.Proofs.Declared
import LinearModel.Proofs.Evaluation
import LinearModel.Proofs.Typing

/-!
# Ordered sets

A set lists its elements in order, and none of them twice. Evaluation adds members of comprehensions
to the registry, from which repeated elements have been dropped. So if the sets of a registry hold
no element twice, no domain that is resolved in it does, and the same is true afterwards.
-/
namespace LinearModel

open Run Registry Simulation Value Table

variable {K : Type} [Scalar K] {α : Type}

/-- Values no two of which are equal. -/
def Value.Distinct (vs : List (Value K)) : Prop := vs.Pairwise fun v w => (v == w) = false

theorem distinct_intRange (first last : Int) : Distinct (intRange first last : List (Value K)) := by
  refine List.pairwise_map.2 (List.pairwise_lt_range.imp fun {m n} hmn => ?_)
  have hne : first + (m : Int) ≠ first + (n : Int) := by omega
  simpa [BEq.beq, Value.beq, number?, Number.beq] using hne

/-! ## Registries -/

/-- A domain holds no element twice. -/
def Domain.IsOrdered : Domain K → Prop
  | .tuples d => Distinct d.records
  | .primitive d => Distinct d.elements
  | .computed d => ∀ m ∈ d.known.values, Distinct m
  | .index _ | .range _ => True

instance Domain.decidableIsOrdered : (d : Domain K) → Decidable d.IsOrdered
  | .tuples d => inferInstanceAs (Decidable (d.records.Pairwise fun v w => (v == w) = false))
  | .primitive d => inferInstanceAs (Decidable (d.elements.Pairwise fun v w => (v == w) = false))
  | .computed d => inferInstanceAs
      (Decidable (∀ m ∈ d.known.values, m.Pairwise fun v w => (v == w) = false))
  | .index _ | .range _ => inferInstanceAs (Decidable True)

theorem Table.mem_values_of_find? {κ β : Type} [BEq κ] {t : Table κ β} {k : κ} {b : β}
    (h : t.find? k = some b) : b ∈ t.values := by
  obtain ⟨k', hmem, -⟩ := exists_of_find? h
  exact List.mem_map.2 ⟨(k', b), hmem, rfl⟩

theorem Table.mem_values_insert {κ β : Type} [BEq κ] {t : Table κ β} {k : κ} {b c : β}
    (h : c ∈ (t.insert k b).values) : c ∈ t.values ∨ c = b := by
  obtain ⟨e, he, rfl⟩ := List.mem_map.1 h
  exact (mem_insert_beq he).imp (fun hold => List.mem_map.2 ⟨e, hold, rfl⟩) And.right

namespace Registry

/-- No set of a registry holds an element twice. -/
def HasSets (r : Registry K) : Prop := ∀ d ∈ r.domains, d.IsOrdered

instance decidableHasSets (r : Registry K) : Decidable r.HasSets :=
  inferInstanceAs (Decidable (∀ d ∈ r.domains, d.IsOrdered))

variable {r : Registry K}

omit [Scalar K] in
theorem mem_domains {d : Domain K} : d ∈ r.domains ↔
    (∃ e ∈ r.tupleSets.values, .tuples e = d) ∨ (∃ e ∈ r.computedSets.values, .computed e = d) ∨
      (∃ e ∈ r.primitiveSets.values, .primitive e = d) ∨
      (∃ e ∈ r.indexSets.values, .index e = d) ∨ ∃ e ∈ r.boundRanges.values, .range e = d := by
  simp only [domains, List.mem_append, List.mem_map, or_assoc]

omit [Scalar K] in
theorem mem_domains_of_domain? {s : String} {d : Domain K} (h : r.domain? s = some d) :
    d ∈ r.domains := by
  simp only [domain?, Option.orElse_eq_orElse, Option.orElse_eq_or, Option.or_eq_some_iff,
    Option.map_eq_some_iff] at h
  rw [mem_domains]
  obtain ⟨e, he, hd⟩ | ⟨-, ⟨e, he, hd⟩ | ⟨-, ⟨e, he, hd⟩ | ⟨-, ⟨e, he, hd⟩ | ⟨-, e, he, hd⟩⟩⟩⟩ := h
  · exact .inl ⟨e, mem_values_of_find? he, hd⟩
  · exact .inr (.inl ⟨e, mem_values_of_find? he, hd⟩)
  · exact .inr (.inr (.inl ⟨e, mem_values_of_find? he, hd⟩))
  · exact .inr (.inr (.inr (.inl ⟨e, mem_values_of_find? he, hd⟩)))
  · exact .inr (.inr (.inr (.inr ⟨e, mem_values_of_find? he, hd⟩)))

theorem HasSets.changeRange (hr : r.HasSets) (symbol : String) (f : BoundRange K → BoundRange K) :
    (r.changeRange symbol f).HasSets := by
  unfold Registry.changeRange
  split
  · intro d hd
    obtain h | h | h | h | ⟨e, -, rfl⟩ := mem_domains.1 hd
    · exact hr d (mem_domains.2 (.inl h))
    · exact hr d (mem_domains.2 (.inr (.inl h)))
    · exact hr d (mem_domains.2 (.inr (.inr (.inl h))))
    · exact hr d (mem_domains.2 (.inr (.inr (.inr (.inl h)))))
    · trivial
  · exact hr

theorem HasSets.changeMembers (hr : r.HasSets) (symbol : String) (key : Value K)
    {vs : List (Value K)} (hvs : Distinct vs) :
    (r.changeMembers symbol fun d => { d with known := d.known.insert key vs }).HasSets := by
  unfold Registry.changeMembers
  split
  · rename_i d₀ hd₀
    intro d hd
    obtain h | ⟨e, he, rfl⟩ | h := mem_domains.1 hd
    · exact hr d (mem_domains.2 (.inl h))
    · obtain he | rfl := mem_values_insert he
      · exact hr _ (mem_domains.2 (.inr (.inl ⟨e, he, rfl⟩)))
      · have hd₀' := hr _ (mem_domains.2 (.inr (.inl ⟨d₀, mem_values_of_find? hd₀, rfl⟩)))
        intro m hm
        obtain hm | rfl := mem_values_insert hm
        · exact hd₀' m hm
        · exact hvs
    · exact hr d (mem_domains.2 (.inr (.inr h)))
  · exact hr

end Registry

omit [Scalar K] in
theorem preserves_modifyRegistry {f : Registry K → Registry K} {Inv : Registry K → Prop}
    (hf : ∀ r, Inv r → Inv (f r)) : Preserves Inv (modifyRegistry f) := by
  intro s _ s' hs h
  obtain rfl := returns_modifyRegistry.1 h
  exact hf _ hs

/-! ## Lookups -/

/-- A lookup keeps the sets of a registry free of repetitions, and so are the domains it finds. -/
structure Lookup.FindsSets (L : Lookup K) : Prop where
  parameter : ∀ s idx, Preserves HasSets (L.parameter s idx)
  elements : ∀ s env given,
    (L.elements s env given).Leads HasSets HasSets Distinct
  body : ∀ e env, Preserves HasSets (L.body e env)

section Lookups

variable {L : Lookup K} (hL : L.FindsSets)

include hL

theorem Lookup.FindsSets.lookups : (preserving HasSets).Lookups L L where
  parameter := hL.parameter
  elements s given hab := by
    obtain rfl := hab
    exact fun _ _ _ hs h => (hL.elements s _ given hs h).1
  body _ _ _ e hab := by
    obtain rfl := hab
    exact hL.body e _

theorem preserves_value (e : Expr K) (env : Env K) : Preserves HasSets (e.value L env) :=
  exprValue hL.lookups e rfl (.inl trivial)

theorem preserves_enumerate (its : List (Iter K)) (c : Option (Expr K)) (env : Env K)
    {each : Env K → Run K α} (heach : ∀ inner, Preserves HasSets (each inner)) :
    Preserves HasSets (enumerate L its c env each) :=
  Simulation.combinations hL.lookups its c (g := each) (fun {inner} _ _ => heach inner)
    (rfl : env = env) (.inl trivial) (.inl trivial)

theorem preserves_rangeBound (e : Expr K) (env : Env K) :
    Preserves HasSets (rangeBound e (e.value L env)) :=
  Simulation.rangeBound (R := Simulation.preserving HasSets) (y := e.value L env) e
    (preserves_value hL e env)

theorem sourceElements_leads (src : Source K) (env : Env K) :
    (Expr.sourceElements L src env).Leads HasSets HasSets Distinct := by
  cases src with
  | named s outer =>
    cases outer with
    | none =>
      exact hL.elements s env none
    | some e =>
      exact (preserves_value hL e env).leads.bind fun v _ => hL.elements s env (some v)
  | range a b =>
    refine (preserves_rangeBound hL a env).leads.bind fun first _ => ?_
    refine (preserves_rangeBound hL b env).leads.bind fun last _ => ?_
    exact leads_pure (distinct_intRange first last)

theorem preserves_parameterValue (symbol : String) (idx : Index K) :
    Preserves HasSets (parameterValue L symbol idx) := by
  let R := preserving (K := K) HasSets
  refine Comparison.parameterValue (R := R.comparison) (M := L) idx (fun h => by rw [h]) ?_
  intro r r' p e _ _ _
  rw [defineParameter_eq, draftParameter_eq]
  -- parameters are no domains, so none of the steps that change one matters
  have hput : ∀ p : Parameter K, Preserves HasSets (modifyRegistry (·.putParameter p)) :=
    fun p => preserves_modifyRegistry fun r hr => hr
  refine R.seq (R.seq (hput _) fun _ => ?_) fun _ => ?_
  · refine Simulation.fillParameter hL.lookups (rfl : Env.empty = Env.empty) (.inl trivial) ?_
    intro place v s _ s' hs h
    obtain ⟨p, q, -, -, rfl⟩ := (returns_writing place).1 h
    exact hs
  · refine preserves_modifyRegistry fun r (hr : r.HasSets) => ?_
    unfold closeParameter
    split <;> exact hr

theorem preserves_boundOf (symbol : String) (e : Expr K) (bound : Option Int)
    (note : Int → BoundRange K → BoundRange K) (env : Env K) :
    Preserves HasSets (boundOf L symbol e bound note env) := by
  unfold boundOf
  split
  · exact Steady.preserves (steady_pure _) _
  · refine (preserves_rangeBound hL e env.spawn).bind fun i => ?_
    refine (preserves_modifyRegistry fun r (hr : r.HasSets) => ?_).bind fun _ =>
      Steady.preserves (steady_pure _) _
    exact hr.changeRange symbol (note i)

theorem comprehend_leads (d : ComputedSet K) (env : Env K) :
    (comprehend L d env).Leads HasSets HasSets Distinct := by
  refine (preserves_enumerate hL d.iterators d.condition env fun inner => ?_).leads.bind
    fun found _ => leads_pure (distinct_spec found).2
  split
  · exact Steady.preserves (Steady.bind (steady_ofExcept _) fun v => steady_pure _) _
  · rename_i e _
    exact (preserves_value hL e inner).bind fun v => Steady.preserves (steady_pure _) _

theorem memberElements_leads {d : ComputedSet K} (hd : (Domain.computed d).IsOrdered) (env : Env K)
    (given : Option (Value K)) : (memberElements L d env given).Leads HasSets HasSets Distinct := by
  refine leads_after (steady_ofExcept _) fun scope => ?_
  obtain ⟨key, scope⟩ := scope
  simp only
  split
  · rename_i vs hvs
    exact leads_pure (hd vs (mem_values_of_find? hvs))
  · refine (comprehend_leads hL d scope).bind fun vs hvs => ?_
    refine (leads_modifyRegistry fun r hr => hr.changeMembers d.symbol key hvs).bind fun _ _ => ?_
    exact leads_pure hvs

theorem domainElements_leads (symbol : String) (env : Env K) (given : Option (Value K)) :
    (domainElements L symbol env given).Leads HasSets HasSets Distinct := by
  refine leads_registry.bind fun r hr => ?_
  split
  · exact leads_fail
  · rename_i d hd
    exact leads_pure (hr _ (mem_domains_of_domain? hd))
  · rename_i d hd
    exact leads_pure (hr _ (mem_domains_of_domain? hd))
  · exact leads_pure (distinct_intRange _ _)
  · rename_i d _
    refine (preserves_boundOf hL d.symbol d.first d.knownFirst _ env).leads.bind fun first _ => ?_
    refine leads_registry.bind fun r _ => ?_
    refine (preserves_boundOf hL d.symbol d.last _ _ env).leads.bind fun last _ => ?_
    exact leads_pure (distinct_intRange first last)
  · rename_i d hd
    exact memberElements_leads hL (hr _ (mem_domains_of_domain? hd)) env given

end Lookups

/-- Every lookup finds domains that hold no element twice. -/
theorem lookup_findsSets : ∀ n, (lookup n : Lookup K).FindsSets
  | 0 => ⟨fun _ _ _ _ _ _ h => absurd h not_returns_fail, fun _ _ _ => leads_fail,
      fun _ _ _ _ _ _ h => absurd h not_returns_fail⟩
  | n + 1 =>
    have hL := lookup_findsSets n
    ⟨preserves_parameterValue hL, domainElements_leads hL,
      fun e _ => exprNumber hL.lookups e rfl (.inl trivial)⟩

/-! ## Problems that are reached -/

theorem PrimitiveSet.distinct_withElements {d d' : PrimitiveSet K} {vs : List (Value K)}
    (h : d.withElements vs = .ok d') : Distinct d'.elements := by
  obtain ⟨ws, -, h⟩ := bind_eq_ok.1 h
  cases h
  exact (distinct_spec ws).2

theorem TupleSet.distinct_recordsOf {d : TupleSet K} {vs records : List (Value K)}
    (h : d.recordsOf vs = .ok records) : Distinct records := by
  obtain ⟨ws, -, h⟩ := bind_eq_ok.1 h
  cases h
  exact (distinct_spec ws).2

/-- An entity that is no domain, or a domain that holds no element twice. -/
def Entity.IsOrdered : Entity K → Prop
  | .domain d => d.IsOrdered
  | _ => True

namespace Registry

variable {r : Registry K}

omit [Scalar K] in
theorem mem_domains_putDomain {d e : Domain K} (h : e ∈ (r.putDomain d).domains) :
    e ∈ r.domains ∨ e = d := by
  rw [mem_domains] at h ⊢
  cases d <;> grind [putDomain, Table.mem_values_insert]

theorem HasSets.putDomain (hr : r.HasSets) {d : Domain K} (hd : d.IsOrdered) :
    (r.putDomain d).HasSets := by
  intro e he
  obtain he | rfl := mem_domains_putDomain he
  exacts [hr e he, hd]

theorem HasSets.declare (hr : r.HasSets) {e : Entity K} (he : e.IsOrdered) {t : Registry K}
    (h : r.declare e = .ok t) : t.HasSets := by
  unfold Registry.declare at h
  split at h
  · cases h
  · cases h
    cases e with
    | domain d => exact hr.putDomain he
    | _ => exact hr

/-- What was computed is forgotten, and the sets that are given stay. -/
theorem HasSets.invalidate (hr : r.HasSets) : r.invalidate.HasSets := by
  intro d hd
  obtain h | ⟨e, he, rfl⟩ | h | h | ⟨e, -, rfl⟩ := mem_domains.1 hd
  · exact hr d (mem_domains.2 (.inl h))
  · obtain ⟨entry, hentry, rfl⟩ := List.mem_map.1 he
    obtain ⟨old, -, rfl⟩ := List.mem_map.1 hentry
    exact fun m hm => by cases hm
  · exact hr d (mem_domains.2 (.inr (.inr (.inl h))))
  · exact hr d (mem_domains.2 (.inr (.inr (.inr (.inl h)))))
  · trivial

theorem renewed_hasSets : Renewed (K := K) HasSets HasSets where
  stored _ _ hr := hr
  elements hd hr := hr.putDomain (PrimitiveSet.distinct_withElements hd)
  records hd hr := hr.putDomain (TupleSet.distinct_recordsOf hd)
  forgotten hr := hr.invalidate

end Registry

theorem evaluateValue_hasSets (e : Expr K) (env : Env K) :
    Preserves HasSets (e.evaluateValue env) := by
  intro s v s' hs h
  obtain ⟨L, t, ⟨rfl, rfl⟩, h⟩ := returns_bind.1 h
  exact preserves_value (lookup_findsSets _) e env hs h

theorem resolveDomain_hasSets (symbol : String) (env : Env K) (given : Option (Value K)) :
    Preserves HasSets (resolveDomain symbol env given) := by
  intro s vs s' hs h
  obtain ⟨L, t, ⟨rfl, rfl⟩, h⟩ := returns_bind.1 h
  exact ((lookup_findsSets _).elements symbol env given hs h).1

/-- The domains that statements declare hold no element twice. -/
theorem Registry.makes_ordered (r : Registry K) : r.Makes (.onReturn HasSets) (fun _ => True)
    (fun _ => True) (fun _ => True) Entity.IsOrdered where
  forms := r.forms_any
  simplified _ _ := trivial
  value {e} _ := (evaluateValue_hasSets e _).meets
  elements symbol := (resolveDomain_hasSets symbol _ _).meets
  normal := id
  number _ := trivial
  text _ := trivial
  list _ := trivial
  record _ _ _ := trivial
  schema _ := trivial
  decisionVariable _ := trivial
  index _ := trivial
  range _ _ _ _ _ := trivial
  tuples _ _ := (distinct_spec _).2
  primitive _ h := PrimitiveSet.distinct_withElements h
  computed hd _ _ _ := by
    intro m hm
    rw [hd] at hm
    cases hm
  unfilled _ := trivial
  set _ _ _ := trivial
  array _ _ _ := trivial
  derived _ _ _ := trivial

/-- The sets of a registry stay free of repetitions, and the decision expressions as they are. -/
def Progress.sets : Progress K where
  holds _ := True
  later r t := (r.HasSets → t.HasSets) ∧ t.dexprs = r.dexprs
  refl _ := ⟨id, rfl⟩
  trans h h' := ⟨h'.1 ∘ h.1, h'.2.trans h.2⟩
  kept _ _ := trivial

theorem Progress.sets_lookups (n : Nat) :
    (advancing (sets : Progress K)).Lookups (lookup n) (lookup n) where
  parameter s idx _ _ _ _ h :=
    have hdeclared := (declared_absorbs.lookups n).parameter s idx trivial h
    ⟨⟨fun hr => (lookup_findsSets n).parameter s idx hr h, hdeclared.1.2⟩, fun _ _ => trivial⟩
  elements {env _} s given hab := by
    obtain rfl := hab
    intro t vs t' _ h
    have hdeclared := (declared_absorbs.lookups n).elements s given (rfl : env = env) trivial h
    exact ⟨⟨fun hr => ((lookup_findsSets n).elements s env given hr h).1, hdeclared.1.2⟩,
      fun _ _ => trivial⟩
  body hopen env _ e hab := by
    obtain rfl := hab
    intro t x t' _ h
    have hdeclared := (declared_absorbs.lookups n).body hopen e (rfl : env = env) trivial h
    exact ⟨⟨fun hr => (lookup_findsSets n).body e env hr h, hdeclared.1.2⟩, fun _ _ => trivial⟩

theorem Registry.hasSets_lasts : Lasts (K := K) HasSets where
  empty d hd := by cases hd
  read textual text s stmt s' hs h := by
    refine (parseStatement_declares (Q := Entity.IsOrdered) (forms_any _) (fun g => ?_) id
      (fun ht he => ht.declare he) rfl hs h).1
    exact (Grammar.Yields.any g).declares (makes_ordered _) fun _ _ => trivial
  data hx _ _ _ hs h := (hx.leads renewed_hasSets hs h).1
  value := evaluateValue_hasSets
  references stmts _ _ _ hs h := by
    have hany (r : Registry K) :=
      Judgement.any_sound (r := r) (Progress.sets_lookups _) fun h => h.2
    exact (Judgement.Sound.referencesOf hany stmts trivial h).1.1 hs

/-- No set of a problem that is reached holds an element twice. -/
theorem Problem.Reached.hasSets {p : Problem K} (h : p.Reached) : p.registry.HasSets :=
  h.keeps hasSets_lasts

end LinearModel
