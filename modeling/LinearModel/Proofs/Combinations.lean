import LinearModel.Proofs.OrderedSets
import LinearModel.Proofs.Repetition
import LinearModel.Proofs.ScopedBindings

/-!
# Combinations

The combinations of some iterators are listed in the lexicographic order of the positions that their
elements have in the domains. Each domain is resolved under the elements before, the elements pass
the filters, and the condition holds in the end. If sets hold no element twice, as in every problem
that is reached, the combinations are all different. In a tidy registry they are those that the
registry gives in the end, whatever was known in between.
-/
namespace LinearModel

open Run Expr Stage Registry

variable {K : Type} {α : Type} {vss : List (List (Value K))} {vs ws : List (Value K)}
  {ps : List Nat}

namespace Stage

variable {last : Env K → Run K (List α)} {st : Stage K} {rest ss : List (Stage K)}
  {env inner : Env K} {s s' : Store K}

/-! ## Domains without repetitions -/

/-- An iterator whose domain holds no element twice, in registries whose sets do not either. -/
structure ListsSets [Scalar K] (st : Stage K) : Prop where
  elements : ∀ env, (st.elements env).Leads HasSets HasSets Value.Distinct
  admits : ∀ env, Preserves HasSets (st.admits env)

section Distinct

variable [Scalar K]

theorem preserves_branch (hst : st.ListsSets)
    (hrest : ∀ env, Preserves HasSets (visit rest last env)) (env : Env K) (v : Value K) :
    Preserves HasSets (st.branch last rest env v) := by
  refine (hst.admits _).bind fun passes => ?_
  split
  · exact hrest _
  · exact Steady.preserves (steady_pure _) _

variable (hlast : ∀ env, Preserves HasSets (last env))

include hlast

theorem preserves_visit (hss : ∀ st ∈ ss, st.ListsSets) (env : Env K) :
    Preserves HasSets (visit ss last env) := by
  induction ss generalizing env with
  | nil => exact hlast env
  | cons st rest ih =>
    obtain ⟨hst, hrest⟩ := List.forall_mem_cons.1 hss
    refine Preserves.bind (fun _ _ _ hs h => (hst.elements env hs h).1) fun vs => ?_
    refine Preserves.bind (fun _ _ _ hs h => ?_) fun found => Steady.preserves (steady_pure _) _
    exact (leads_mapM vs (fun v => (preserves_branch hst (ih hrest) env v).leads) hs h).1

theorem Comes.hasSets (hst : st.ListsSets) (hrest : ∀ st ∈ rest, st.ListsSets) {i : Nat}
    {v : Value K} (hs : s.registry.HasSets) (h : st.Comes last rest env s i v s') :
    s'.registry.HasSets := by
  obtain ⟨vs, s₁, found, hvs, -, hfound⟩ := h
  have hbranch := preserves_branch hst (preserves_visit hlast hrest) env
  exact (leads_mapM _ (fun v => (hbranch v).leads) (hst.elements env hs hvs).1 hfound).1

/-- Combinations at different positions are different. -/
theorem Walks.beq_eq_false (hss : ∀ st ∈ ss, st.ListsSets) {ps qs : List Nat}
    {inner' : Env K} {s₁ s₂ : Store K} (hs : s.registry.HasSets)
    (hvs : Walks last ss env s ps vs [] inner s₁) (hws : Walks last ss env s qs ws [] inner' s₂)
    (hlt : ps < qs) : (vs == ws) = false := by
  induction ss generalizing env s ps vs qs ws with
  | nil =>
    cases hvs
    cases hws
    exact absurd hlt (List.lt_irrefl _)
  | cons st rest ih =>
    obtain ⟨hst, hrest⟩ := List.forall_mem_cons.1 hss
    cases hvs with
    | @on _ _ _ _ _ _ t t' _ i v ps vs hcomes hpasses hvs =>
      cases hws with
      | @on _ _ _ _ _ _ u u' _ j w qs ws hcomes' hpasses' hws =>
        rw [List.cons_beq_cons, Bool.and_eq_false_iff]
        obtain hij | ⟨rfl, hlater⟩ := List.cons_lt_cons_iff.1 hlt
        · -- the first domain is the same for both, and it holds no element twice
          obtain ⟨D, s₃, _, hD, hv, _⟩ := hcomes
          obtain ⟨D', s₄, _, hD', hw, _⟩ := hcomes'
          obtain ⟨rfl, rfl⟩ := hD.unique hD'
          obtain ⟨hi, rfl⟩ := List.getElem?_eq_some_iff.1 hv
          obtain ⟨hj, rfl⟩ := List.getElem?_eq_some_iff.1 hw
          exact .inl (List.pairwise_iff_getElem.1 (hst.elements env hs hD).2 i j hi hj hij)
        · obtain ⟨rfl, rfl⟩ := hcomes.unique hcomes'
          obtain ⟨-, rfl⟩ := hpasses.unique hpasses'
          have ht := hst.admits _ (hcomes.hasSets hlast hst hrest hs) hpasses
          exact .inr (ih hrest ht hvs hws hlater)

end Distinct

end Stage

/-! ## Iterators and their elements -/

/-- Iterators are bound to values. -/
def Env.BindsTo (env : Env K) (its : List (Iter K)) (vs : List (Value K)) : Prop :=
  List.Forall₂ (fun it v => env.get? it.symbol = some v) its vs

theorem Stage.Walks.get? {last : Env K → Run K (List α)} {ss ss' : List (Stage K)}
    {env inner : Env K} {s s' : Store K}
    (h : Walks last ss env s ps vs ss' inner s') {symbol : String}
    (hsymbol : ∀ st ∈ ss, st.symbol ≠ symbol) : inner.get? symbol = env.get? symbol := by
  induction h with
  | here => rfl
  | on _ _ _ ih =>
    rw [List.forall_mem_cons] at hsymbol
    rw [ih hsymbol.2, Env.get?_bind_of_ne _ _ hsymbol.1]

theorem pairwise_of_positions {pss : List (List Nat)} (hlength : pss.length = vss.length)
    (hordered : pss.Pairwise (· < ·)) {R : List (Value K) → List (Value K) → Prop}
    (hR : ∀ {ps qs vs ws}, (ps, vs) ∈ pss.zip vss → (qs, ws) ∈ pss.zip vss → ps < qs → R vs ws) :
    vss.Pairwise R := by
  rw [List.pairwise_iff_getElem] at hordered ⊢
  intro i j hi hj hij
  have hmem : ∀ (k : Nat) (hk : k < vss.length), (pss[k], vss[k]) ∈ pss.zip vss := fun k hk =>
    List.mem_iff_getElem.2 ⟨k, by simp [hlength, hk], List.getElem_zip⟩
  exact hR (hmem i hi) (hmem j hj) (hordered i j _ _ hij)

variable [Scalar K] {L : Lookup K} {its : List (Iter K)} {c : Option (Expr K)} {env inner : Env K}
  {s s' : Store K}

omit [Scalar K] in
theorem returns_boundValues (h : inner.BindsTo its vs) :
    (boundValues its inner).Returns s ws s' ↔ vs = ws ∧ s = s' := by
  unfold boundValues
  induction h generalizing ws with
  | nil => exact returns_mapM_nil
  | cons hv _ ih =>
    rw [returns_mapM_cons]
    simp only [returns_ofExcept, Env.get, hv]
    constructor
    · rintro ⟨v, s₁, us, ⟨hv, rfl⟩, hus, rfl⟩
      cases hv
      obtain ⟨rfl, rfl⟩ := ih.1 hus
      exact ⟨rfl, rfl⟩
    · rintro ⟨rfl, rfl⟩
      exact ⟨_, s, _, ⟨rfl, rfl⟩, ih.2 ⟨rfl, rfl⟩, rfl⟩

theorem Expr.length_stages (L : Lookup K) (its : List (Iter K)) :
    (stages L its).length = its.length := by
  induction its with
  | nil => simp only [stages, List.length_nil]
  | cons it its ih => simp only [stages, List.length_cons, ih]

theorem Expr.exists_of_mem_stages {st : Stage K} (h : st ∈ stages L its) :
    ∃ it ∈ its, st = stage L it := by
  induction its with
  | nil => simp [stages] at h
  | cons it its ih =>
    simp only [stages, List.mem_cons] at h
    obtain rfl | h := h
    · exact ⟨it, List.mem_cons_self, rfl⟩
    · obtain ⟨it', hit', rfl⟩ := ih h
      exact ⟨it', List.mem_cons_of_mem _ hit', rfl⟩

/-- Iterators with symbols of their own are bound to the elements on the way. -/
theorem Stage.Walks.shows {last : Env K → Run K (List α)} (hits : (its.map Iter.symbol).Nodup)
    (h : Walks last (stages L its) env s ps vs [] inner s') : inner.BindsTo its vs := by
  induction its generalizing env s ps vs with
  | nil =>
    cases h
    exact .nil
  | cons it its ih =>
    rw [List.map_cons, List.nodup_cons] at hits
    cases h with
    | on _ _ h =>
      refine .cons ?_ (ih hits.2 h)
      rw [h.get?, stage_symbol, Env.get?_bind_self]
      intro st hst heq
      obtain ⟨it', hit', rfl⟩ := exists_of_mem_stages hst
      rw [stage_symbol] at heq
      exact hits.1 (List.mem_map.2 ⟨it', hit', heq⟩)

/-- A combination is admitted: its elements, at some positions of the domains, pass the filters, and
then the condition holds. -/
def Admits (L : Lookup K) (its : List (Iter K)) (c : Option (Expr K)) (env : Env K) (s : Store K)
    (ps : List Nat) (vs : List (Value K)) : Prop :=
  ∃ inner s₁ s₂, Walks (harvest (holds L c) (boundValues its)) (stages L its)
    env s ps vs [] inner s₁ ∧ (holds L c inner).Returns s₁ true s₂

/-- On the way to a combination, a domain, a filter or the condition fails. -/
def Interrupts (L : Lookup K) (its : List (Iter K)) (c : Option (Expr K)) (env : Env K)
    (s : Store K) (f : Failure K) (s' : Store K) : Prop :=
  ∃ ps vs ss inner s₁,
    Walks (harvest (holds L c) (boundValues its)) (stages L its)
      env s ps vs ss inner s₁ ∧
    Breaks (harvest (holds L c) (boundValues its)) (holds L c)
      ss inner s₁ f s'

theorem finds_iff_admits (hits : (its.map Iter.symbol).Nodup) :
    Finds (holds L c) (boundValues its) (stages L its) env s ps vs ws ↔
      vs = ws ∧ Admits L its c env s ps vs := by
  constructor
  · rintro ⟨inner, s₁, s₂, s₃, hwalks, hholds, hws⟩
    obtain ⟨rfl, -⟩ := (returns_boundValues (hwalks.shows hits)).1 hws
    exact ⟨rfl, inner, s₁, s₂, hwalks, hholds⟩
  · rintro ⟨rfl, inner, s₁, s₂, hwalks, hholds⟩
    exact ⟨inner, s₁, s₂, s₂, hwalks, hholds,
      (returns_boundValues (hwalks.shows hits)).2 ⟨rfl, rfl⟩⟩

theorem combinations_eq_visit (h : env.depth + its.length ≤ maxIterators) :
    combinations L its c env = visit (stages L its)
      (harvest (holds L c) (boundValues its)) env := by
  rw [combinations, enumerate, enumerate_eq, length_stages, if_neg (Nat.not_lt.2 h)]

/-- The combinations that are admitted are listed in the order of their positions. -/
theorem exists_positions (hits : (its.map Iter.symbol).Nodup)
    (hdepth : env.depth + its.length ≤ maxIterators)
    (h : (combinations L its c env).Returns s vss s') :
    ∃ pss : List (List Nat), pss.length = vss.length ∧ pss.Pairwise (· < ·) ∧
      ∀ ps vs, (ps, vs) ∈ pss.zip vss ↔ Admits L its c env s ps vs := by
  rw [combinations_eq_visit hdepth] at h
  obtain ⟨ws, hws⟩ := gathers_visit h
  refine ⟨ws.map (·.1), ?_, hws.ordered, fun ps vs => ?_⟩
  · rw [← hws.findings, List.length_map, List.length_map]
  · rw [← hws.findings, List.zip_map', List.mem_map]
    constructor
    · rintro ⟨⟨qs, us, ws⟩, hmem, heq⟩
      obtain ⟨rfl, rfl⟩ : qs = ps ∧ ws = vs := by simpa using heq
      obtain ⟨rfl, hadmits⟩ := (finds_iff_admits hits).1 ((hws.mem_iff _ _ _).1 hmem)
      exact hadmits
    · intro hadmits
      exact ⟨(ps, vs, vs), (hws.mem_iff _ _ _).2 ((finds_iff_admits hits).2 ⟨rfl, hadmits⟩), rfl⟩

/-- Listing combinations fails exactly where a domain, a filter or the condition on a way does. -/
theorem fails_combinations (hits : (its.map Iter.symbol).Nodup)
    (hdepth : env.depth + its.length ≤ maxIterators) {f : Failure K} :
    (combinations L its c env).Fails s f s' ↔ Interrupts L its c env s f s' := by
  rw [combinations_eq_visit hdepth, fails_visit]
  constructor
  · rintro ⟨ps, vs, ss, inner, s₁, hwalks, hbreaks⟩
    refine ⟨ps, vs, ss, inner, s₁, hwalks, hbreaks.imp ?_⟩
    rintro rfl h
    obtain h | ⟨holds, s₂, -, h⟩ := fails_bind.1 h
    · exact h
    · -- the values of the iterators are at hand, so listing them does not fail
      cases holds with
      | false => exact absurd h not_fails_pure
      | true =>
        obtain h | ⟨_, _, -, h⟩ := fails_bind.1 h
        · have hreturns := (returns_boundValues (s := s₂) (hwalks.shows hits)).2 ⟨rfl, rfl⟩
          cases hreturns.symm.trans h
        · exact absurd h not_fails_pure
  · rintro ⟨ps, vs, ss, inner, s₁, hwalks, hbreaks⟩
    exact ⟨ps, vs, ss, inner, s₁, hwalks, hbreaks.imp fun _ h => fails_bind.2 (.inl h)⟩

theorem listsSets_stages (hL : L.FindsSets) : ∀ st ∈ stages L its, st.ListsSets := by
  intro st hst
  obtain ⟨it, -, rfl⟩ := exists_of_mem_stages hst
  constructor
  · intro env
    rw [stage_elements]
    exact sourceElements_leads hL it.source env
  · intro env
    rw [stage_admits]
    exact Simulation.exprHolds hL.lookups it.filter rfl (.inl trivial)

/-- Where sets hold no element twice, no two combinations that are admitted are equal. -/
theorem Admits.beq_eq_false (hL : L.FindsSets) (hs : s.registry.HasSets) {ps qs : List Nat}
    (hvs : Admits L its c env s ps vs) (hws : Admits L its c env s qs ws)
    (hlt : ps < qs) : (vs == ws) = false := by
  obtain ⟨inner, s₁, -, hvs, -⟩ := hvs
  obtain ⟨inner', s₂, -, hws, -⟩ := hws
  refine Walks.beq_eq_false (fun env => ?_) (listsSets_stages hL) hs hvs hws hlt
  refine Preserves.bind (Simulation.exprHolds hL.lookups c rfl (.inl trivial)) fun b => ?_
  split
  · refine Preserves.bind (Steady.preserves ?_ _) fun vs => Steady.preserves (steady_pure _) _
    exact steady_mapM _ fun it => steady_ofExcept _
  · exact Steady.preserves (steady_pure _) _

/-- In a tidy registry the combinations are those of the elements that domains, filters and the
condition give in the registry that is left. -/
theorem mem_combinations_iff [ReflBEq (Value K)] (hs : s.registry.Tidy)
    (h : (combinations s.registry.lookup its c env).Returns s vss s') (vs : List (Value K)) :
    vs ∈ vss ↔ ∃ inner, s'.registry.Binds its env inner ∧
      (holds s'.registry.lookup c inner).Gives s'.registry true ∧ inner.BindsTo its vs := by
  have hvalues : ∀ inner, (boundValues its inner).Secures fun _ ws => inner.BindsTo its ws := by
    intro inner
    refine ensures_mapM its fun it => ensures_ofExcept fun v hv _ => ?_
    unfold Env.get at hv
    split at hv
    · rename_i w hw
      cases hv
      exact hw
    · cases hv
  obtain ⟨hkept, hlists⟩ := enumerate_secures s.registry hvalues its c env hs h
  have hlists := hlists (.refl _) hkept
  constructor
  · intro hvs
    obtain ⟨inner, ⟨hbinds, hholds⟩, hto⟩ := hlists.exists_of_mem hvs
    exact ⟨inner, hbinds, hholds, hto⟩
  · rintro ⟨inner, hbinds, hholds, hto⟩
    obtain ⟨ws, hws, hto'⟩ := hlists.exists_mem ⟨hbinds, hholds⟩
    have hreturns := (returns_boundValues (s := s) hto').2 ⟨rfl, rfl⟩
    obtain ⟨rfl, -⟩ := (returns_boundValues hto).1 hreturns
    exact hws

/-- The combinations of iterators with distinct symbols are the filtered dependent product of their
domains. If there are too many iterators, an enumeration fails and nothing has been resolved.
Otherwise listing them fails exactly where a domain, a filter or the condition does. If none of them
does, it lists the combinations whose elements come from the domains resolved under the elements
before them, that pass the filters and under which the condition holds, in the lexicographic order
of the positions of their elements. No combination is listed twice if sets hold no element twice.
Whatever is done for the combinations, if the bindings are made in one environment, it is afterwards
what it was, also after a failure. -/
theorem combinations_filtered_product (n : Nat) (its : List (Iter K))
    (hits : (its.map Iter.symbol).Nodup) (c : Option (Expr K)) (env : Env K) (s : Store K) :
    (maxIterators < env.depth + its.length → ∀ {α : Type} (each : Env K → Run K α),
      (enumerate (lookup n) its c env each).Fails s
        { cause := .tooManyIterators maxIterators } s) ∧
    (env.depth + its.length ≤ maxIterators →
      (∀ f s', (combinations (lookup n) its c env).Fails s f s' ↔
        Interrupts (lookup n) its c env s f s') ∧
      ((∀ f s', ¬ Interrupts (lookup n) its c env s f s') →
        ∃ vss s', (combinations (lookup n) its c env).Returns s vss s' ∧
          (∃ pss : List (List Nat), pss.length = vss.length ∧ pss.Pairwise (· < ·) ∧
            ∀ ps vs, (ps, vs) ∈ pss.zip vss ↔ Admits (lookup n) its c env s ps vs) ∧
          (s.registry.HasSets → vss.Pairwise fun vs ws => (vs == ws) = false) ∧
          (ReflBEq (Value K) → s.registry.Tidy → lookup n = s.registry.lookup → ∀ vs,
            vs ∈ vss ↔ ∃ inner, s'.registry.Binds its env inner ∧
              (holds s'.registry.lookup c inner).Gives s'.registry true ∧
              inner.BindsTo its vs))) ∧
    ∀ {α : Type} (each : Env K → Run K α),
      (InPlace.enumerate (stages (lookup n) its) (holds (lookup n) c) each).start
          (env, s) =
        (((enumerate (lookup n) its c env each).start s).1, env,
          ((enumerate (lookup n) its c env each).start s).2) := by
  refine ⟨fun hdepth _ each => ?_, fun hdepth => ?_, fun each => ?_⟩
  · rw [enumerate, enumerate_eq, length_stages, if_pos hdepth]
    exact fails_fail.2 ⟨rfl, rfl⟩
  · refine ⟨fun f s' => fails_combinations hits hdepth, fun hnone => ?_⟩
    cases h : (combinations (lookup n) its c env).start s with
    | mk answer s' =>
      cases answer with
      | error f => exact absurd ((fails_combinations hits hdepth).1 h) (hnone f s')
      | ok vss =>
        obtain ⟨pss, hlength, hordered, hmem⟩ := exists_positions hits hdepth h
        refine ⟨vss, s', h, ⟨pss, hlength, hordered, hmem⟩, fun hsets => ?_, ?_⟩
        · refine pairwise_of_positions hlength hordered fun hvs hws hlt => ?_
          exact ((hmem _ _).1 hvs).beq_eq_false (lookup_findsSets n) hsets ((hmem _ _).1 hws) hlt
        · intro _ htidy hlookup
          rw [hlookup] at h
          exact mem_combinations_iff htidy h
  · rw [InPlace.enumerate_eq_ask, InPlace.start_ask]
    rfl

/-- Numbers out of order, one of them given twice, and the squares below each. -/
def squaresModel : Work ℚ Unit :=
  Work.addScript false "{int} I = {3, 1, 3, 2}; {int} S[i in I] = {k*k | k in 1..i : k > 1};"

/-- A number, one of its squares below a bound, and a whole number up to the first. -/
def squaresBelow : List (Iter ℚ) :=
  [.mk "i" (.named "I" none) none,
    .mk "j" (.named "S" (some (.name "i"))) (some (.rel .lt (.name "j") (.num 9))),
    .mk "k" (.range (.num 1) (.name "i")) none]

/-- The whole number is not two. -/
def notTwo : Expr ℚ := .rel .ne (.name "k") (.num 2)

theorem combinations_filtered_product_squares :
    (squaresBelow.map Iter.symbol).Nodup ∧ ∃ (p : Problem ℚ) (s s' : Store ℚ)
      (vss : List (List (Value ℚ))), p.Reached ∧ s.registry = p.registry ∧
      (combinations s.registry.lookup squaresBelow (some notTwo) Env.empty).Returns s vss s' ∧
      vss.map (·.map Value.text) = [["3", "4", "1"], ["3", "4", "3"], ["2", "4", "1"]] ∧
      (∃ pss : List (List Nat), pss.length = 3 ∧ pss.Pairwise (· < ·) ∧ ∀ ps vs,
        (ps, vs) ∈ pss.zip vss ↔
          Admits s.registry.lookup squaresBelow (some notTwo) Env.empty s ps vs) ∧
      (vss.Pairwise fun vs ws => (vs == ws) = false) ∧
      ∀ vs, vs ∈ vss ↔ ∃ inner, s'.registry.Binds squaresBelow Env.empty inner ∧
        (holds s'.registry.lookup (some notTwo) inner).Gives s'.registry true ∧
        inner.BindsTo squaresBelow vs := by
  have hits : (squaresBelow.map Iter.symbol).Nodup := by decide
  have hrun : ((do
      squaresModel
      let p ← Work.problem
      let vss ← Work.ofRun (combinations p.registry.lookup squaresBelow (some notTwo) Env.empty)
      return vss.map (·.map Value.text) : Work ℚ (List (List String))).carry
        blankWorkspace).1.toOption =
          some [["3", "4", "1"], ["3", "4", "3"], ["2", "4", "1"]] := by
    decide +kernel
  obtain ⟨w'', h⟩ := Work.returns_of_toOption hrun
  obtain ⟨_, w, hscript, h⟩ := Work.returns_bind.1 h
  replace h := Work.returns_problem_bind.1 h
  obtain ⟨vss, w', hvss, h⟩ := Work.returns_bind.1 h
  have htexts := (Work.returns_pure.1 h).1
  obtain ⟨s', hvss, -⟩ := Work.returns_ofRun.1 hvss
  have hreached := Problem.Reached.script (.start none none none) hscript
  have hproduct := combinations_filtered_product (w.problem.registry.size + familyDepth)
    squaresBelow hits (some notTwo) Env.empty ⟨w.problem.registry, w.warnings⟩
  obtain ⟨hfails, hreturns⟩ := hproduct.2.1 (by decide)
  obtain ⟨vss', s'', hvss', ⟨pss, hlength, hordered, hmem⟩, hne, hbinds⟩ :=
    hreturns fun f t hf => by cases hvss.symm.trans ((hfails f t).2 hf)
  obtain ⟨rfl, rfl⟩ := hvss.unique hvss'
  have hthree : vss.length = 3 := by rw [← List.length_map, htexts]; rfl
  exact ⟨hits, w.problem, ⟨w.problem.registry, w.warnings⟩, s', vss, hreached, rfl, hvss, htexts,
    ⟨pss, hlength.trans hthree, hordered, hmem⟩, hne hreached.hasSets,
    hbinds inferInstance hreached.isSound.toTidy rfl⟩

end LinearModel
