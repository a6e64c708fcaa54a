import LinearModel.LinearForm
import LinearModel.Proofs.Returns

/-!
# Mentions

An expression mentions parameters, domains, decision variables and decision expressions. Names that
an enclosing iterator binds are no mentions. The index of a decision expression is evaluated inside
it, and bindings are substituted into it outside, so that what it mentions stands in both places. A
place is given by the decision expressions that are looked into there.
-/
namespace LinearModel

open Run Expr

variable {K : Type} {α β : Type} {a : Env K} {bound : List String}

/-- Something that an expression refers to by name. -/
inductive Mention where
  | parameter (symbol : String)
  | domain (symbol : String)
  | dvar (symbol : String)
  | dexpr (symbol : String)
  deriving DecidableEq

/-- A mention, and the decision expressions inside of which it stands, outermost first. -/
abbrev Site := List String × Mention

mutual
/-- What an expression mentions where some names are bound. -/
def Expr.mentions (bound : List String) : Expr K → List Site
  | .num _ | .str _ | .record _ _ => []
  | .name s => if s ∈ bound then [] else [([], .parameter s)]
  | .param s es => ([], .parameter s) :: Expr.allMentions bound es
  | .var _ b _ => [([], .dvar b)]
  | .ivar s es => ([], .dvar s) :: Expr.allMentions bound es
  | .dexpr s none => [([], .dexpr s)]
  | .dexpr s (some e) =>
    ([], .dexpr s) :: e.mentions bound ++ (e.mentions bound).map fun q => (s :: q.1, q.2)
  | .arith _ l r | .rel _ l r => l.mentions bound ++ r.mentions bound
  | .neg e | .field e _ => e.mentions bound
  | .logic _ es | .item _ es => Expr.allMentions bound es
  | .sum its body none =>
    Iter.allMentions bound its ++ body.mentions (its.map Iter.symbol ++ bound)
  | .sum its body (some c) =>
    Iter.allMentions bound its ++ body.mentions (its.map Iter.symbol ++ bound)
      ++ c.mentions (its.map Iter.symbol ++ bound)

/-- What expressions mention where some names are bound. -/
def Expr.allMentions (bound : List String) : List (Expr K) → List Site
  | [] => []
  | e :: es => e.mentions bound ++ Expr.allMentions bound es

/-- What iterators mention, each where those before it are bound. -/
def Iter.allMentions (bound : List String) : List (Iter K) → List Site
  | [] => []
  | it :: its => it.mentions bound ++ Iter.allMentions (it.symbol :: bound) its

/-- What an iterator mentions. It is bound in its own filter. -/
def Iter.mentions (bound : List String) : Iter K → List Site
  | .mk _ src none => src.mentions bound
  | .mk s src (some f) => src.mentions bound ++ f.mentions (s :: bound)

def Source.mentions (bound : List String) : Source K → List Site
  | .named s none => [([], .domain s)]
  | .named s (some e) => ([], .domain s) :: e.mentions bound
  | .range a b => a.mentions bound ++ b.mentions bound
end

/-- What the definition of a parameter mentions. -/
def Parameter.mentions (p : Parameter K) : List Site :=
  match p.definition with
  | none => []
  | some e =>
    if p.isIndexed then
      Iter.allMentions [] p.iterators ++ e.mentions (p.iterators.map Iter.symbol ++ [])
    else e.mentions []

/-- What a comprehension mentions where some names are bound. -/
def ComputedSet.mentions (bound : List String) (d : ComputedSet K) : List Site :=
  Iter.allMentions bound d.iterators
    ++ (d.condition.toList ++ d.output.toList).flatMap
      fun e => e.mentions (d.iterators.map Iter.symbol ++ bound)

/-- What the definition of a domain mentions. The outer iterator of a family is bound in it. -/
def Domain.mentions : Domain K → List Site
  | .range d => d.first.mentions [] ++ d.last.mentions []
  | .computed d => d.mentions (d.outer.toList.map Iter.symbol)
  | .tuples _ | .primitive _ | .index _ => []

def Registry.mentionsOf (r : Registry K) : Mention → List Site
  | .parameter s => (r.params.find? s).elim [] Parameter.mentions
  | .domain s => (r.domain? s).elim [] Domain.mentions
  | .dvar _ => []
  | .dexpr s => (r.dexprs.find? s).elim [] fun d => d.body.mentions []

/-- What is looked into where the definition of something is evaluated. The definition of a
parameter is evaluated on its own. -/
def Mention.inside (A : List String) : Mention → List String
  | .parameter _ => []
  | .domain _ | .dvar _ => A
  | .dexpr s => A ++ [s]

/-- A mention that can be followed: a decision expression that is being looked into cannot. -/
def Mention.IsOpen (A : List String) (x : Mention) : Prop := ∀ s, x = .dexpr s → s ∉ A

theorem Parameter.mentions_clear (p : Parameter K) : p.clear.mentions = p.mentions := rfl

/-! ## Bound names -/

/-- All of some names are bound. -/
def Env.Binds (a : Env K) (bound : List String) : Prop := ∀ x ∈ bound, (a.get? x).isSome = true

theorem Env.binds_nil (a : Env K) : a.Binds [] := by simp [Env.Binds]

theorem Env.Binds.of_subset {bound bound' : List String} (h : a.Binds bound)
    (hsub : bound' ⊆ bound) : a.Binds bound' :=
  fun x hx => h x (hsub hx)

theorem Env.Binds.of_frames {a a' : Env K} (h : a.Binds bound)
    (hframes : a'.frames = a.frames) : a'.Binds bound := by
  simpa [Env.Binds, Env.get?, hframes] using h

theorem Env.Binds.bind (h : a.Binds bound) (s : String)
    (v : Value K) : (a.bind s v).Binds (s :: bound) := by
  intro x hx
  by_cases hs : s = x
  · subst hs
    simp
  · rw [Env.get?_bind_of_ne a v hs]
    exact h x ((List.mem_cons.1 hx).resolve_left (Ne.symm hs))

/-- Every place in the first list is in the second, or that of a parameter. -/
def SubsetButNames (ps qs : List Site) : Prop := ∀ q ∈ ps, q ∈ qs ∨ ∃ s, q.2 = .parameter s

theorem SubsetButNames.refl (ps : List Site) : SubsetButNames ps ps := fun _ hq => .inl hq

theorem SubsetButNames.append {ps qs ps' qs' : List Site} (h : SubsetButNames ps qs)
    (h' : SubsetButNames ps' qs') : SubsetButNames (ps ++ ps') (qs ++ qs') := by
  intro q hq
  obtain hq | hq := List.mem_append.1 hq
  · exact (h q hq).imp_left (List.mem_append_left _)
  · exact (h' q hq).imp_left (List.mem_append_right _)

theorem SubsetButNames.inside {ps qs : List Site} (h : SubsetButNames ps qs) (s : String) :
    SubsetButNames (ps.map fun q => (s :: q.1, q.2)) (qs.map fun q => (s :: q.1, q.2)) := by
  intro q hq
  obtain ⟨p, hp, rfl⟩ := List.mem_map.1 hq
  exact (h p hp).imp_left fun hp => List.mem_map.2 ⟨p, hp, rfl⟩

mutual
/-- Which names are bound makes a difference to the parameters that are mentioned only. -/
theorem Expr.mentions_rebound : ∀ (e : Expr K) (bound bound' : List String),
    SubsetButNames (e.mentions bound') (e.mentions bound)
  | .num _, _, _ | .str _, _, _ | .record _ _, _, _ | .var _ _ _, _, _ | .dexpr _ none, _, _ => by
    exact .refl _
  | .name s, bound, bound' => by
    simp only [mentions]
    intro q hq
    split at hq
    · cases hq
    · obtain rfl := List.mem_singleton.1 hq
      exact .inr ⟨s, rfl⟩
  | .param _ es, bound, bound' | .ivar _ es, bound, bound' => by
    exact .append (.refl [_]) (Expr.allMentions_rebound es bound bound')
  | .dexpr s (some e), bound, bound' => by
    have he := Expr.mentions_rebound e bound bound'
    exact .append (.append (.refl [_]) he) (he.inside s)
  | .arith _ l r, bound, bound' | .rel _ l r, bound, bound' => by
    exact .append (Expr.mentions_rebound l bound bound') (Expr.mentions_rebound r bound bound')
  | .neg e, bound, bound' | .field e _, bound, bound' => by
    exact Expr.mentions_rebound e bound bound'
  | .logic _ es, bound, bound' | .item _ es, bound, bound' => by
    exact Expr.allMentions_rebound es bound bound'
  | .sum its body none, bound, bound' => by
    exact .append (Iter.allMentions_rebound its bound bound') (Expr.mentions_rebound body _ _)
  | .sum its body (some c), bound, bound' => by
    exact .append (.append (Iter.allMentions_rebound its bound bound')
      (Expr.mentions_rebound body _ _)) (Expr.mentions_rebound c _ _)

theorem Expr.allMentions_rebound : ∀ (es : List (Expr K)) (bound bound' : List String),
    SubsetButNames (allMentions bound' es) (allMentions bound es)
  | [], _, _ => by
    exact .refl _
  | e :: es, bound, bound' => by
    exact .append (Expr.mentions_rebound e bound bound') (Expr.allMentions_rebound es bound bound')

theorem Iter.allMentions_rebound : ∀ (its : List (Iter K)) (bound bound' : List String),
    SubsetButNames (Iter.allMentions bound' its) (Iter.allMentions bound its)
  | [], _, _ => by
    exact .refl _
  | it :: its, bound, bound' => by
    exact .append (Iter.mentions_rebound it bound bound') (Iter.allMentions_rebound its _ _)

theorem Iter.mentions_rebound : ∀ (it : Iter K) (bound bound' : List String),
    SubsetButNames (it.mentions bound') (it.mentions bound)
  | .mk s src none, bound, bound' => by
    exact Source.mentions_rebound src bound bound'
  | .mk s src (some f), bound, bound' => by
    exact .append (Source.mentions_rebound src bound bound') (Expr.mentions_rebound f _ _)

theorem Source.mentions_rebound : ∀ (src : Source K) (bound bound' : List String),
    SubsetButNames (src.mentions bound') (src.mentions bound)
  | .named s none, _, _ => by
    exact .refl _
  | .named s (some e), bound, bound' => by
    exact .append (.refl [_]) (Expr.mentions_rebound e bound bound')
  | .range a b, bound, bound' => by
    exact .append (Expr.mentions_rebound a bound bound') (Expr.mentions_rebound b bound bound')
end

/-- What is bound inside an enumeration: what was bound outside, and the iterators. -/
theorem Env.Binds.inner {env inner : Env K} {its : List (Iter K)} (h : env.Binds bound)
    (hinner : ∀ n, inner.get? n = none → env.get? n = none ∧ ∀ it ∈ its, it.symbol ≠ n) :
    inner.Binds (its.map Iter.symbol ++ bound) := by
  intro x hx
  by_contra hnone
  obtain ⟨henv, hits⟩ := hinner x (by simpa using hnone)
  obtain hmem | hmem := List.mem_append.1 hx
  · obtain ⟨it, hit, rfl⟩ := List.mem_map.1 hmem
    exact hits it hit rfl
  · simpa [henv] using h x hmem

section Stages

variable [Scalar K]

theorem symbol_stage (L : Lookup K) (it : Iter K) : (stage L it).symbol = it.symbol := by
  obtain ⟨s, src, _ | f⟩ := it <;> simp only [stage, Iter.symbol]

theorem map_symbol_stages (L : Lookup K) (its : List (Iter K)) :
    (stages L its).map (·.symbol) = its.map Iter.symbol := by
  induction its with
  | nil => simp only [stages, List.map_nil]
  | cons it its ih => simp only [stages, List.map_cons, symbol_stage, ih]

end Stages

/-! ## What a computation returns -/

/-- Whatever the registry is, what a computation returns has a property. -/
abbrev Run.Yields (x : Run K α) (P : α → Prop) : Prop :=
  x.Leads (fun _ => True) (fun _ => True) P

theorem Run.yields_any (x : Run K α) : x.Yields fun _ => True := fun _ _ _ _ _ => ⟨trivial, trivial⟩

/-- What is found in a visit was found where all the iterators are bound. -/
theorem Stage.visit_yields {P : α → Prop} : ∀ (ss : List (Stage K)) {last : Env K → Run K (List α)}
    (env : Env K),
    (∀ inner, (∀ n, inner.get? n = none → env.get? n = none ∧ ∀ s ∈ ss, s.symbol ≠ n) →
      (last inner).Yields fun xs => ∀ x ∈ xs, P x) →
    (Stage.visit ss last env).Yields fun xs => ∀ x ∈ xs, P x
  | [], _, env, h => h env fun n hn => ⟨hn, by simp⟩
  | st :: ss, last, env, h => by
    refine (yields_any _).bind fun vs _ => ?_
    refine (leads_mapM (Q := fun xs => ∀ x ∈ xs, P x) vs fun v => ?_).bind
      fun found hfound => leads_pure fun x hx => ?_
    · refine (yields_any _).bind fun passes _ => ?_
      refine leads_if (Stage.visit_yields ss _ fun inner hinner => h inner fun n hn => ?_)
        (leads_pure (by simp))
      obtain ⟨hbound, hss⟩ := hinner n hn
      have hne : st.symbol ≠ n := by
        rintro rfl
        simp at hbound
      rw [Env.get?_bind_of_ne _ _ hne] at hbound
      exact ⟨hbound, List.forall_mem_cons.2 ⟨hne, hss⟩⟩
    · obtain ⟨xs, hxs, hx⟩ := List.mem_flatten.1 hx
      exact hfound xs hxs x hx

section Enumeration

variable [Scalar K] {L : Lookup K}

theorem Expr.symbol_of_mem_stages {n : String} {its : List (Iter K)}
    (h : ∀ s ∈ stages L its, s.symbol ≠ n) : ∀ it ∈ its, it.symbol ≠ n := by
  intro it hit
  have hmem : it.symbol ∈ (stages L its).map (·.symbol) := by
    rw [map_symbol_stages]
    exact List.mem_map_of_mem hit
  obtain ⟨s, hs, heq⟩ := List.mem_map.1 hmem
  exact heq ▸ h s hs

theorem enumerate_yields {P : α → Prop} {f : Env K → Run K α} (its : List (Iter K))
    (c : Option (Expr K)) (env : Env K)
    (h : ∀ inner, (∀ n, inner.get? n = none → env.get? n = none ∧ ∀ it ∈ its, it.symbol ≠ n) →
      (f inner).Yields P) : (enumerate L its c env f).Yields fun xs => ∀ x ∈ xs, P x := by
  refine leads_if leads_fail (Stage.visit_yields _ _ fun inner hinner => ?_)
  refine (yields_any _).bind fun holds _ => leads_if ?_ (leads_pure (by simp))
  refine (h inner fun n hn => ?_).bind fun x hx => leads_pure (by simpa using hx)
  exact (hinner n hn).imp_right symbol_of_mem_stages

end Enumeration

/-! ## Substitution -/

theorem Expr.mentions_ofValue [Scalar K] {v : Value K} {e : Expr K} (h : ofValue v = .ok e)
    (bound : List String) : e.mentions bound = [] := by
  cases v with
  | int i =>
    simp only [ofValue, Except.map] at h
    split at h <;> cases h
    simp only [mentions]
  | record s vs | str s | bool b | real x => cases h; simp only [mentions]
  | _ => cases h

theorem Expr.mentions_chain [Scalar K] {es : List (Expr K)} {qs : List Site}
    (h : ∀ e ∈ es, e.mentions [] ⊆ qs) : (chain es).mentions [] ⊆ qs := by
  have hfold : ∀ (fs : List (Expr K)) (e : Expr K), e.mentions [] ⊆ qs →
      (∀ f ∈ fs, f.mentions [] ⊆ qs) → (fs.foldl (.arith .add) e).mentions [] ⊆ qs := by
    intro fs
    induction fs with
    | nil => exact fun _ he _ => he
    | cons f fs ih =>
      intro e he hfs
      obtain ⟨hf, hfs⟩ := List.forall_mem_cons.1 hfs
      refine ih _ ?_ hfs
      exact List.append_subset.2 ⟨he, hf⟩
  cases es with
  | nil => simp [chain, Expr.zero, mentions]
  | cons e es =>
    obtain ⟨he, hes⟩ := List.forall_mem_cons.1 h
    exact hfold es e he hes

private theorem append_subset_append {ps ps' qs qs' : List α} (hp : ps ⊆ ps') (hq : qs ⊆ qs') :
    ps ++ qs ⊆ ps' ++ qs' :=
  List.append_subset.2 ⟨List.subset_append_of_subset_left _ hp,
    List.subset_append_of_subset_right _ hq⟩

mutual
/-- Substitution adds no mentions, and takes away the names that are bound. -/
theorem Expr.mentions_substitute [Scalar K] (L : Lookup K) : ∀ (e : Expr K) {bound : List String}
    {env : Env K}, env.Binds bound →
      (e.substitute L env).Yields fun f => f.mentions [] ⊆ e.mentions bound
  | .num x, _, _, _ | .str s, _, _, _ | .record s vs, _, _, _ | .var n b idx, _, _, _
  | .dexpr s none, _, _, _ => by
    refine leads_pure ?_
    simp [mentions]
  | .name s, bound, env, henv => by
    simp only [substitute]
    cases hs : env.get? s with
    | some v =>
      refine leads_ofExcept fun f hf => ?_
      rw [mentions_ofValue hf]
      exact List.nil_subset _
    | none =>
      have hfree : s ∉ bound := fun hmem => by simpa [hs] using henv s hmem
      refine leads_pure ?_
      simp [mentions, hfree]
  | .param s idx, _, _, henv => by
    refine (allMentions_substitute L idx henv).bind fun idx hidx => leads_pure ?_
    exact List.cons_subset_cons _ hidx
  | .ivar s idx, _, _, _ => by
    refine (yields_any _).bind fun n _ => leads_pure ?_
    simp [mentions]
  | .dexpr s (some e), _, _, henv => by
    refine (mentions_substitute L e henv).bind fun e he => leads_pure ?_
    exact append_subset_append (List.cons_subset_cons _ he) (List.map_subset _ he)
  | .arith op l r, _, _, henv | .rel op l r, _, _, henv => by
    refine (mentions_substitute L l henv).bind fun l hl => ?_
    refine (mentions_substitute L r henv).bind fun r hr => leads_pure ?_
    exact append_subset_append hl hr
  | .neg e, _, _, henv => by
    refine (mentions_substitute L e henv).bind fun e he => leads_pure ?_
    simpa only [mentions] using he
  | .logic op es, _, _, henv => by
    refine (allMentions_substitute L es henv).bind fun es hes => leads_pure ?_
    simpa only [mentions] using hes
  | .field e f, _, _, henv => by
    refine (mentions_substitute L e henv).bind fun e he => ?_
    split
    · refine (yields_any _).bind fun v _ => leads_ofExcept fun g hg => ?_
      rw [mentions_ofValue hg]
      exact List.nil_subset _
    · refine leads_pure ?_
      simpa only [mentions] using he
  | .item set key, _, _, _ => by
    refine (yields_any _).bind fun key _ => (yields_any _).bind fun v _ => ?_
    split
    · refine leads_pure ?_
      simp [mentions]
    · exact leads_fail
  | .sum its body none, bound, _, henv => by
    refine (enumerate_yields its _ _ fun inner hinner =>
      mentions_substitute L body (henv.inner hinner)).bind fun terms hterms => leads_pure ?_
    exact List.subset_append_of_subset_right _ (mentions_chain hterms)
  | .sum its body (some c), bound, _, henv => by
    refine (enumerate_yields its _ _ fun inner hinner =>
      mentions_substitute L body (henv.inner hinner)).bind fun terms hterms => leads_pure ?_
    exact List.subset_append_of_subset_left _
      (List.subset_append_of_subset_right _ (mentions_chain hterms))

theorem Expr.allMentions_substitute [Scalar K] (L : Lookup K) : ∀ (es : List (Expr K))
    {bound : List String} {env : Env K}, env.Binds bound → (substituteAll L es env).Yields fun fs =>
        allMentions [] fs ⊆ allMentions bound es
  | [], _, _, _ => by
    refine leads_pure ?_
    simp [allMentions]
  | e :: es, _, _, henv => by
    refine (mentions_substitute L e henv).bind fun e he => ?_
    refine (allMentions_substitute L es henv).bind fun es hes => leads_pure ?_
    exact append_subset_append he hes
end

end LinearModel
