import LinearModel.Proofs.Instances

/-!
# Enumeration

An enumeration goes through the elements of the first domain in order. For each one that passes its
filter it resolves the next domain, which may depend on it, and so on. Where all iterators are bound
the condition decides whether something is listed. Resolving a domain or asking a filter may change
the registry, so a finding is described by the way to it: the position of each element in its
domain, and the stores in which the domains are resolved and the filters asked.

An enumeration lists what is found at the end of each way, in the lexicographic order of the
positions. It fails exactly where a domain, a filter or the condition on a way does, or what is done
in the end.
-/
namespace LinearModel

open Run

variable {K : Type} {α : Type} {s₁ : Store K} {i : Nat} {v : Value K} {xs : List α}

/-! ## Lists of computations -/

namespace Run

variable {β : Type} {f : α → Run K β} {s s' : Store K}

theorem returns_mapM_append {as bs : List α} {cs ds : List β} (has : (as.mapM f).Returns s cs s₁)
    (hbs : (bs.mapM f).Returns s₁ ds s') : ((as ++ bs).mapM f).Returns s (cs ++ ds) s' := by
  rw [List.mapM_append]
  exact returns_bind.2 ⟨cs, s₁, has, returns_bind.2 ⟨ds, s', hbs, returns_pure.2 ⟨rfl, rfl⟩⟩⟩

/-- The first computation that fails does so after those before it have returned. -/
theorem fails_mapM {as : List α} {e : Failure K} : (as.mapM f).Fails s e s' ↔
    ∃ i a bs s₁, as[i]? = some a ∧ ((as.take i).mapM f).Returns s bs s₁ ∧ (f a).Fails s₁ e s' := by
  induction as generalizing s with
  | nil => simp
  | cons a as ih =>
    rw [List.mapM_cons, fails_bind]
    constructor
    · rintro (h | ⟨b, s₁, hb, h⟩)
      · exact ⟨0, a, [], s, rfl, by simp, h⟩
      · obtain h | ⟨bs, s₂, -, h⟩ := fails_bind.1 h
        · obtain ⟨i, a', bs, s₂, ha', hbs, hfails⟩ := ih.1 h
          refine ⟨i + 1, a', b :: bs, s₂, ha', ?_, hfails⟩
          exact returns_mapM_cons.2 ⟨b, s₁, bs, hb, hbs, rfl⟩
        · exact absurd h not_fails_pure
    · rintro ⟨i, a', bs, s₁, ha', hbs, hfails⟩
      cases i with
      | zero =>
        obtain rfl : a = a' := Option.some.inj ha'
        obtain ⟨-, rfl⟩ := returns_mapM_nil.1 hbs
        exact .inl hfails
      | succ i =>
        obtain ⟨b, s₂, cs, hb, hcs, rfl⟩ := returns_mapM_cons.1 hbs
        exact .inr ⟨b, s₂, hb, fails_bind.2 (.inl (ih.2 ⟨i, a', cs, s₁, ha', hcs, hfails⟩))⟩

end Run

/-! ## The way to a combination -/

namespace Stage

section Walks

variable (last : Env K → Run K (List α))

/-- What is done for one element of a domain: if it passes the filter, the remaining stages are
visited. -/
def branch (st : Stage K) (rest : List (Stage K)) (env : Env K) (v : Value K) : Run K (List α) := do
  if ← st.admits (env.bind st.symbol v) then visit rest last (env.bind st.symbol v) else return []

theorem visit_cons (st : Stage K) (rest : List (Stage K)) (env : Env K) :
    visit (st :: rest) last env = do
      let vs ← st.elements env
      let found ← vs.mapM (st.branch last rest env)
      return found.flatten :=
  rfl

/-- The element at a position of the domain has its turn: the domain is resolved, and the elements
before it have been dealt with. -/
def Comes (st : Stage K) (rest : List (Stage K)) (env : Env K) (s : Store K) (i : Nat) (v : Value K)
    (s' : Store K) : Prop :=
  ∃ vs s₁ found, (st.elements env).Returns s vs s₁ ∧ vs[i]? = some v ∧
    ((vs.take i).mapM (st.branch last rest env)).Returns s₁ found s'

/-- The way into an enumeration, to elements at some positions of the first domains. Each domain is
resolved under the elements before, and each element passes its filter. -/
inductive Walks : List (Stage K) → Env K → Store K → List Nat → List (Value K) → List (Stage K) →
    Env K → Store K → Prop
  | here (ss : List (Stage K)) (env : Env K) (s : Store K) : Walks ss env s [] [] ss env s
  | on {st : Stage K} {rest ss : List (Stage K)} {env inner : Env K} {s s₁ s₂ s' : Store K}
      {i : Nat} {v : Value K} {ps : List Nat} {vs : List (Value K)}
      (hcomes : st.Comes last rest env s i v s₁)
      (hpasses : (st.admits (env.bind st.symbol v)).Returns s₁ true s₂)
      (h : Walks rest (env.bind st.symbol v) s₂ ps vs ss inner s') :
      Walks (st :: rest) env s (i :: ps) (v :: vs) ss inner s'

/-- A failure at a place on the way: of the domain that comes next, of the filter for one of its
elements, or of what is asked in the end. -/
inductive Breaks {β : Type} (final : Env K → Run K β) :
    List (Stage K) → Env K → Store K → Failure K → Store K → Prop
  | domain {st : Stage K} {rest : List (Stage K)} {env : Env K} {s s' : Store K} {f : Failure K}
      (h : (st.elements env).Fails s f s') : Breaks final (st :: rest) env s f s'
  | filter {st : Stage K} {rest : List (Stage K)} {env : Env K} {s s₁ s' : Store K} {i : Nat}
      {v : Value K} {f : Failure K} (hcomes : st.Comes last rest env s i v s₁)
      (h : (st.admits (env.bind st.symbol v)).Fails s₁ f s') : Breaks final (st :: rest) env s f s'
  | finish {env : Env K} {s s' : Store K} {f : Failure K} (h : (final env).Fails s f s') :
      Breaks final [] env s f s'

end Walks

variable {last : Env K → Run K (List α)} {st : Stage K} {rest ss : List (Stage K)}
  {env inner : Env K} {s s' : Store K} {f : Failure K} {ps : List Nat} {vs : List (Value K)}

theorem Comes.unique {v w : Value K} {s₁ s₂ : Store K}
    (h₁ : st.Comes last rest env s i v s₁) (h₂ : st.Comes last rest env s i w s₂) :
    v = w ∧ s₁ = s₂ := by
  obtain ⟨vs, t, found, hvs, hv, hfound⟩ := h₁
  obtain ⟨ws, t', found', hws, hw, hfound'⟩ := h₂
  obtain ⟨rfl, rfl⟩ := hvs.unique hws
  exact ⟨Option.some.inj (hv.symm.trans hw), (hfound.unique hfound').2⟩

/-- A visit fails if one of its branches does. -/
theorem Comes.fails
    (hcomes : st.Comes last rest env s i v s₁) (h : (st.branch last rest env v).Fails s₁ f s') :
    (visit (st :: rest) last env).Fails s f s' := by
  obtain ⟨vs, s₂, found, hvs, hv, hfound⟩ := hcomes
  refine fails_bind.2 (.inr ⟨vs, s₂, hvs, fails_bind.2 (.inl ?_)⟩)
  exact fails_mapM.2 ⟨i, v, found, s₁, hv, hfound, h⟩

/-- A failure at the end of a way is one of the whole visit. -/
theorem Walks.fails {ss' : List (Stage K)} (hwalks : Walks last ss env s ps vs ss' inner s₁)
    (h : (visit ss' last inner).Fails s₁ f s') : (visit ss last env).Fails s f s' := by
  induction hwalks with
  | here => exact h
  | on hcomes hpasses _ ih => exact hcomes.fails (fails_bind.2 (.inr ⟨true, _, hpasses, ih h⟩))

/-- Something else may be asked in the end, if it fails where that matters. -/
theorem Breaks.imp {β γ : Type} {final : Env K → Run K β} {final' : Env K → Run K γ}
    (h : Breaks last final ss env s f s')
    (himp : ss = [] → (final env).Fails s f s' → (final' env).Fails s f s') :
    Breaks last final' ss env s f s' := by
  cases h with
  | domain h => exact .domain h
  | filter hcomes h => exact .filter hcomes h
  | finish h => exact .finish (himp rfl h)

theorem Breaks.fails (h : Breaks last last ss env s f s') : (visit ss last env).Fails s f s' := by
  cases h with
  | domain h =>
    exact fails_bind.2 (.inl h)
  | filter hcomes h => exact hcomes.fails (fails_bind.2 (.inl h))
  | finish h => exact h

/-- A visit fails exactly where something on a way does. -/
theorem fails_visit : (visit ss last env).Fails s f s' ↔
    ∃ ps vs ss' inner s₁, Walks last ss env s ps vs ss' inner s₁ ∧
      Breaks last last ss' inner s₁ f s' := by
  constructor
  · intro h
    induction ss generalizing env s with
    | nil => exact ⟨[], [], [], env, s, .here _ _ _, .finish h⟩
    | cons st rest ih =>
      rw [visit_cons, fails_bind] at h
      obtain h | ⟨D, s₁, hD, h⟩ := h
      · exact ⟨[], [], st :: rest, env, s, .here _ _ _, .domain h⟩
      obtain h | ⟨found, s₂, -, h⟩ := fails_bind.1 h
      · obtain ⟨i, v, found, s₂, hv, hfound, h⟩ := fails_mapM.1 h
        have hcomes : st.Comes last rest env s i v s₂ := ⟨D, s₁, found, hD, hv, hfound⟩
        obtain h | ⟨passes, s₃, hpasses, h⟩ := fails_bind.1 h
        · exact ⟨[], [], st :: rest, env, s, .here _ _ _, .filter hcomes h⟩
        · cases passes with
          | false => exact absurd h not_fails_pure
          | true =>
            obtain ⟨ps, vs, ss', inner, s₄, hwalks, hbreaks⟩ := ih h
            exact ⟨i :: ps, v :: vs, ss', inner, s₄, .on hcomes hpasses hwalks, hbreaks⟩
      · exact absurd h not_fails_pure
  · rintro ⟨ps, vs, ss', inner, s₁, hwalks, hbreaks⟩
    exact hwalks.fails hbreaks.fails

/-! ## What is found -/

/-- What is done where all iterators are bound: if the condition holds, something is listed. -/
def harvest (holds : Env K → Run K Bool) (each : Env K → Run K α) (env : Env K) :
    Run K (List α) := do
  if ← holds env then return [← each env] else return []

theorem enumerate_eq (ss : List (Stage K)) (holds : Env K → Run K Bool) (each : Env K → Run K α)
    (env : Env K) : enumerate ss holds each env =
      if maxIterators < env.depth + ss.length then Run.fail (.tooManyIterators maxIterators)
      else visit ss (harvest holds each) env :=
  rfl

variable {holds : Env K → Run K Bool} {each : Env K → Run K α}

/-- Something is listed for a combination of elements, at their positions in the domains. -/
def Finds (holds : Env K → Run K Bool) (each : Env K → Run K α) (ss : List (Stage K)) (env : Env K)
    (s : Store K) (ps : List Nat) (vs : List (Value K)) (x : α) : Prop :=
  ∃ inner s₁ s₂ s₃, Walks (harvest holds each) ss env s ps vs [] inner s₁ ∧
    (holds inner).Returns s₁ true s₂ ∧ (each inner).Returns s₂ x s₃

theorem finds_nil {x : α} : Finds holds each [] env s ps vs x ↔ ps = [] ∧ vs = [] ∧
      ∃ s₁ s₂, (holds env).Returns s true s₁ ∧ (each env).Returns s₁ x s₂ := by
  constructor
  · rintro ⟨inner, s₁, s₂, s₃, hwalks, hholds, hx⟩
    cases hwalks
    exact ⟨rfl, rfl, s₂, s₃, hholds, hx⟩
  · rintro ⟨rfl, rfl, s₁, s₂, hholds, hx⟩
    exact ⟨env, s, s₁, s₂, .here _ _ _, hholds, hx⟩

theorem finds_cons {x : α} :
    Finds holds each (st :: rest) env s ps vs x ↔ ∃ i qs v ws s₁ s₂, ps = i :: qs ∧ vs = v :: ws ∧
      st.Comes (harvest holds each) rest env s i v s₁ ∧
      (st.admits (env.bind st.symbol v)).Returns s₁ true s₂ ∧
      Finds holds each rest (env.bind st.symbol v) s₂ qs ws x := by
  constructor
  · rintro ⟨inner, s₁, s₂, s₃, hwalks, hholds, hx⟩
    cases hwalks with
    | on hcomes hpasses hwalks =>
      exact ⟨_, _, _, _, _, _, rfl, rfl, hcomes, hpasses, inner, s₁, s₂, s₃, hwalks, hholds, hx⟩
  · rintro ⟨i, qs, v, ws, t, t', rfl, rfl, hcomes, hpasses, inner, s₁, s₂, s₃, hwalks, hholds, hx⟩
    exact ⟨inner, s₁, s₂, s₃, .on hcomes hpasses hwalks, hholds, hx⟩

/-- A list of findings, in the order of their positions. -/
structure Gathers (F : List Nat → List (Value K) → α → Prop) (xs : List α)
    (ws : List (List Nat × List (Value K) × α)) : Prop where
  findings : ws.map (·.2.2) = xs
  ordered : (ws.map (·.1)).Pairwise (· < ·)
  mem_iff : ∀ ps vs x, (ps, vs, x) ∈ ws ↔ F ps vs x

namespace Gathers

variable {F G : List Nat → List (Value K) → α → Prop} {xs ys : List α}
  {us ws : List (List Nat × List (Value K) × α)}

theorem congr (h : Gathers F xs ws) (hFG : ∀ ps vs x, F ps vs x ↔ G ps vs x) : Gathers G xs ws :=
  { h with mem_iff := fun ps vs x => (h.mem_iff ps vs x).trans (hFG ps vs x) }

theorem nil (h : ∀ ps vs x, ¬ F ps vs x) : Gathers F ([] : List α) [] :=
  ⟨rfl, .nil, fun ps vs x => by simp [h ps vs x]⟩

theorem append (hF : Gathers F xs us) (hG : Gathers G ys ws)
    (hlt : ∀ {ps vs x qs vs' y}, F ps vs x → G qs vs' y → ps < qs) :
    Gathers (fun ps vs x => F ps vs x ∨ G ps vs x) (xs ++ ys) (us ++ ws) where
  findings := by rw [List.map_append, hF.findings, hG.findings]
  ordered := by
    rw [List.map_append, List.pairwise_append]
    refine ⟨hF.ordered, hG.ordered, fun ps hps qs hqs => ?_⟩
    obtain ⟨⟨_, vs, x⟩, hmem, rfl⟩ := List.mem_map.1 hps
    obtain ⟨⟨_, vs', y⟩, hmem', rfl⟩ := List.mem_map.1 hqs
    exact hlt ((hF.mem_iff _ vs x).1 hmem) ((hG.mem_iff _ vs' y).1 hmem')
  mem_iff ps vs x := by rw [List.mem_append, hF.mem_iff, hG.mem_iff]

/-- One more element in front of every combination. -/
theorem cons (i : Nat) (v : Value K) (h : Gathers F xs ws) :
    Gathers (fun ps vs x => ∃ qs us, ps = i :: qs ∧ vs = v :: us ∧ F qs us x) xs
      (ws.map fun w => (i :: w.1, v :: w.2.1, w.2.2)) where
  findings := by rw [List.map_map, ← h.findings]; rfl
  ordered := by
    have hordered := List.pairwise_map.1 h.ordered
    rw [List.map_map, List.pairwise_map]
    exact hordered.imp fun hlt => List.cons_lt_cons_iff.2 (.inr ⟨rfl, hlt⟩)
  mem_iff ps vs x := by
    rw [List.mem_map]
    constructor
    · rintro ⟨⟨qs, us, y⟩, hmem, heq⟩
      obtain ⟨rfl, rfl, rfl⟩ : i :: qs = ps ∧ v :: us = vs ∧ y = x := by simpa using heq
      exact ⟨qs, us, rfl, rfl, (h.mem_iff _ _ _).1 hmem⟩
    · rintro ⟨qs, us, rfl, rfl, hF⟩
      exact ⟨(qs, us, x), (h.mem_iff _ _ _).2 hF, rfl⟩

end Gathers

theorem gathers_harvest (h : (harvest holds each env).Returns s xs s') :
    ∃ ws, Gathers (Finds holds each [] env s) xs ws := by
  obtain ⟨b, s₁, hholds, h⟩ := returns_bind.1 h
  cases b with
  | true =>
    obtain ⟨x, s₂, hx, h⟩ := returns_bind.1 h
    obtain ⟨rfl, rfl⟩ := returns_pure.1 h
    refine ⟨[([], [], x)], rfl, List.pairwise_singleton _ _, fun ps vs y => ?_⟩
    rw [finds_nil, List.mem_singleton, Prod.mk.injEq, Prod.mk.injEq]
    refine and_congr_right fun _ => and_congr_right fun _ => ⟨?_, ?_⟩
    · rintro rfl
      exact ⟨s₁, s₂, hholds, hx⟩
    · rintro ⟨t, t', hholds', hy⟩
      obtain ⟨-, rfl⟩ := hholds.unique hholds'
      exact (hy.unique hx).1
  | false =>
    obtain ⟨rfl, rfl⟩ := returns_pure.1 h
    refine ⟨[], .nil fun ps vs y hfinds => ?_⟩
    obtain ⟨-, -, t, t', hholds', -⟩ := finds_nil.1 hfinds
    exact absurd (hholds.unique hholds').1 (by simp)

section Domain

variable (hrest : ∀ {env s xs s'}, (visit rest (harvest holds each) env).Returns s xs s' →
  ∃ ws, Gathers (Finds holds each rest env s) xs ws)

include hrest

/-- An element that has its turn yields the findings that start at its position. -/
theorem gathers_branch (hcomes : st.Comes (harvest holds each) rest env s i v s₁)
    (h : (st.branch (harvest holds each) rest env v).Returns s₁ xs s') :
    ∃ ws, Gathers (fun ps vs x => ps.head? = some i ∧
      Finds holds each (st :: rest) env s ps vs x) xs ws := by
  obtain ⟨passes, s₂, hpasses, h⟩ := returns_bind.1 h
  cases passes with
  | false =>
    obtain ⟨rfl, rfl⟩ := returns_pure.1 h
    refine ⟨[], .nil fun ps vs x hfinds => ?_⟩
    obtain ⟨hi, j, qs, w, ws, t, t', rfl, rfl, hcomes', hpasses', -⟩ :=
      hfinds.imp_right finds_cons.1
    obtain rfl : j = i := Option.some.inj hi
    obtain ⟨rfl, rfl⟩ := hcomes.unique hcomes'
    exact absurd (hpasses.unique hpasses').1 (by simp)
  | true =>
    obtain ⟨ws, hws⟩ := hrest h
    refine ⟨_, (hws.cons i v).congr fun ps vs x => ⟨?_, ?_⟩⟩
    · rintro ⟨qs, us, rfl, rfl, hfinds⟩
      exact ⟨rfl, finds_cons.2 ⟨i, qs, v, us, s₁, s₂, rfl, rfl, hcomes, hpasses, hfinds⟩⟩
    · rintro ⟨hi, hfinds⟩
      obtain ⟨j, qs, w, us, t, t', rfl, rfl, hcomes', hpasses', hfinds⟩ := finds_cons.1 hfinds
      obtain rfl : j = i := Option.some.inj hi
      obtain ⟨rfl, rfl⟩ := hcomes.unique hcomes'
      obtain ⟨-, rfl⟩ := hpasses.unique hpasses'
      exact ⟨qs, us, rfl, rfl, hfinds⟩

/-- The elements of a domain from some position on yield the findings that start there or later. -/
theorem gathers_mapM {pre post : List (Value K)} {s₂ : Store K} {found found' : List (List α)}
    (hvs : (st.elements env).Returns s (pre ++ post) s₁)
    (hpre : (pre.mapM (st.branch (harvest holds each) rest env)).Returns s₁ found s₂)
    (hpost : (post.mapM (st.branch (harvest holds each) rest env)).Returns s₂ found' s') :
    ∃ ws, Gathers (fun ps vs x => (∃ i ∈ ps.head?, pre.length ≤ i) ∧
      Finds holds each (st :: rest) env s ps vs x) found'.flatten ws := by
  induction post generalizing pre s₂ found found' with
  | nil =>
    obtain ⟨rfl, rfl⟩ := returns_mapM_nil.1 hpost
    refine ⟨[], .nil fun ps vs x hfinds => ?_⟩
    obtain ⟨⟨i, hi, hle⟩, hfinds⟩ := hfinds
    obtain ⟨j, qs, w, us, t, t', rfl, rfl, ⟨D, _, _, hD, hw, _⟩, -, -⟩ := finds_cons.1 hfinds
    obtain rfl : j = i := Option.some.inj hi
    obtain ⟨rfl, -⟩ := hvs.unique hD
    rw [List.append_nil, List.getElem?_eq_none hle] at hw
    cases hw
  | cons v post ih =>
    obtain ⟨xs, s₃, found', hxs, hlater, rfl⟩ := returns_mapM_cons.1 hpost
    have hcomes : st.Comes (harvest holds each) rest env s pre.length v s₂ :=
      ⟨pre ++ v :: post, s₁, found, hvs, by simp, by rwa [List.take_left']; rfl⟩
    obtain ⟨us, hus⟩ := gathers_branch hrest hcomes hxs
    have hvs' : (st.elements env).Returns s (pre ++ [v] ++ post) s₁ := by
      rwa [List.append_assoc, List.singleton_append]
    have hone : ([v].mapM (st.branch (harvest holds each) rest env)).Returns s₂ [xs] s₃ :=
      returns_mapM_cons.2 ⟨xs, s₃, [], hxs, returns_mapM_nil.2 ⟨rfl, rfl⟩, rfl⟩
    obtain ⟨ws, hws⟩ := ih hvs' (returns_mapM_append hpre hone) hlater
    refine ⟨us ++ ws, (hus.append hws ?_).congr fun ps vs x => ?_⟩
    · rintro ps vs x qs ws y ⟨hi, -⟩ ⟨⟨j, hj, hle⟩, -⟩
      obtain ⟨ps, rfl⟩ := List.head?_eq_some_iff.1 hi
      obtain ⟨qs, rfl⟩ := List.head?_eq_some_iff.1 hj
      rw [List.length_append, List.length_singleton] at hle
      exact List.cons_lt_cons_iff.2 (.inl hle)
    · rw [← or_and_right, List.length_append, List.length_singleton]
      refine and_congr_left fun _ => ⟨?_, ?_⟩
      · rintro (hi | ⟨i, hi, hle⟩)
        · exact ⟨_, hi, le_rfl⟩
        · exact ⟨i, hi, Nat.le_of_succ_le hle⟩
      · rintro ⟨i, hi, hle⟩
        obtain rfl | hlt := hle.eq_or_lt
        · exact .inl hi
        · exact .inr ⟨i, hi, hlt⟩

end Domain

/-- What a visit lists are its findings, in the order of their positions. -/
theorem gathers_visit (h : (visit ss (harvest holds each) env).Returns s xs s') :
    ∃ ws, Gathers (Finds holds each ss env s) xs ws := by
  induction ss generalizing env s xs s' with
  | nil => exact gathers_harvest h
  | cons st rest ih =>
    obtain ⟨vs, s₁, hvs, h⟩ := returns_bind.1 h
    obtain ⟨found, hfound, rfl⟩ := returns_bind_pure.1 h
    have hvs' : (st.elements env).Returns s ([] ++ vs) s₁ := hvs
    obtain ⟨ws, hws⟩ := gathers_mapM ih hvs' (returns_mapM_nil.2 ⟨rfl, rfl⟩) hfound
    refine ⟨ws, hws.congr fun ps vs x => and_iff_right_of_imp fun hfinds => ?_⟩
    obtain ⟨i, qs, _, _, _, _, rfl, -⟩ := finds_cons.1 hfinds
    exact ⟨i, rfl, Nat.zero_le i⟩

end Stage

end LinearModel
