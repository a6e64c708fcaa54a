import LinearModel.Proofs.Evaluation
import LinearModel.Expansion

/-!
# Instances of rules

A rule stands for its constraints under all bindings of the iterators around them that pass the
filters and the conditions. Here this is said without the enumeration, and the enumeration is shown
to find something for each of these instances and for nothing else.
-/
namespace LinearModel

open Run Expr

variable {K : Type} {α γ ι : Type}

/-! ## Lists of findings -/

/-- A list that holds a finding for each member of a collection, and no others. -/
def Lists (M : γ → Prop) (Q : γ → α → Prop) (xs : List α) : Prop :=
  ∃ gs, List.Forall₂ Q gs xs ∧ ∀ g, g ∈ gs ↔ M g

namespace Lists

variable {M N : γ → Prop} {Q : γ → α → Prop} {xs ys : List α}

theorem congr (h : Lists M Q xs) (hMN : ∀ g, M g ↔ N g) : Lists N Q xs := by
  obtain ⟨gs, hgs, hmem⟩ := h
  exact ⟨gs, hgs, fun g => (hmem g).trans (hMN g)⟩

theorem imp {S : γ → α → Prop} (h : Lists M Q xs) (hQS : ∀ g x, M g → Q g x → S g x) :
    Lists M S xs := by
  obtain ⟨gs, hgs, hmem⟩ := h
  have hM := (List.forall₂_and_left gs xs).2 ⟨fun g hg => (hmem g).1 hg, hgs⟩
  exact ⟨gs, hM.imp fun g x hgx => hQS g x hgx.1 hgx.2, hmem⟩

/-- What comes of each finding, listed in the same order. -/
theorem trans {β : Type} {S : α → β → Prop} {zs : List β} (h : Lists M Q xs)
    (hS : List.Forall₂ S xs zs) : Lists M (fun g z => ∃ x, Q g x ∧ S x z) zs := by
  obtain ⟨gs, hgs, hmem⟩ := h
  refine ⟨gs, ?_, hmem⟩
  clear hmem
  induction hS generalizing gs with
  | nil =>
    cases hgs
    exact .nil
  | cons hxz _ ih =>
    cases hgs with
    | cons hgx hgs => exact .cons ⟨_, hgx, hxz⟩ (ih _ hgs)

theorem nil (h : ∀ g, ¬ M g) : Lists M Q ([] : List α) :=
  ⟨[], .nil, fun g => by simp [h g]⟩

theorem single {g : γ} {x : α} (hM : ∀ g', M g' ↔ g' = g) (h : Q g x) : Lists M Q [x] :=
  ⟨[g], .cons h .nil, fun g' => by simp [hM g']⟩

theorem append (hxs : Lists M Q xs) (hys : Lists N Q ys) :
    Lists (fun g => M g ∨ N g) Q (xs ++ ys) := by
  obtain ⟨gs, hgs, hM⟩ := hxs
  obtain ⟨hs, hhs, hN⟩ := hys
  exact ⟨gs ++ hs, List.rel_append hgs hhs, fun g => by simp [hM, hN]⟩

/-- The findings of several lists, one for each member of a collection. -/
theorem flatten {I : ι → Prop} {M : ι → γ → Prop} {xss : List (List α)}
    (h : Lists I (fun i xs => Lists (M i) Q xs) xss) :
    Lists (fun g => ∃ i, I i ∧ M i g) Q xss.flatten := by
  obtain ⟨is, hxss, hmem⟩ := h
  suffices hall : Lists (fun g => ∃ i ∈ is, M i g) Q xss.flatten from
    hall.congr fun g => by simp [hmem]
  clear hmem
  induction hxss with
  | nil => exact Lists.nil (by simp)
  | cons hxs _ ih => exact (hxs.append ih).congr fun g => by simp

/-- Each finding stems from a member of the collection. -/
theorem exists_of_mem (h : Lists M Q xs) {x : α} (hx : x ∈ xs) : ∃ g, M g ∧ Q g x := by
  obtain ⟨gs, hgs, hmem⟩ := h
  obtain ⟨i, hi, rfl⟩ := List.mem_iff_getElem.1 hx
  have hi' : i < gs.length := hgs.length_eq ▸ hi
  exact ⟨gs[i], (hmem _).1 (List.getElem_mem hi'), hgs.get hi' hi⟩

/-- There is a finding for each member of the collection. -/
theorem exists_mem (h : Lists M Q xs) {g : γ} (hg : M g) : ∃ x ∈ xs, Q g x := by
  obtain ⟨gs, hgs, hmem⟩ := h
  obtain ⟨i, hi, rfl⟩ := List.mem_iff_getElem.1 ((hmem g).2 hg)
  have hi' : i < xs.length := hgs.length_eq ▸ hi
  exact ⟨xs[i], List.getElem_mem hi', hgs.get hi hi'⟩

end Lists

/-! ## Bindings and instances -/

mutual
def Rule.iterators : Rule K → List (Iter K)
  | .single _ => []
  | .family _ its _ body => its ++ iteratorsOf body

/-- The iterators of some rules, at any depth. -/
def Rule.iteratorsOf : List (Rule K) → List (Iter K)
  | [] => []
  | r :: rs => r.iterators ++ iteratorsOf rs
end

theorem Rule.mem_iteratorsOf {it : Iter K} {r : Rule K} {rs : List (Rule K)} (hr : r ∈ rs)
    (hit : it ∈ r.iterators) : it ∈ iteratorsOf rs := by
  induction hr with
  | head rs => exact List.mem_append_left _ hit
  | tail r' _ ih => exact List.mem_append_right _ ih

variable [Scalar K]

/-- The bindings of iterators, from left to right, to elements that pass their filters. -/
inductive Registry.Binds (t : Registry K) : List (Iter K) → Env K → Env K → Prop
  | nil {env : Env K} : Binds t [] env env
  | cons {it : Iter K} {its : List (Iter K)} {env inner : Env K} {vs : List (Value K)} {v : Value K}
      (hvs : (sourceElements t.lookup it.source env).Gives t vs) (hv : v ∈ vs)
      (hfilter : (holds t.lookup it.filter (env.bind it.symbol v)).Gives t true)
      (h : Binds t its (env.bind it.symbol v) inner) : Binds t (it :: its) env inner

/-- The constraints of a rule, each in an environment where the iterators around it are bound and
the conditions hold. -/
inductive Rule.Instance (t : Registry K) : Rule K → Env K → Constraint K → Env K → Prop
  | single {c : Constraint K} {env : Env K} : Instance t (.single c) env c env
  | family {literal : String} {its : List (Iter K)} {condition : Option (Expr K)}
      {body : List (Rule K)} {env inner env' : Env K} {r : Rule K} {c : Constraint K}
      (hits : t.Binds its env inner)
      (hcondition : (holds t.lookup condition inner).Gives t true) (hr : r ∈ body)
      (h : Instance t r inner c env') : Instance t (.family literal its condition body) env c env'

/-- A constraint, and an environment for it. -/
abbrev Place (K : Type) := Constraint K × Env K

/-- The places that a rule stands for. -/
def Rule.places (R : Rule K) (t : Registry K) (env : Env K) (g : Place K) : Prop :=
  R.Instance t env g.1 g.2

@[simp] theorem Expr.stage_symbol (L : Lookup K) : ∀ it : Iter K, (stage L it).symbol = it.symbol
  | .mk _ _ none | .mk _ _ (some _) => by simp only [stage, Iter.symbol]

@[simp] theorem Expr.stage_elements (L : Lookup K) (env : Env K) :
    ∀ it : Iter K, (stage L it).elements env = sourceElements L it.source env
  | .mk _ _ none | .mk _ _ (some _) => by simp only [stage, Iter.source]

@[simp] theorem Expr.stage_admits (L : Lookup K) (env : Env K) :
    ∀ it : Iter K, (stage L it).admits env = holds L it.filter env
  | .mk _ _ none | .mk _ _ (some _) => by
    simp only [stage, Iter.filter, holds, truth, number]

/-- Iterators bind their own symbols only. -/
theorem Registry.Binds.get? {t : Registry K} {its : List (Iter K)} {env inner : Env K}
    (h : t.Binds its env inner) {s : String} (hs : ∀ it ∈ its, it.symbol ≠ s) :
    inner.get? s = env.get? s := by
  induction h with
  | nil => rfl
  | cons _ _ _ _ ih =>
    rw [List.forall_mem_cons] at hs
    rw [ih hs.2, Env.get?_bind_of_ne _ _ hs.1]

theorem Registry.Binds.values {t : Registry K} {its : List (Iter K)} {env inner : Env K}
    (h : t.Binds its env inner) : inner.values = env.values := by
  induction h with
  | nil => rfl
  | cons _ _ _ _ ih => exact ih

namespace Rule.Instance

variable {t : Registry K} {R : Rule K} {env env' : Env K} {c : Constraint K}

/-- The environment of an instance binds the symbols of iterators only. -/
theorem get? (h : R.Instance t env c env') {s : String}
    (hs : ∀ it ∈ R.iterators, it.symbol ≠ s) : env'.get? s = env.get? s := by
  induction h with
  | single => rfl
  | family hits _ hr _ ih =>
    simp only [iterators, List.mem_append] at hs
    rw [ih fun it hit => hs it (.inr (mem_iteratorsOf hr hit)),
      hits.get? fun it hit => hs it (.inl hit)]

theorem values (h : R.Instance t env c env') : env'.values = env.values := by
  induction h with
  | single => rfl
  | family hits _ _ _ ih => rw [ih, hits.values]

end Rule.Instance

/-! ## Enumeration -/

section Enumeration

variable [ReflBEq (Value K)]

/-- What is found at the end of each chain of bindings makes up what a visit finds. -/
theorem visit_secures (r : Registry K) {last : Env K → Run K (List α)}
    {M : Registry K → Env K → γ → Prop} {Q : Registry K → γ → α → Prop}
    (hlast : ∀ inner, (last inner).Secures fun t xs => r.KeptIn t → Lists (M t inner) (Q t) xs)
    (its : List (Iter K)) (a : Env K) :
    (Stage.visit (stages r.lookup its) last a).Secures fun t xs => r.KeptIn t →
      Lists (fun g => ∃ inner, t.Binds its a inner ∧ M t inner g) (Q t) xs := by
  induction its generalizing a with
  | nil =>
    refine (hlast a).mono fun t xs hxs hrt => (hxs hrt).congr fun g => ⟨fun hg => ⟨a, .nil, hg⟩, ?_⟩
    rintro ⟨_, ⟨⟩, hg⟩
    exact hg
  | cons it its ih =>
    simp only [stages, Stage.visit, stage_symbol, stage_elements, stage_admits]
    refine EnsuresFrom.bind ((through_sourceElements it.source a).stable r).secures fun vs => ?_
    refine EnsuresFrom.bind (P := fun t found => r.KeptIn t → Lists (· ∈ vs) (fun v xs =>
      Lists (fun g => (holds t.lookup it.filter (a.bind it.symbol v)).Gives t true ∧
        ∃ inner, t.Binds its (a.bind it.symbol v) inner ∧ M t inner g) (Q t) xs) found)
      ?_ fun found => ensures_pure fun t hfound hvs hrt => ?_
    · refine (ensures_mapM (P := fun v t xs => r.KeptIn t →
        Lists (fun g => (holds t.lookup it.filter (a.bind it.symbol v)).Gives t true ∧
          ∃ inner, t.Binds its (a.bind it.symbol v) inner ∧ M t inner g) (Q t) xs)
        vs fun v => ?_).mono fun t found hfound hrt =>
          ⟨vs, hfound.imp fun _ _ hxs => hxs hrt, fun _ => Iff.rfl⟩
      refine EnsuresFrom.bind ((through_holds it.filter _).stable r).secures fun passes => ?_
      cases passes with
      | true =>
        exact (ih (a.bind it.symbol v)).mono fun t xs hxs hpass hrt =>
          (hxs hrt).congr fun g => by simp [hpass hrt]
      | false =>
        refine ensures_pure fun t hfails hrt => Lists.nil fun g hg => ?_
        exact absurd ((hfails hrt).unique hg.1) (by simp)
    · refine (hfound hrt).flatten.congr fun g => ⟨?_, ?_⟩
      · rintro ⟨v, hv, hpass, inner, hinner, hg⟩
        exact ⟨inner, .cons (hvs hrt) hv hpass hinner, hg⟩
      · rintro ⟨inner, hbinds, hg⟩
        cases hbinds with
        | cons hvs' hv hpass hinner =>
          obtain rfl := (hvs hrt).unique hvs'
          exact ⟨_, hv, hpass, inner, hinner, hg⟩

/-- An enumeration lists something for each chain of bindings under which the condition holds. -/
theorem enumerate_secures (r : Registry K) {each : Env K → Run K α}
    {P : Registry K → Env K → α → Prop}
    (heach : ∀ inner, (each inner).Secures fun t x => P t inner x) (its : List (Iter K))
    (c : Option (Expr K)) (a : Env K) :
    (enumerate r.lookup its c a each).Secures fun t xs => r.KeptIn t →
      Lists (fun inner => t.Binds its a inner ∧ (holds t.lookup c inner).Gives t true)
        (P t) xs := by
  simp only [enumerate, Stage.enumerate]
  split
  · exact ensures_fail
  · refine (visit_secures r (M := fun t inner g =>
      g = inner ∧ (holds t.lookup c inner).Gives t true) (Q := P) (fun inner => ?_) its a).mono
      fun t xs hxs hrt => (hxs hrt).congr fun g => ?_
    · refine EnsuresFrom.bind ((through_holds c inner).stable r).secures fun holds => ?_
      cases holds with
      | true =>
        refine EnsuresFrom.bind (heach inner) fun x => ensures_pure fun t hx hholds hrt => ?_
        exact Lists.single (fun g => by simp [hholds hrt]) hx
      | false =>
        refine ensures_pure fun t hfails hrt => Lists.nil fun g hg => ?_
        exact absurd ((hfails hrt).unique hg.2) (by simp)
    · constructor
      · rintro ⟨inner, hinner, rfl, hholds⟩
        exact ⟨hinner, hholds⟩
      · rintro ⟨hinner, hholds⟩
        exact ⟨g, hinner, rfl, hholds⟩

end Enumeration

/-! ## Rules -/

namespace Rule

variable {f : Constraint K → Env K → Run K α} {P : Registry K → Place K → α → Prop}

mutual
/-- What is done for every constraint of a rule is done once for each of its instances. -/
theorem forEach_secures [ReflBEq (Value K)]
    (hf : ∀ c env, (f c env).Secures fun t x => P t (c, env) x) :
    ∀ (R : Rule K) (env : Env K), (R.forEach f env).Secures fun t xs =>
      Lists (R.places t env) (P t) xs
  | .single c, env => by
    refine EnsuresFrom.bind (hf c env) fun x =>
      ensures_pure fun t hx => Lists.single (fun g => ?_) hx
    constructor
    · intro h
      cases h
      rfl
    · rintro rfl
      exact .single
  | .family literal its condition body, env => by
    simp only [forEach, Run.lookup, bind_assoc, pure_bind]
    refine ensures_registry fun r => ?_
    refine EnsuresFrom.bind (enumerate_secures r (fun inner => forEachOf_secures hf body inner) its
      condition env) fun found => ensures_pure fun t hfound _ hrt => ?_
    refine (hfound hrt).flatten.congr fun g => ⟨?_, ?_⟩
    · rintro ⟨inner, ⟨hits, hcondition⟩, R, hR, h⟩
      exact .family hits hcondition hR h
    · intro h
      cases h with
      | family hits hcondition hR h => exact ⟨_, ⟨hits, hcondition⟩, _, hR, h⟩

theorem forEachOf_secures [ReflBEq (Value K)]
    (hf : ∀ c env, (f c env).Secures fun t x => P t (c, env) x) :
    ∀ (Rs : List (Rule K)) (env : Env K), (forEachOf f Rs env).Secures fun t xs =>
      Lists (fun g => ∃ R ∈ Rs, R.places t env g) (P t) xs
  | [], env => by
    exact ensures_pure fun t => Lists.nil (by simp)
  | R :: Rs, env => by
    refine EnsuresFrom.bind (forEach_secures hf R env) fun found => ?_
    refine EnsuresFrom.bind (forEachOf_secures hf Rs env) fun further => ?_
    exact ensures_pure fun t hfurther hfound => (hfound.append hfurther).congr fun g => by simp
end

end Rule

end LinearModel
