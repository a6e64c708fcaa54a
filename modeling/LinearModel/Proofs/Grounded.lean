import LinearModel.Proofs.Linearization
import Mathlib.Data.Finset.Card
import Mathlib.Logic.Relation

/-!
# Grounded registries

In a grounded registry no definition of a parameter or domain leads back to itself, and none
mentions a decision expression. Decision expressions may mention each other in any way.

Evaluation of a definition is bounded by the number of definitions that it leads to, and evaluation
of a decision expression by the number of decision expressions that are not being looked into yet.
The lookup of a registry is deep enough for both.
-/
namespace LinearModel

open Run Relation

variable {K : Type}

/-- A parameter or a domain. -/
def Mention.IsData : Mention → Prop
  | .parameter _ | .domain _ => True
  | .dvar _ | .dexpr _ => False

/-- Whether something is a decision expression. -/
def Mention.isDexpr : Mention → Bool
  | .dexpr _ => true
  | .parameter _ | .domain _ | .dvar _ => false

namespace Registry

variable {r : Registry K} {x y : Mention} {A : List String}

/-- The definition of something mentions something else. -/
def Refers (r : Registry K) (x y : Mention) : Prop := ∃ q ∈ r.mentionsOf x, q.2 = y

/-- No definition of a parameter or domain leads back to itself, and none mentions a decision
expression. -/
structure IsGrounded (r : Registry K) : Prop where
  acyclic : ∀ {x}, x.IsData → ¬ TransGen r.Refers x x
  data : ∀ {x}, x.IsData → ∀ s, ¬ r.Refers x (.dexpr s)

/-- The parameters and domains that may have a definition. -/
def definitions (r : Registry K) : List Mention :=
  r.computedSets.keys.map .domain ++ r.boundRanges.keys.map .domain ++ r.params.keys.map .parameter

theorem Refers.mem_definitions (h : r.Refers x y) (hx : x.IsData) : x ∈ r.definitions := by
  obtain ⟨q, hq, -⟩ := h
  simp only [definitions, List.mem_append, List.mem_map]
  cases x with
  | parameter s =>
    cases hp : r.params.find? s with
    | none => simp [mentionsOf, hp] at hq
    | some p => exact .inr ⟨s, Table.mem_keys_iff.2 ⟨p, hp⟩, rfl⟩
  | domain s =>
    cases hd : r.domain? s with
    | none => simp [mentionsOf, hd] at hq
    | some d =>
      cases d with
      | computed d =>
        exact .inl (.inl ⟨s, Table.mem_keys_iff.2 ⟨d, find?_of_domain?_computed hd⟩, rfl⟩)
      | range d => exact .inl (.inr ⟨s, Table.mem_keys_iff.2 ⟨d, find?_of_domain?_range hd⟩, rfl⟩)
      | _ => simp [mentionsOf, hd, Domain.mentions] at hq
  | dvar s => exact hx.elim
  | dexpr s => exact hx.elim

/-- A registry is grounded if what a definition mentions can be ranked below it. -/
theorem IsGrounded.of_rank (rank : Mention → Nat) (h : ∀ x ∈ r.definitions, ∀ q ∈ r.mentionsOf x,
    rank q.2 < rank x ∧ q.2.isDexpr = false) : r.IsGrounded := by
  have hstep : ∀ {x y}, x.IsData → r.Refers x y → rank y < rank x ∧ y.isDexpr = false := by
    rintro x _ hx ⟨q, hq, rfl⟩
    exact h x (Refers.mem_definitions ⟨q, hq, rfl⟩ hx) q hq
  have hpath : ∀ {x y}, x.IsData → TransGen r.Refers x y →
      rank y < rank x ∧ y.isDexpr = false := by
    intro x y hx hxy
    induction hxy with
    | single hxy => exact hstep hx hxy
    | @tail y z _ hyz ih =>
      have hy : y.IsData := by
        cases y with
        | parameter s | domain s => trivial
        | dvar s =>
          obtain ⟨q, hq, -⟩ := hyz
          cases hq
        | dexpr s => cases ih.2
      exact (hstep hy hyz).imp_left fun hlt => hlt.trans ih.1
  refine ⟨fun hx hcycle => (hpath hx hcycle).1.false, fun hx s hs => ?_⟩
  cases (hstep hx hs).2

/-! ## Heights -/

open Classical in
/-- The number of definitions that something leads to, itself included. -/
noncomputable def height (r : Registry K) (x : Mention) : Nat :=
  (r.definitions.toFinset.filter (ReflTransGen r.Refers x)).card

theorem height_le (r : Registry K) (x : Mention) : r.height x ≤ r.definitions.length := by
  classical
  exact (Finset.card_filter_le _ _).trans (List.toFinset_card_le _)

/-- Following a definition leads to fewer definitions. -/
theorem IsGrounded.height_lt (hr : r.IsGrounded) (hx : x.IsData) (h : r.Refers x y) :
    r.height y < r.height x := by
  classical
  refine Finset.card_lt_card (Finset.ssubset_iff_of_subset ?_ |>.2 ⟨x, ?_, ?_⟩)
  · exact Finset.monotone_filter_right _ fun z _ hz => ReflTransGen.head h hz
  · simpa using ⟨h.mem_definitions hx, ReflTransGen.refl⟩
  · rw [Finset.mem_filter]
    exact fun hmem => hr.acyclic hx (TransGen.head' h hmem.2)

/-- The number of decision expressions that are not being looked into. -/
def free (r : Registry K) (A : List String) : Nat :=
  (r.dexprs.keys.toFinset.filter (· ∉ A)).card

theorem free_le (r : Registry K) (A : List String) : r.free A ≤ r.dexprs.size := by
  refine (Finset.card_filter_le _ _).trans ((List.toFinset_card_le _).trans_eq ?_)
  simp [Table.keys, Table.size]

theorem free_append_le (r : Registry K) (A B : List String) : r.free (A ++ B) ≤ r.free A :=
  Finset.card_le_card (Finset.monotone_filter_right _ fun _ _ hs hA =>
    hs (List.mem_append_left B hA))

theorem free_lt {s : String} (hs : s ∉ A) (hdeclared : r.dexprs.contains s = true) :
    r.free (A ++ [s]) < r.free A := by
  refine Finset.card_lt_card (Finset.ssubset_iff_of_subset ?_ |>.2 ⟨s, ?_, ?_⟩)
  · exact Finset.monotone_filter_right _ fun u _ hu hA => hu (List.mem_append_left [s] hA)
  · obtain ⟨d, hd⟩ := Option.isSome_iff_exists.1 hdeclared
    simpa using ⟨Table.mem_keys_iff.2 ⟨d, hd⟩, hs⟩
  · simp

/-! ## Evaluation -/

/-- Evaluation, and the same without some decision expressions, while these are looked into. It
never runs out of depth, and it does not come to know that something is missing for the second one.
-/
def grounded (r : Registry K) (H : List String) : Regime K where
  base := r
  hidden s := decide (s ∈ H)
  excused c := H ≠ [] ∧ ∃ s path, c = .cyclicDexpr s path
  barred c := c.kind = .endless ∨ ∃ s ∈ H, c = .dexprNotDeclared s

/-- What may be mentioned where a lookup goes `n` declarations deep. -/
def Permits (r : Registry K) (H : List String) (n : Nat) (A : List String) : Mention → Prop
  | .parameter s => r.height (.parameter s) < n
  | .domain s => r.height (.domain s) < n
  | .dvar _ => True
  | .dexpr _ => H ⊆ A ∧ r.definitions.length + r.free A + 1 < n

variable {H : List String} {n m N : Nat}

theorem lawful_grounded (r : Registry K) (H : List String) (n : Nat) :
    (r.grounded H).Lawful (r.Permits H n) where
  plain {c} hc hbarred := by
    obtain hendless | ⟨s, -, rfl⟩ := hbarred
    · cases c <;> simp [Cause.isPlain, Cause.kind] at hc hendless
    · cases hc
  leftover _ hbarred := by
    obtain hendless | ⟨s, -, hs⟩ := hbarred
    · cases hendless
    · cases hs
  visible hp hs := by
    simpa [grounded] using fun hH => hs (hp.1 hH)
  undeclared hp hs hbarred := by
    obtain hendless | ⟨u, hu, hsu⟩ := hbarred
    · cases hendless
    · cases hsu
      exact hs (hp.1 hu)
  cyclic hp hs path := by
    refine ⟨fun hbarred => ?_, ?_⟩
    · obtain hendless | ⟨u, -, hu⟩ := hbarred
      · cases hendless
      · cases hu
    · by_cases hH : H = []
      · subst hH
        exact .inr (by simp [grounded])
      · exact .inl ⟨hH, _, _, rfl⟩

theorem IsGrounded.descends (hr : r.IsGrounded) :
    (r.grounded H).Descends (r.Permits H (n + 1)) (r.Permits H n) := by
  intro A x hx hopen q (hq : q ∈ r.mentionsOf x)
  have hrefers : r.Refers x q.2 := ⟨q, hq, rfl⟩
  have hdata : x.IsData → r.height x < n + 1 → r.Permits H n (x.inside A ++ q.1) q.2 := by
    intro hxdata hheight
    have hlt := hr.height_lt hxdata hrefers
    have hdexpr := hr.data hxdata
    generalize q.2 = y at hrefers hlt
    cases y with
    | parameter s | domain s => exact hlt.trans_le (Nat.le_of_lt_succ hheight)
    | dvar s => trivial
    | dexpr s => exact absurd hrefers (hdexpr s)
  cases x with
  | parameter s | domain s => exact hdata trivial hx
  | dvar s => cases hq
  | dexpr s =>
    obtain ⟨hH, hn⟩ := hx
    have hdeclared : r.dexprs.contains s = true := by
      cases hd : r.dexprs.find? s with
      | none => simp [mentionsOf, hd] at hq
      | some d => simp [Table.contains, hd]
    have hs := free_lt (hopen s rfl) hdeclared
    have hfree := r.free_append_le (A ++ [s]) q.1
    simp only [Mention.inside]
    cases hy : q.2 with
    | parameter u | domain u =>
      have hheight := r.height_le q.2
      rw [hy] at hheight
      simp only [Permits]
      omega
    | dvar u => trivial
    | dexpr u =>
      refine ⟨fun v hv => ?_, by omega⟩
      simp [hH hv]

theorem Permits.mono (h : N ≤ n) (hx : r.Permits H N A x) : r.Permits H n A x := by
  cases x with
  | parameter s | domain s => exact hx.trans_le h
  | dvar s => trivial
  | dexpr s => exact ⟨hx.1, hx.2.trans_le h⟩

/-- What is left without the decision expressions that are looked into. -/
abbrev rest (r : Registry K) (H : List String) : Registry K := r.hide (r.grounded H).hidden

theorem size_rest (r : Registry K) (H : List String) :
    (r.rest H).size = r.definitions.length + (r.rest H).dexprs.size := by
  simp [definitions, size, hide, Table.keys, Table.size, Nat.add_assoc]

theorem size_rest_le (r : Registry K) (H : List String) : (r.rest H).size ≤ r.size := by
  exact Nat.add_le_add_left (List.length_filter_le _ _) _

theorem free_le_rest (hH : H ⊆ A) : r.free A ≤ (r.rest H).dexprs.size := by
  have hsub : r.dexprs.keys.toFinset.filter (· ∉ A) ⊆ (r.rest H).dexprs.keys.toFinset := by
    intro u hu
    simp only [Finset.mem_filter, List.mem_toFinset, Table.keys, List.mem_map] at hu
    obtain ⟨⟨e, he, rfl⟩, hA⟩ := hu
    simp only [List.mem_toFinset, Table.keys, hide, List.mem_map, List.mem_filter]
    refine ⟨e, ⟨he, ?_⟩, rfl⟩
    simpa [grounded] using fun heH => hA (hH heH)
  refine (Finset.card_le_card hsub).trans ((List.toFinset_card_le _).trans_eq ?_)
  simp [Table.keys, Table.size]

/-- Everything may be mentioned where a lookup is deep enough. -/
theorem permits_all (hH : H ⊆ A) (hN : r.definitions.length + r.free A + 2 ≤ N) (x : Mention) :
    r.Permits H N A x := by
  have hheight := r.height_le x
  cases x with
  | parameter s | domain s =>
    simp only [Permits]
    omega
  | dvar s => trivial
  | dexpr s => exact ⟨hH, hN⟩

end Registry

/-! ## Depths -/

variable [Scalar K] {r : Registry K} {H : List String}

open Registry Regime

namespace Registry.IsGrounded

/-- Lookups answer alike as deep as both go. -/
theorem lookups (hr : r.IsGrounded) {N n m : Nat} (hn : N ≤ n) (hm : N ≤ m) :
    (comparison (r.lawful_grounded H N)).Lookups (LinearModel.lookup n) (LinearModel.lookup m) := by
  induction N generalizing n m with
  | zero =>
    exact ⟨fun s idx hs => absurd hs (Nat.not_lt_zero _),
      fun s given _ hs => absurd hs (Nat.not_lt_zero _),
      fun hab _ _ => absurd hab.entered.choose_spec.2.2.2 (Nat.not_lt_zero _)⟩
  | succ N ih =>
    cases n with
    | zero => exact absurd hn (Nat.not_succ_le_zero N)
    | succ n =>
      cases m with
      | zero => exact absurd hm (Nat.not_succ_le_zero N)
      | succ m =>
        exact lookups_succ (fun _ => trivial) _ _ hr.descends
          (ih (Nat.le_of_succ_le_succ hn) (Nat.le_of_succ_le_succ hm))

variable {n m : Nat}

/-- Evaluation and linearization end where the lookups are deep enough for what is left. -/
theorem deep (hr : r.IsGrounded) (hn : (r.rest H).size + 2 ≤ n) (hm : (r.rest H).size + 2 ≤ m) :
    (r.grounded H).Deep (r.Permits H ((r.rest H).size + 2))
      (fun k l A => r.free A < k ∧ r.free A < l) (LinearModel.lookup n) (LinearModel.lookup m) where
  lawful := r.lawful_grounded H _
  lookups := hr.lookups hn hm
  descends hx hopen q hq := (hr.descends hx hopen q hq).mono (Nat.le_succ _)
  params A s := by
    have hheight := r.height_le (.parameter s)
    have hsize := r.size_rest H
    simp only [Permits]
    omega
  within B hk := hk.imp (r.free_append_le _ B).trans_lt (r.free_append_le _ B).trans_lt
  inside hk hs hdeclared := by
    have hfree : r.free (_ ++ [_]) < r.free _ := free_lt hs hdeclared
    omega
  together hk := by omega
  ends hk := absurd hk.1 (Nat.not_lt_zero _)

variable (hr : r.IsGrounded) (hn : (r.rest H).size + 2 ≤ n) (hm : (r.rest H).size + 2 ≤ m)
  {A : List String} (hH : H ⊆ A)

include hH

/-- While what is left out is looked into, everything may be mentioned. -/
theorem allows (qs : List Site) : (comparison (hr.deep hn hm).lawful).Allows A qs := by
  intro q _
  have hmem : H ⊆ A ++ q.1 := List.Subset.trans hH (List.subset_append_left _ _)
  have hfree : r.free (A ++ q.1) ≤ (r.rest H).dexprs.size := free_le_rest hmem
  have hsize := r.size_rest H
  exact permits_all hmem (by omega) q.2

end Registry.IsGrounded

end LinearModel
