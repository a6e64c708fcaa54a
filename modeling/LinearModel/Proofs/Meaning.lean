import LinearModel.Proofs.Lockstep

/-!
# Meaning

A question means an answer in a registry if the answer is worked out from the meanings of further
questions. This is the least such relation, so a question that leads back to itself means nothing,
and it speaks neither of how deep a lookup goes nor of what the registry has computed so far.

While the definition of a parameter is being evaluated the parameter must not be asked for, so the
relation says which parameters are out of reach.
-/
namespace LinearModel

open Run

variable {K : Type} {α : Type}

/-- A failure because a definition never ends. -/
def Failure.IsEndless (f : Failure K) : Prop := f.cause.kind = .endless

instance (f : Failure K) : Decidable f.IsEndless := inferInstanceAs (Decidable (_ = _))

/-- An answer that is reached, be it a failure. -/
def Ends (a : Except (Failure K) α) : Prop := ∀ f, a = .error f → ¬ f.IsEndless

theorem ends_ok (a : α) : Ends (.ok a : Except (Failure K) α) := fun _ h => by cases h

theorem ends_error {f : Failure K} (h : ¬ f.IsEndless) : Ends (.error f : Except (Failure K) α) :=
  fun _ hf => by cases hf; exact h

instance : (a : Except (Failure K) α) → Decidable (Ends a)
  | .ok a => isTrue (ends_ok a)
  | .error f =>
    if h : f.IsEndless then isFalse fun hends => hends f rfl h else isTrue (ends_error h)

theorem exists_of_not_ends {a : Except (Failure K) α} (h : ¬ Ends a) :
    ∃ f, a = .error f ∧ f.IsEndless := by
  simp only [Ends, not_forall, not_not] at h
  obtain ⟨f, hf, hendless⟩ := h
  exact ⟨f, hf, hendless⟩

namespace Question

/-- A question for a parameter that is out of reach. -/
def IsBlocked (W : String → Prop) : Question K → Prop
  | .parameter s => W s
  | .elements _ _ _ => False

/-- The parameters that are out of reach while a question is worked out. -/
def blocking (W : String → Prop) : Question K → String → Prop
  | .parameter s, u => u = s ∨ W u
  | .elements _ _ _, u => W u

theorem blocking_of {W : String → Prop} (q : Question K) {u : String} (h : W u) :
    q.blocking W u := by
  cases q with
  | parameter s => exact .inr h
  | elements s env given => exact h

theorem blocking_mono {V W : String → Prop} (h : ∀ u, V u → W u) (q : Question K) (u : String) :
    q.blocking V u → q.blocking W u := by
  cases q with
  | parameter s => exact .imp_right (h u)
  | elements s env given => exact h u

theorem IsBlocked.mono {V W : String → Prop} (h : ∀ u, V u → W u) {q : Question K} :
    q.IsBlocked V → q.IsBlocked W := by
  cases q with
  | parameter s => exact h s
  | elements s env given => exact id

end Question

variable [Scalar K]

namespace Registry

/-- A question means an answer in a registry, with some parameters out of reach: the answer is
worked out from those that further questions mean. -/
inductive Means (B : Registry K) :
    (String → Prop) → ∀ q : Question K, Except (Failure K) q.Answer → Prop
  | workedOut {W : String → Prop} {q : Question K} {a : Except (Failure K) q.Answer}
      (f : Answers K) (hfree : ¬ q.IsBlocked W)
      (hf : ∀ q', q'.IsPlain → Ends (f q') → Means B (q.blocking W) q' (f q')) (hends : Ends a)
      (h : ((q.workOut (.ofAnswers f)).start ⟨B, []⟩).1 = a) : Means B W q a

/-- A question means an answer in a registry. -/
abbrev Amounts (B : Registry K) (q : Question K) (a : Except (Failure K) q.Answer) : Prop :=
  B.Means (fun _ => False) q a

variable {B C : Registry K} {V W : String → Prop} {q : Question K}
  {a b : Except (Failure K) q.Answer}

theorem Means.ends (h : B.Means W q a) : Ends a := by
  obtain ⟨f, _, _, hends, _⟩ := h
  exact hends

/-- A question means the same with fewer parameters out of reach. -/
theorem Means.weaken (h : B.Means W q a) (hVW : ∀ u, V u → W u) : B.Means V q a := by
  induction h generalizing V with
  | workedOut f hfree _ hends h ih =>
    exact .workedOut f (fun hblocked => hfree (hblocked.mono hVW))
      (fun q' hq' hf => ih q' hq' hf (Question.blocking_mono hVW _)) hends h

theorem Means.amounts (h : B.Means W q a) : B.Amounts q a := h.weaken fun _ => False.elim

/-- A question means at most one answer. -/
theorem Means.unique (hB : B.Keyed) (hdata : B.IsData) (ha : B.Means W q a)
    (hb : B.Means V q b) (hq : q.IsPlain) : a = b := by
  induction ha generalizing V with
  | workedOut f _ _ hends h ih =>
    obtain ⟨g, _, hg, hends', h'⟩ := hb
    have hagree : f.Agree Failure.IsEndless Failure.IsEndless g := by
      intro q' hq'
      by_cases hf : Ends (f q')
      · by_cases hg' : Ends (g q')
        · exact .inr (.inr (ih q' hq' hf (hg q' hq' hg') hq'))
        · exact .inr (.inl (exists_of_not_ends hg'))
      · exact .inl (exists_of_not_ends hf)
    have hstep := workOut_inStepAt (.refl _ B) hB hdata hagree hq [] []
    obtain ⟨e, _, he, hendless⟩ | ⟨e, he, hendless⟩ | hsame := hstep.answers
    · exact absurd hendless (hends e (h ▸ he))
    · exact absurd hendless (hends' e (h' ▸ he))
    · exact h ▸ h' ▸ hsame

/-- A parameter that means nothing is not needed for the meaning of anything. -/
theorem Means.avoid {p : String} (h : B.Means W q a) (hp : ∀ b, ¬ B.Means W (.parameter p) b) :
    B.Means (fun u => u = p ∨ W u) q a := by
  induction h with
  | @workedOut W q a f hfree hf hends h ih =>
    have hmeans : B.Means W q a := .workedOut f hfree hf hends h
    refine .workedOut f ?_ (fun q' hq' hends' => ?_) hends h
    · cases q with
      | parameter s =>
        rintro (rfl | hs)
        · exact hp a hmeans
        · exact hfree hs
      | elements s env given => exact id
    · have hinner : ∀ b, ¬ B.Means (q.blocking W) (.parameter p) b := fun b hb =>
        hp b (hb.weaken fun u => q.blocking_of)
      refine (ih q' hq' hends' hinner).weaken fun u hu => ?_
      cases q with
      | parameter s =>
        obtain rfl | rfl | hu := hu
        exacts [.inr (.inl rfl), .inl rfl, .inr (.inr hu)]
      | elements s env given => exact hu

/-- While a question that means nothing is worked out, all others mean what they do. -/
theorem Means.blocking {q' : Question K} {b : Except (Failure K) q'.Answer} (h : B.Amounts q' b)
    (hq : ∀ a, ¬ B.Amounts q a) : B.Means (q.blocking fun _ => False) q' b := by
  cases q with
  | parameter s => exact h.avoid hq
  | elements s env given => exact h

/-- What has been found stays the meaning when more is declared. -/
theorem Means.extend (hB : B.Keyed) (hdata : B.IsData) (hBC : B.Offers (fun _ => True) C)
    (h : B.Means W q a) {v : q.Answer} (ha : a = .ok v) (hq : q.IsPlain) : C.Means W q a := by
  induction h with
  | @workedOut W q a f hfree hf hends h ih =>
    let g : Answers K := fun q' => match f q' with
      | .ok b => .ok b
      | .error _ => .error { cause := .endless }
    have hagree : f.Agree (fun _ => True) (fun _ => False) g := by
      intro q' _
      cases hfq : f q' with
      | error e => exact .inl ⟨e, rfl, trivial⟩
      | ok b => exact .inr (.inr (by simp only [g, hfq]))
    refine .workedOut g hfree (fun q' hq' hends' => ?_) hends ?_
    · cases hfq : f q' with
      | error e => exact absurd rfl (hends' { cause := .endless } (by simp only [g, hfq]))
      | ok b =>
        have hmeans := ih q' hq' (hfq ▸ ends_ok b) hfq hq'
        simpa only [g, hfq] using hmeans
    · have hstep := workOut_inStepAt hBC hB hdata hagree hq [] []
      obtain ⟨e, _, he, _⟩ | ⟨_, _, hfalse⟩ | hsame := hstep.answers
      · have : Except.ok v = Except.error e := ha.symm.trans (h.symm.trans he)
        cases this
      · exact hfalse.elim
      · exact hsame.symm.trans h

open Classical in
/-- What questions mean, with some parameters out of reach. A question without a meaning never
ends. -/
noncomputable def meant (B : Registry K) (W : String → Prop) : Answers K := fun q =>
  if h : ∃ a, B.Means W q a then h.choose else .error { cause := .endless }

theorem means_meant (h : Ends (B.meant W q)) : B.Means W q (B.meant W q) := by
  unfold meant at h ⊢
  split
  · rename_i hmeans
    exact hmeans.choose_spec
  · rename_i hnone
    simp only [hnone, dif_neg, not_false_eq_true] at h
    exact absurd rfl (h _ rfl)

theorem Means.meant_eq (hB : B.Keyed) (hdata : B.IsData) (h : B.Means W q a) (hq : q.IsPlain) :
    B.meant W q = a := by
  have hex : ∃ a, B.Means W q a := ⟨a, h⟩
  simp only [meant, hex, dif_pos]
  exact hex.choose_spec.unique hB hdata h hq

theorem meant_blocking (hB : B.Keyed) (hdata : B.IsData) (hq : ∀ a, ¬ B.Amounts q a)
    {q' : Question K} (hq' : q'.IsPlain) :
    B.meant (q.blocking fun _ => False) q' = B.meant (fun _ => False) q' := by
  by_cases hmeans : ∃ b, B.Amounts q' b
  · obtain ⟨b, hb⟩ := hmeans
    rw [hb.meant_eq hB hdata hq', (hb.blocking hq).meant_eq hB hdata hq']
  · have hnone : ¬ ∃ b, B.Means (q.blocking fun _ => False) q' b := fun ⟨b, hb⟩ =>
      hmeans ⟨b, hb.amounts⟩
    simp only [meant, hnone, hmeans, dif_neg, not_false_eq_true]

/-- The lookup of what everything means. -/
noncomputable def meaning (B : Registry K) : Lookup K := .ofAnswers (B.meant fun _ => False)

end Registry

end LinearModel
