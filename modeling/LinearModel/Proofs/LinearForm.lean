import LinearModel.Proofs.Terms

/-!
# Linear forms reconstruct expressions

The terms of an expression are gathered by variable, and a coefficient that counts as zero is
dropped. What a linear form evaluates to is what its terms add up to, less the coefficients that
were dropped times the values of their variables.
-/
namespace LinearModel

open Run LinearForm Expr

variable {t r : Registry ℚ} {σ : Assignment} {x y z : ℚ} {ts : List (Term ℚ)}
  {cs : List (String × Expr ℚ)}

/-! ## Totals over variables -/

/-- Entries by variable that stand for numbers, and the sum of these numbers times the values of
the variables. -/
inductive Totals {α : Type} (R : α → ℚ → Prop) (σ : Assignment) : List (String × α) → ℚ → Prop
  | nil : Totals R σ [] 0
  | cons {n : String} {a : α} {x z : ℚ} {es : List (String × α)} (ha : R a x)
      (hn : ∃ v, σ.values.find? n = some v) (h : Totals R σ es z) :
      Totals R σ ((n, a) :: es) (x * σ.number n + z)

/-- Factors that are to be added up. -/
def FactorsWorth (t : Registry ℚ) (fs : List (Expr ℚ)) (x : ℚ) : Prop :=
  ∃ xs, List.Forall₂ (IsWorth t) fs xs ∧ xs.sum = x

theorem FactorsWorth.concat {fs : List (Expr ℚ)} {f : Expr ℚ} (hfs : FactorsWorth t fs x)
    (hf : f.IsWorth t y) : FactorsWorth t (fs ++ [f]) (x + y) := by
  obtain ⟨xs, hxs, rfl⟩ := hfs
  exact ⟨xs ++ [y], List.rel_append hxs (.cons hf .nil), by simp⟩

theorem FactorsWorth.chain {fs : List (Expr ℚ)} (h : FactorsWorth t fs x) :
    (chain fs).IsWorth t x := by
  obtain ⟨xs, hxs, rfl⟩ := h
  refine ⟨Expr.chain_of (by simp only [Expr.zero, Expr.Plain]) (fun l r hl hr => ?_)
    (forall_mem_of_forall₂ (R := fun x f => f.IsWorth t x) hxs.flip fun _ _ hf => hf.plain), ?_⟩
  · simp only [Expr.Plain]
    exact ⟨hl, hr⟩
  · rw [List.sum_eq_foldl]
    exact number_chain (hxs.imp fun _ _ hf => hf.number)

namespace Totals

/-- A further factor of a variable adds to the total. -/
theorem insertIn {es : List (String × List (Expr ℚ))} {n : String} {f : Expr ℚ}
    (h : Totals (FactorsWorth t) σ es z) (hf : f.IsWorth t x)
    (hn : ∃ v, σ.values.find? n = some v) : Totals (FactorsWorth t) σ
      (Table.insertIn n ((Table.findIn n es).getD [] ++ [f]) es) (z + x * σ.number n) := by
  have hnil : FactorsWorth t [] 0 := ⟨[], .nil, rfl⟩
  induction h with
  | nil =>
    have hone := Totals.nil.cons (hnil.concat hf) hn
    simpa [Table.insertIn, Table.findIn, add_comm] using hone
  | @cons n' fs y z es hfs hn' hes ih =>
    by_cases hkey : (n' == n) = true
    · obtain rfl : n' = n := by simpa using hkey
      have hmore := hes.cons (hfs.concat hf) hn
      simp only [Table.insertIn, Table.findIn, hkey, ↓reduceIte, Option.getD_some]
      convert hmore using 1
      ring
    · have hother := ih.cons hfs hn'
      simp only [Table.insertIn, Table.findIn, if_neg hkey]
      convert hother using 1
      ring

theorem mono {α β : Type} {R : α → ℚ → Prop} {S : β → ℚ → Prop} {es : List (String × α)}
    {cs : List (String × β)} (h : Totals R σ es z)
    (hec : List.Forall₂ (fun e c => e.1 = c.1 ∧ ∀ x, R e.2 x → S c.2 x) es cs) :
    Totals S σ cs z := by
  induction h generalizing cs with
  | nil =>
    cases hec
    exact .nil
  | cons ha hn _ ih =>
    cases hec with
    | @cons _ c _ cs he hes =>
      obtain ⟨n, b⟩ := c
      obtain ⟨rfl, hab⟩ := he
      exact .cons (hab _ ha) hn (ih hes)

end Totals

/-! ## Gathering terms -/

/-- The factors gathered from further terms, and the constants among these, add up to what the terms
add to the factors before. -/
theorem Totals.gather {acc : Table String (List (Expr ℚ))} (hts : ∀ u ∈ ts, u.Evaluates t σ)
    (hacc : Totals (FactorsWorth t) σ acc.toList z) :
    ∃ u v, Totals (FactorsWorth t) σ (ts.foldl addFactor acc).toList u ∧
      FactorsWorth t (constants ts) v ∧ z + (ts.map (Term.amount t σ)).sum = u + v := by
  induction ts generalizing acc z with
  | nil => exact ⟨z, 0, hacc, ⟨[], .nil, rfl⟩, by simp⟩
  | cons term ts ih =>
    rw [List.forall_mem_cons] at hts
    cases term with
    | occurrence n base idx f =>
      obtain ⟨⟨x, hf⟩, hn⟩ := hts.1
      have hmore : Totals (FactorsWorth t) σ
          (addFactor acc (.occurrence n base idx f)).toList _ := hacc.insertIn hf hn
      obtain ⟨u, v, hu, hv, hsum⟩ := ih hts.2 hmore
      refine ⟨u, v, hu, hv, ?_⟩
      rw [List.map_cons, List.sum_cons, Term.amount, hf.amount_eq, ← hsum]
      ring
    | constant e =>
      obtain ⟨x, he⟩ := hts.1
      obtain ⟨u, v, hu, ⟨xs, hxs, rfl⟩, hsum⟩ := ih hts.2 hacc
      refine ⟨u, x + xs.sum, hu, ⟨x :: xs, .cons he hxs, by simp⟩, ?_⟩
      rw [List.map_cons, List.sum_cons, Term.amount, he.amount_eq]
      linarith

/-- The factors of terms by variable, and their constants, add up to what the terms add up to. -/
theorem AddUp.gather (h : AddUp t σ ts z) : ∃ u v, Totals (FactorsWorth t) σ (factors ts).toList u ∧
      FactorsWorth t (constants ts) v ∧ z = u + v := by
  have hempty : Totals (FactorsWorth t) σ (Table.empty : Table String (List (Expr ℚ))).toList 0 :=
    .nil
  obtain ⟨u, v, hu, hv, hsum⟩ := Totals.gather h.evaluates hempty
  exact ⟨u, v, hu, hv, by rw [← hsum, h.sum, zero_add]⟩

theorem forall₂_of_mapM_ok {ε α β : Type} {f : α → Except ε β} {as : List α} {bs : List β}
    (h : as.mapM f = .ok bs) : List.Forall₂ (fun a b => f a = .ok b) as bs := by
  induction as generalizing bs with
  | nil =>
    cases h
    exact .nil
  | cons a as ih =>
    rw [List.mapM_cons] at h
    obtain ⟨b, hb, h⟩ := bind_eq_ok.1 h
    obtain ⟨bs', hbs, h⟩ := bind_eq_ok.1 h
    cases h
    exact .cons hb (ih hbs)

theorem Totals.collect (hr : r.Tidy) (hrt : r.KeptIn t)
    (h : Totals (FactorsWorth t) σ (factors ts).toList z)
    (hcs : collect r ts = .ok cs) : Totals (IsWorth t) σ cs z := by
  refine h.mono ((forall₂_of_mapM_ok hcs).imp fun e c hc => ?_)
  obtain ⟨c', hc', hpure⟩ := bind_eq_ok.1 hc
  cases hpure
  exact ⟨rfl, fun x hx => hx.chain.simplify hr hrt hc'⟩

/-! ## Dropping coefficients -/

namespace LinearForm

/-- The number that a coefficient is, if it counts as zero. -/
def droppedNumber? {K : Type} [Scalar K] : Expr K → Option K
  | .num x => if Scalar.isZero x then some x else none
  | _ => none

/-- The coefficients that count as zero. -/
def droppedAmong {K : Type} [Scalar K] (cs : List (String × Expr K)) : List (String × K) :=
  cs.filterMap fun c => (droppedNumber? c.2).map fun x => (c.1, x)

/-- What numbers times the values of their variables add up to. -/
def weigh (σ : Assignment) (cs : List (String × ℚ)) : ℚ := (cs.map fun c => c.2 * σ.number c.1).sum

theorem isDropped_eq_isSome {K : Type} [Scalar K] (e : Expr K) :
    isDropped e = (droppedNumber? e).isSome := by
  cases e with
  | num x => cases hx : Scalar.isZero x <;> simp [isDropped, droppedNumber?, hx]
  | _ => rfl

theorem eq_of_droppedNumber? {e : Expr ℚ} (h : droppedNumber? e = some y) (he : e.IsWorth t x) :
    x = y := by
  cases e with
  | num u =>
    obtain rfl : u = x := gives_pure.1 he.number
    simp only [droppedNumber?, Option.ite_none_right_eq_some, Option.some.injEq] at h
    exact h.2
  | _ => simp [droppedNumber?] at h

end LinearForm

theorem Totals.drop (h : Totals (IsWorth t) σ cs z) :
    Totals (IsWorth t) σ (cs.filter fun c => !isDropped c.2) (z - weigh σ (droppedAmong cs)) := by
  induction h with
  | nil => simpa [droppedAmong, weigh] using Totals.nil
  | @cons n e x z cs he hn hcs ih =>
    cases hd : droppedNumber? e with
    | none =>
      have hdropped : droppedAmong ((n, e) :: cs) = droppedAmong cs := by
        simp [droppedAmong, hd]
      rw [hdropped, List.filter_cons_of_pos (by simp [isDropped_eq_isSome, hd]),
        add_sub_assoc]
      exact ih.cons he hn
    | some y =>
      obtain rfl := eq_of_droppedNumber? hd he
      have hdropped :
          droppedAmong ((n, e) :: cs) = (n, x) :: droppedAmong cs := by
        simp [droppedAmong, hd]
      rw [hdropped, List.filter_cons_of_neg (by simp [isDropped_eq_isSome, hd]),
        weigh, List.map_cons, List.sum_cons, add_sub_add_left_eq_sub]
      exact ih

/-! ## Evaluation -/

/-- What a plain expression is worth, it evaluates to. -/
theorem Expr.IsWorth.evaluate {e : Expr ℚ} (h : e.IsWorth t x) (ht : t.Keyed) :
    (e.evaluate Env.empty).Gives t x := by
  have hdepth : 1 ≤ t.size + familyDepth := by simp [familyDepth]
  exact (gives_evaluate _ _ ht).2 (h.number.number_mono ht hdepth (.refl Env.empty))

theorem Totals.evaluate (h : Totals (IsWorth t) σ cs z) (ht : t.Keyed) (c : ℚ) :
    (cs.foldlM (addWeighted σ.values) c).Gives t (c + z) := by
  induction h generalizing c with
  | nil => exact gives_pure.2 (by simp)
  | @cons n e x z cs he hn hcs ih =>
    obtain ⟨v, hv⟩ := hn
    obtain ⟨y, hy⟩ := σ.numeric hv
    have hnumber : σ.number n = y := by simp [Assignment.number, hv, hy]
    rw [List.foldlM_cons, hnumber, ← add_assoc]
    refine Gives.bind (a := c + x * y) ((he.evaluate ht).bind ?_) (ih _)
    simp only [hv, Value.scaleBy_of_scalar? x hy]
    exact gives_pure.2 rfl

/-- The coefficients of a linear form and its constant are worth what its terms add up to, less what
was dropped. -/
theorem AddUp.form {f : LinearForm ℚ} (h : AddUp t σ ts z) (hr : r.Tidy) (hrt : r.KeptIn t)
    (hf : ofTerms r ts = .ok f) : ∃ cs u v, collect r ts = .ok cs ∧
      Totals (IsWorth t) σ f.coefficients.toList (u - weigh σ (droppedAmong cs)) ∧
      f.constant.IsWorth t v ∧ z = u + v := by
  obtain ⟨cs, hcs, hf⟩ := bind_eq_ok.1 hf
  obtain ⟨c, hc, hf⟩ := bind_eq_ok.1 hf
  cases hf
  obtain ⟨u, v, hu, hv, rfl⟩ := h.gather
  exact ⟨cs, u, v, hcs, (hu.collect hr hrt hcs).drop, hv.chain.simplify hr hrt hc, rfl⟩

/-- A linear form evaluates to what its terms add up to, less what was dropped. -/
theorem AddUp.ofTerms {f : LinearForm ℚ} (h : AddUp t σ ts z) (hr : r.Tidy) (hrt : r.KeptIn t)
    (hf : ofTerms r ts = .ok f) : ∃ cs, collect r ts = .ok cs ∧ (f.evaluate σ.values).Gives t
      (z - weigh σ (droppedAmong cs)) := by
  obtain ⟨cs, u, v, hcs, hu, hv, rfl⟩ := h.form hr hrt hf
  have ht := hr.toKeyed.kept hrt
  refine ⟨cs, hcs, (hv.evaluate ht).bind ?_⟩
  convert hu.evaluate ht v using 1
  ring

/-! ## Linearization -/

/-- An environment where variables have assigned values. -/
def Env.under {K : Type} (a : Env K) (values : Table String (Value K)) : Env K := { a with values }

/-- The terms of an expression add up to its value, in every registry that may follow. -/
theorem affineTerms_secures (e : Expr ℚ) (a : Env ℚ) :
    (affineTerms e a).Secures fun t ts => ∀ {σ : Assignment} {y : ℚ}, t.WellIndexed →
      a.Fits t σ → e.Indexed → (e.evaluate (a.under σ.values)).Gives t y → AddUp t σ ts y := by
  simp only [affineTerms, Run.lookup, bind_assoc, pure_bind]
  refine ensures_registry fun r => ?_
  refine EnsuresFrom.bind (Simulation.exprSubstitute (lookup_keeps _) trivial e (.refl a)).secures
    fun e' => ?_
  refine ensures_registry fun r' => ?_
  refine (terms_secures (descent_terms_secures _) e' _ a).mono ?_
  intro t ts hts _ _ hsub hr hrt σ y hbodies ha he hy
  have ht := hr.toKeyed.kept hrt
  rw [gives_evaluate _ _ ht, Registry.knownLookup, ← hrt.size] at hy
  have hbelow : a.Below (a.under σ.values) := ⟨rfl, ha.values, fun _ hs => hs⟩
  have hsubst := substitute_sound ht e (hsub.substitute_mono ht (Nat.le_refl _) hbelow)
  have hcomes : e'.Comes t σ (r.size + familyDepth) a y :=
    ⟨hsubst.reduced.mono (fun _ _ => rfl) e', hsubst.indexed he,
      (hsubst.refines (.refl _)).number hy⟩
  simpa using hts (Nat.le_refl _) ht hbodies ha hcomes (.num 1)

/-- The coefficients of an expression before any is dropped. -/
def collected {K : Type} [Scalar K] (e : Expr K) (env : Env K) :
    Run K (List (String × Expr K)) := do
  let ts ← affineTerms e env
  Run.ofExcept (collect (← Run.registry) ts)

end LinearModel
