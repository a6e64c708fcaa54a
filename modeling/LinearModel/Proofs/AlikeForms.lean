import LinearModel.Proofs.Columns
import LinearModel.Proofs.Foresight

/-!
# Alike terms and forms

How far the factors of terms are folded depends on the values that parameters hold by then. Apart
from that, two registries that are up to date split an expression into the same terms: they refer to
the same variables in the same order, and their factors are alike. Gathered by variable the factors
give alike coefficients. Only the coefficients that have folded to zero are dropped, so a variable
may be missing on one side.
-/
namespace LinearModel

open LinearForm LinearModel.Expr Simulation Table

variable {ts ts' : List (Term ℚ)} {e f f' : Expr ℚ}

open Run

/-! ## Terms -/

/-- Terms that refer to the same variable, if to any, with factors that are alike. -/
inductive Term.Alike (ps : Table String (Parameter ℚ)) : Term ℚ → Term ℚ → Prop
  | occurrence (n base : String) (idx : Option (Index ℚ)) {f f' : Expr ℚ} (h : f.Alike ps f') :
      Alike ps (.occurrence n base idx f) (.occurrence n base idx f')
  | constant {e e' : Expr ℚ} (h : e.Alike ps e') : Alike ps (.constant e) (.constant e')

/-- What is simplified in two registries that are up to date comes out alike. -/
theorem simplify_agrees {B : Registry ℚ} (hB : B.Keyed) (hdata : B.IsData) {e' : Expr ℚ}
    (h : e.Alike B.foreseen e') :
    Agrees B (Alike B.foreseen) (do Run.ofExcept (e.simplify (some (← Run.registry))))
      (do Run.ofExcept (e'.simplify (some (← Run.registry)))) :=
  agrees_registry fun _ _ hr ht => agrees_ofExcept fun _ _ hf hf' =>
    h.simplify hr.tidy (hr.foretold hB hdata) ht.tidy (ht.foretold hB hdata) hf hf'

namespace Expr

variable {B : Registry ℚ} (hB : B.IsSound) (hdata : B.IsData) (hfamilies : B.FamiliesAgree)
  {n k : Nat}

include hB hdata hfamilies

theorem descent_isConstant_agrees (k : Nat) (e : Expr ℚ) (a : Env ℚ) :
    Agrees B Eq ((descent (lookup n) k).isConstant e a)
      ((descent (lookup n) k).isConstant e a) := by
  have hL := lookup_agrees hB.toKeyed hdata hfamilies n
  induction k generalizing e a with
  | zero => exact agrees_fail _ _
  | succ k ih =>
    refine exprIsConstantLike hL trivial (fun e a b hab => ?_) e rfl
    subst hab
    exact ih e a

/-- Whether an expression is constant does not depend on what has been evaluated before. -/
theorem isConstantLike_agrees (e : Expr ℚ) (a : Env ℚ) :
    Agrees B (fun c c' => c = c' ∧ (c = true → e.Reduced Env.empty → e.Indexed →
        e.mentionsDexpr = false → e.Plain))
      (e.isConstantLike (lookup n) (descent (lookup n) k).isConstant a)
      (e.isConstantLike (lookup n) (descent (lookup n) k).isConstant a) := by
  intro s t c c' s' t' hs ht hc hc'
  obtain ⟨hs', ht', rfl⟩ := descent_isConstant_agrees hB hdata hfamilies (k + 1) e a hs ht hc hc'
  refine ⟨hs', ht', rfl, ?_⟩
  rintro rfl hreduced hindexed hno
  exact plain_of_isConstantLike e hc hno hreduced hindexed

theorem resolveConstant_agrees (he : e.mentionsDexpr = false → e.Plain) (a : Env ℚ) :
    Agrees B (Alike B.foreseen) (resolveConstant (lookup n) e a)
      (resolveConstant (lookup n) e a) := by
  have hL := lookup_agrees hB.toKeyed hdata hfamilies n
  unfold resolveConstant
  split
  · refine Agrees.bind (P := Eq) (exprNumber hL e rfl) fun x y hxy => ?_
    subst hxy
    exact agrees_pure (.num x)
  · rename_i hno
    exact agrees_pure (.refl (he (Bool.eq_false_iff.2 hno)))

/-- The body of a decision expression with its index substituted. -/
theorem unfoldDexpr_agrees (s : String) (idx : Option (Expr ℚ)) (a : Env ℚ) :
    Agrees B (fun b b' => b = b' ∧ b.Reduced Env.empty ∧ b.Indexed)
      (unfoldDexpr (lookup n) s idx a) (unfoldDexpr (lookup n) s idx a) := by
  intro u v b b' u' v' hu hv hb hb'
  have hL := lookup_agrees hB.toKeyed hdata hfamilies n
  obtain ⟨hu', hv', rfl⟩ := Simulation.unfoldDexpr hL trivial s idx rfl hu hv hb hb'
  have hgives : (unfoldDexpr (known n) s idx a).Gives u'.registry b :=
    (Simulation.unfoldDexpr (lookup_keeps n) trivial s idx (.refl a) hu.tidy.toKeyed hb).2 (.refl _)
  obtain ⟨⟨d, inner⟩, hscope, hsub⟩ :=
    (gives_bind (steady_dexprScope s idx) fun p => steady_substitute p.1.body p.2).1 hgives
  have hd := (gives_dexprScope.1 hscope).1
  have hdexprs := congrArg Registry.dexprs hu'.current.base
  have hsubst := substitute_sound hu'.tidy.toKeyed d.body hsub
  refine ⟨hu', hv', rfl, hsubst.reduced.mono (fun _ _ => rfl) b, hsubst.indexed ?_⟩
  exact hB.wellIndexed (hdexprs ▸ hd)

/-- An expression that is constant is one term, and any other is left to be split. -/
theorem constant_agrees {a : Env ℚ} {rest rest' : Run ℚ (List (Term ℚ))}
    (hreduced : e.Reduced Env.empty) (hindexed : e.Indexed) (hf : f.Alike B.foreseen f')
    (hrest : Agrees B (List.Forall₂ (Term.Alike B.foreseen)) rest rest') :
    Agrees B (List.Forall₂ (Term.Alike B.foreseen)) (do
        if ← e.isConstantLike (lookup n) (descent (lookup n) k).isConstant a then
          return [Term.constant (← scale .mul f (← resolveConstant (lookup n) e a))]
        else rest)
      (do
        if ← e.isConstantLike (lookup n) (descent (lookup n) k).isConstant a then
          return [Term.constant (← scale .mul f' (← resolveConstant (lookup n) e a))]
        else rest') := by
  refine (isConstantLike_agrees hB hdata hfamilies e a).bind fun c c' hc => ?_
  obtain ⟨rfl, hplain⟩ := hc
  cases c with
  | false => exact hrest
  | true =>
    refine (resolveConstant_agrees hB hdata hfamilies (hplain rfl hreduced hindexed) a).bind
      fun e e' he => ?_
    refine (simplify_agrees hB.toKeyed hdata (hf.arith .mul he)).bind fun g g' hg => ?_
    exact agrees_pure (.cons (.constant hg) .nil)

/-- The terms of a substituted expression are alike if the factors are. -/
def TermsAgree (B : Registry ℚ) (terms : Expr ℚ → Expr ℚ → Env ℚ → Run ℚ (List (Term ℚ))) : Prop :=
  ∀ ⦃e f f' : Expr ℚ⦄ (a : Env ℚ), e.Reduced Env.empty → e.Indexed → f.Alike B.foreseen f' →
    Agrees B (List.Forall₂ (Term.Alike B.foreseen)) (terms e f a) (terms e f' a)

theorem dexpr_agrees (hbelow : TermsAgree B (descent (lookup n) k).terms) (s : String)
    (idx : Option (Expr ℚ)) (a : Env ℚ) (hf : f.Alike B.foreseen f') :
    Agrees B (List.Forall₂ (Term.Alike B.foreseen))
      ((dexpr s idx).terms (lookup n) (descent (lookup n) k) f a)
      ((dexpr s idx).terms (lookup n) (descent (lookup n) k) f' a) := by
  have hL := lookup_agrees hB.toKeyed hdata hfamilies n
  refine Agrees.bind (P := Eq) (agrees_ofExcept fun x y hx hy => Except.ok.inj (hx.symm.trans hy))
    fun inside inside' hinside => ?_
  subst hinside
  refine (unfoldDexpr_agrees hB hdata hfamilies s idx inside).bind fun body body' hbody => ?_
  obtain ⟨rfl, hreduced, hindexed⟩ := hbody
  refine (descent_isConstant_agrees hB hdata hfamilies k body inside).bind fun c c' hc => ?_
  subst hc
  cases c with
  | false => exact hbelow inside hreduced hindexed hf
  | true =>
    refine Agrees.bind (P := Eq) (exprNumber hL (.dexpr s idx) rfl) fun x y hxy => ?_
    subst hxy
    refine (simplify_agrees hB.toKeyed hdata (hf.arith .mul (.num x))).bind fun g g' hg => ?_
    exact agrees_pure (.cons (.constant hg) .nil)

/-- The terms of an expression do not depend on what has been evaluated before, but for how far
their factors are folded. -/
theorem terms_agrees (hbelow : TermsAgree B (descent (lookup n) k).terms) :
    ∀ (e : Expr ℚ) {f f' : Expr ℚ} (a : Env ℚ), e.Reduced Env.empty → e.Indexed →
      f.Alike B.foreseen f' → Agrees B (List.Forall₂ (Term.Alike B.foreseen))
          (e.terms (lookup n) (descent (lookup n) k) f a)
          (e.terms (lookup n) (descent (lookup n) k) f' a)
  | .var u base idx, f, f', a, _, _, hf => by
    exact agrees_pure (.cons (.occurrence u base idx hf) .nil)
  | .ivar s idx, f, f', a, he, _, hf => by
    simp only [Reduced] at he
  | .dexpr s idx, f, f', a, _, _, hf => dexpr_agrees hB hdata hfamilies hbelow s idx a hf
  | .neg e, f, f', a, he, hi, hf => by
    refine constant_agrees hB hdata hfamilies he hi hf ?_
    refine (simplify_agrees hB.toKeyed hdata (hf.arith .mul (.num _))).bind fun g g' hg => ?_
    exact terms_agrees hbelow e a he hi hg
  | .arith op l r, f, f', a, he, hi, hf => by
    refine constant_agrees hB hdata hfamilies he hi hf ?_
    cases op with
    | add =>
      refine (terms_agrees hbelow l a he.1 hi.1 hf).bind fun ls ls' hls => ?_
      refine (terms_agrees hbelow r a he.2 hi.2 hf).bind fun rs rs' hrs => ?_
      exact agrees_pure (List.rel_append hls hrs)
    | sub =>
      refine (terms_agrees hbelow l a he.1 hi.1 hf).bind fun ls ls' hls => ?_
      refine (simplify_agrees hB.toKeyed hdata (hf.arith .mul (.num _))).bind fun g g' hg => ?_
      refine (terms_agrees hbelow r a he.2 hi.2 hg).bind fun rs rs' hrs => ?_
      exact agrees_pure (List.rel_append hls hrs)
    | mul =>
      refine (isConstantLike_agrees hB hdata hfamilies l a).bind fun c c' hc => ?_
      obtain ⟨rfl, hplain⟩ := hc
      cases c with
      | true =>
        refine (resolveConstant_agrees hB hdata hfamilies (hplain rfl he.1 hi.1) a).bind
          fun l' l'' hl => ?_
        refine (simplify_agrees hB.toKeyed hdata (hf.arith .mul hl)).bind fun g g' hg => ?_
        exact terms_agrees hbelow r a he.2 hi.2 hg
      | false =>
        refine (isConstantLike_agrees hB hdata hfamilies r a).bind fun c c' hc => ?_
        obtain ⟨rfl, hplain⟩ := hc
        cases c with
        | true =>
          refine (resolveConstant_agrees hB hdata hfamilies (hplain rfl he.2 hi.2) a).bind
            fun r' r'' hr => ?_
          refine (simplify_agrees hB.toKeyed hdata (hf.arith .mul hr)).bind fun g g' hg => ?_
          exact terms_agrees hbelow l a he.1 hi.1 hg
        | false => exact agrees_fail _ _
    | div =>
      refine (isConstantLike_agrees hB hdata hfamilies r a).bind fun c c' hc => ?_
      obtain ⟨rfl, hplain⟩ := hc
      cases c with
      | true =>
        refine (resolveConstant_agrees hB hdata hfamilies (hplain rfl he.2 hi.2) a).bind
          fun r' r'' hr => ?_
        refine (simplify_agrees hB.toKeyed hdata (hf.arith .div hr)).bind fun g g' hg => ?_
        exact terms_agrees hbelow l a he.1 hi.1 hg
      | false => exact agrees_fail _ _
  | .sum _ _ _, _, _, _, _, _, _ | .rel _ _ _, _, _, _, _, _, _ | .logic _ _, _, _, _, _, _, _
  | .str _, _, _, _, _, _, _ | .record _ _, _, _, _, _, _, _ => by
    exact agrees_fail _ _
  | .num x, f, f', a, he, hi, hf | .name x, f, f', a, he, hi, hf | .param _ _, f, f', a, he, hi, hf
  | .field _ _, f, f', a, he, hi, hf | .item _ _, f, f', a, he, hi, hf => by
    exact constant_agrees hB hdata hfamilies he hi hf (agrees_fail _ _)

theorem descent_terms_agrees : ∀ k, TermsAgree B (descent (lookup n) k).terms
  | 0 => fun _ _ _ _ _ _ _ => agrees_fail _ _
  | k + 1 => fun e _ _ a he hi hf =>
    terms_agrees hB hdata hfamilies (descent_terms_agrees k) e a he hi hf

end Expr

/-! ## Linear forms -/

/-- Entries under the same name that are related. -/
def SameNamed {α : Type} (R : α → α → Prop) (e e' : String × α) : Prop := e.1 = e'.1 ∧ R e.2 e'.2

theorem SameNamed.names {α : Type} {R : α → α → Prop} {es es' : List (String × α)}
    (h : List.Forall₂ (SameNamed R) es es') : es.map (·.1) = es'.map (·.1) := by
  have hmap : List.Forall₂ Eq (es.map (·.1)) (es'.map (·.1)) := by
    rw [List.forall₂_map_left_iff, List.forall₂_map_right_iff]
    exact h.imp fun _ _ he => he.1
  rwa [List.forall₂_eq_eq_eq] at hmap

/-- Tables of coefficients that were alike before those that have folded to zero were dropped. -/
structure CoefficientsAlike (ps : Table String (Parameter ℚ)) (t t' : Table String (Expr ℚ)) :
    Prop where
  collected : ∃ cs cs' : List (String × Expr ℚ), (cs.map (·.1)).Nodup ∧
    List.Forall₂ (SameNamed (Alike ps)) cs cs' ∧
    t.toList = cs.filter (fun c => !isDropped c.2) ∧
    t'.toList = cs'.filter fun c => !isDropped c.2

section Forms

variable {ps : Table String (Parameter ℚ)}

/-- The coefficients of a variable are alike, or it is missing because one of them is zero. -/
theorem CoefficientsAlike.find? {t t' : Table String (Expr ℚ)} (h : CoefficientsAlike ps t t')
    {n : String} (hf : t.find? n = some f) : (∃ f', t'.find? n = some f' ∧ f.Alike ps f') ∨
      t'.find? n = none ∧ ∃ x, Scalar.isZero x = true ∧ f.Alike ps (.num x) := by
  obtain ⟨cs, cs', hnodup, hcs, ht, ht'⟩ := h.collected
  have hmem := mem_of_find? hf
  rw [ht] at hmem
  obtain ⟨⟨_, f'⟩, hf', rfl, halike⟩ := exists_of_forall₂ hcs (List.mem_of_mem_filter hmem)
  cases hfound : t'.find? n with
  | some g =>
    have hg := mem_of_find? hfound
    rw [ht'] at hg
    have hsame := List.inj_on_of_nodup_map (SameNamed.names hcs ▸ hnodup)
      (List.mem_of_mem_filter hg) hf' rfl
    obtain rfl : g = f' := congrArg Prod.snd hsame
    exact .inl ⟨g, rfl, halike⟩
  | none =>
    refine .inr ⟨rfl, ?_⟩
    have hdropped : isDropped f' = true := by
      by_contra hkept
      have hkey : n ∈ t'.keys := by
        rw [Table.keys, ht']
        exact List.mem_map.2 ⟨(n, f'), List.mem_filter.2 ⟨hf', by simpa using hkept⟩, rfl⟩
      obtain ⟨g, hg⟩ := mem_keys_iff.1 hkey
      rw [hg] at hfound
      cases hfound
    cases f' with
    | num x => exact ⟨x, hdropped, halike⟩
    | _ => cases hdropped

theorem CoefficientsAlike.symm {t t' : Table String (Expr ℚ)} (h : CoefficientsAlike ps t t') :
    CoefficientsAlike ps t' t := by
  obtain ⟨cs, cs', hnodup, hcs, ht, ht'⟩ := h.collected
  refine ⟨cs', cs, SameNamed.names hcs ▸ hnodup, hcs.flip.imp fun c c' hc => ?_, ht', ht⟩
  exact ⟨hc.1.symm, hc.2.right, hc.2.left, hc.2.folded.symm⟩

/-- Factors by variable stay alike if an alike factor is added to each list. -/
theorem insertIn_alike {es es' : List (String × List (Expr ℚ))} (n : String)
    (h : List.Forall₂ (SameNamed (List.Forall₂ (Alike ps))) es es') (hf : f.Alike ps f') :
    List.Forall₂ (SameNamed (List.Forall₂ (Alike ps)))
      (insertIn n ((findIn n es).getD [] ++ [f]) es)
      (insertIn n ((findIn n es').getD [] ++ [f']) es') := by
  induction h with
  | nil => exact .cons ⟨rfl, .cons hf .nil⟩ .nil
  | @cons e e' es es' he hes ih =>
    simp only [insertIn, findIn, ← he.1]
    split
    · exact .cons ⟨rfl, List.rel_append he.2 (.cons hf .nil)⟩ hes
    · exact .cons he ih

/-- Every coefficient is the simplified chain of the factors of its variable. -/
theorem chain_of_collect {r : Registry ℚ} {cs : List (String × Expr ℚ)}
    (h : collect r ts = .ok cs) :
    List.Forall₂ (fun e c => e.1 = c.1 ∧ (chain e.2).simplify (some r) = .ok c.2)
      (factors ts).toList cs := by
  refine (forall₂_of_mapM_ok h).imp fun e c hc => ?_
  obtain ⟨x, hx, hc⟩ := bind_eq_ok.1 hc
  cases hc
  exact ⟨rfl, hx⟩

theorem factors_alike (h : List.Forall₂ (Term.Alike ps) ts ts') :
    List.Forall₂ (SameNamed (List.Forall₂ (Alike ps))) (factors ts).toList
      (factors ts').toList := by
  have hfold : ∀ {ts ts' : List (Term ℚ)}, List.Forall₂ (Term.Alike ps) ts ts' →
      ∀ {t t' : Table String (List (Expr ℚ))},
        List.Forall₂ (SameNamed (List.Forall₂ (Alike ps))) t.toList t'.toList →
          List.Forall₂ (SameNamed (List.Forall₂ (Alike ps)))
            (ts.foldl addFactor t).toList (ts'.foldl addFactor t').toList := by
    intro ts ts' h
    induction h with
    | nil => exact fun ht => ht
    | cons hterm _ ih =>
      intro t t' ht
      cases hterm with
      | constant _ => exact ih ht
      | occurrence n base idx hf => exact ih (insertIn_alike n ht hf)
  exact hfold h .nil

theorem constants_alike (h : List.Forall₂ (Term.Alike ps) ts ts') :
    List.Forall₂ (Alike ps) (constants ts) (constants ts') := by
  induction h with
  | nil => exact .nil
  | cons hterm _ ih =>
    cases hterm with
    | constant he => exact .cons he ih
    | occurrence n base idx _ => exact ih

end Forms

section Linearization

variable {B : Registry ℚ} (hB : B.IsSound) (hdata : B.IsData)

include hB hdata

/-- Alike terms are gathered into linear forms that are alike but for what is dropped. -/
theorem ofTerms_alike {r r' : Registry ℚ} {f f' : LinearForm ℚ} (hr : r.UpToDate B)
    (hr' : r'.UpToDate B) (h : List.Forall₂ (Term.Alike B.foreseen) ts ts')
    (hf : ofTerms r ts = .ok f) (hf' : ofTerms r' ts' = .ok f') :
    CoefficientsAlike B.foreseen f.coefficients f'.coefficients ∧
      f.constant.Alike B.foreseen f'.constant := by
  have hsimplify : ∀ {e e' g g' : Expr ℚ}, e.Alike B.foreseen e' → e.simplify (some r) = .ok g →
      e'.simplify (some r') = .ok g' → g.Alike B.foreseen g' := fun he hg hg' =>
    he.simplify hr.tidy (hr.foretold hB.toKeyed hdata) hr'.tidy (hr'.foretold hB.toKeyed hdata)
      hg hg'
  obtain ⟨cs, hcs, hf⟩ := bind_eq_ok.1 hf
  obtain ⟨c, hc, hf⟩ := bind_eq_ok.1 hf
  cases hf
  obtain ⟨cs', hcs', hf'⟩ := bind_eq_ok.1 hf'
  obtain ⟨c', hc', hf'⟩ := bind_eq_ok.1 hf'
  cases hf'
  have hnodup : (cs.map (·.1)).Nodup := by
    rw [names_collect hcs]
    exact nodup_factors ts
  refine ⟨⟨cs, cs', hnodup, ?_, rfl, rfl⟩, hsimplify (.chain (constants_alike h)) hc hc'⟩
  have hchains : List.Forall₂ (fun (c : String × Expr ℚ) (e' : String × List (Expr ℚ)) =>
      c.1 = e'.1 ∧ ∃ e : Expr ℚ, e.Alike B.foreseen (chain e'.2) ∧
        e.simplify (some r) = .ok c.2) cs (factors ts').toList :=
    forall₂_of_common (chain_of_collect hcs) (factors_alike h) fun e c e' hc he =>
      ⟨hc.1.symm.trans he.1, chain e.2, .chain he.2, hc.2⟩
  refine forall₂_of_common hchains.flip (chain_of_collect hcs') fun e' c c' hc hc' => ?_
  obtain ⟨hname, e, he, hx⟩ := hc
  exact ⟨hname.trans hc'.1, hsimplify he hx hc'.2⟩

variable (hfamilies : B.FamiliesAgree)

include hfamilies

/-- The terms of an expression are alike, whatever has been evaluated before. -/
theorem affineTerms_agrees (he : e.Indexed) (env : Env ℚ) :
    Agrees B (List.Forall₂ (Term.Alike B.foreseen)) (affineTerms e env) (affineTerms e env) := by
  have hL := lookup_agrees hB.toKeyed hdata hfamilies (B.size + familyDepth)
  refine agrees_lookup ?_
  have hsubstitute : Agrees B (fun b b' => b = b' ∧ b.Reduced Env.empty ∧ b.Indexed)
      (e.substitute B.lookup env) (e.substitute B.lookup env) := by
    intro s t b b' s' t' hs ht hb hb'
    obtain ⟨hs', ht', rfl⟩ := exprSubstitute hL trivial e rfl hs ht hb hb'
    have hgives : (e.substitute (known (B.size + familyDepth)) env).Gives s'.registry b :=
      (exprSubstitute (lookup_keeps _) trivial e (.refl env) hs.tidy.toKeyed hb).2 (.refl _)
    have hsubst := substitute_sound hs'.tidy.toKeyed e hgives
    exact ⟨hs', ht', rfl, hsubst.reduced.mono (fun _ _ => rfl) b, hsubst.indexed he⟩
  refine hsubstitute.bind fun b b' hb => ?_
  obtain ⟨rfl, hreduced, hindexed⟩ := hb
  refine agrees_registry fun r t hr ht => ?_
  have hdexprs : r.dexprs = t.dexprs := by
    have hbase := congrArg Registry.dexprs (hr.current.base.trans ht.current.base.symm)
    exact hbase
  rw [hdexprs]
  exact terms_agrees hB hdata hfamilies (descent_terms_agrees hB hdata hfamilies _) b env
    hreduced hindexed (.num _)

/-- The linear form of an expression, but for what is dropped. -/
theorem linearize_agrees (he : e.Indexed) (env : Env ℚ) :
    Agrees B (fun f f' => CoefficientsAlike B.foreseen f.coefficients f'.coefficients ∧
      f.constant.Alike B.foreseen f'.constant) (linearize e env) (linearize e env) := by
  refine (affineTerms_agrees hB hdata hfamilies he env).bind fun ts ts' hts => ?_
  exact agrees_registry fun r t hr ht => agrees_ofExcept fun f f' hf hf' =>
    ofTerms_alike hB hdata hr ht hts hf hf'

end Linearization

end LinearModel
