import LinearModel.Proofs.Folding
import LinearModel.Proofs.Histories

/-!
# Foresight

The registries that are up to date for some declarations hold more or fewer values of parameters,
but never different ones. So there is one table of all values that any of them will ever hold. Two
expressions that fold to the same with these values are alike: they evaluate to the same number,
each in a registry of its own.
-/
namespace LinearModel

open Run Expr Env

/-! ## Carrying evaluation from one registry to another -/

/-- What the first computation returns without changing one registry, the second one returns without
changing another. -/
def Simulation.carrying {K : Type} [Scalar K] {t u : Registry K} (h : t.SameDeclarations u) :
    Simulation K where
  rel x y := ∀ ⦃w a s'⦄, x.Returns ⟨t, w⟩ a s' → s'.registry = t ∧ y.Gives u a
  sees := Eq
  like r r' := r = t ∧ r' = u
  isOpen := True
  ret a := by
    intro w b s' hb
    obtain ⟨rfl, rfl⟩ := returns_pure.1 hb
    exact ⟨rfl, gives_pure.2 rfl⟩
  seq hxy hfg := by
    intro w b s' hb
    obtain ⟨a, s₁, hx, hf⟩ := returns_bind.1 hb
    obtain ⟨rfl, hy⟩ := hxy hx
    obtain ⟨hs', hg⟩ := hfg a hf
    exact ⟨hs', hy.bind hg⟩
  failure c := fun _ _ _ hfail => absurd hfail not_returns_fail
  warning m := by
    intro w a s' hw
    obtain rfl := returns_warn.1 hw
    exact ⟨rfl, gives_warn m u⟩
  declarations hfg := by
    intro w b s' hb
    have hf := returns_registry_bind.1 hb
    obtain ⟨hs', hg⟩ := hfg _ u ⟨rfl, rfl⟩ hf
    exact ⟨hs', (gives_registry.2 rfl).bind hg⟩
  params := by
    rintro r r' ⟨rfl, rfl⟩ s
    exact .inl (h.params s)
  tupleSets := by
    rintro r r' ⟨rfl, rfl⟩ s
    exact .inl (by rw [h.tupleSets])
  vars := by
    rintro _ r r' ⟨rfl, rfl⟩
    exact h.vars
  dexprs := by
    rintro _ r r' ⟨rfl, rfl⟩
    exact h.dexprs
  binding := @get?_of_eq K
  depth := @depth_of_eq K
  bound := @bind_of_eq K
  spawn := @spawn_of_eq K True
  assigned _ a b n hab := by
    subst hab
    intro w x s' hx
    obtain ⟨hvalue, rfl⟩ := returns_ofExcept.1 hx
    exact ⟨rfl, gives_ofExcept.2 hvalue⟩
  enter _ _ a b f g s hab hfg := by
    subst hab
    intro w x s' hx
    obtain ⟨a', s₁, hentered, hf⟩ := returns_bind.1 hx
    obtain ⟨ha, rfl⟩ := returns_ofExcept.1 hentered
    obtain ⟨hs', hg⟩ := hfg ha rfl hf
    exact ⟨hs', (gives_ofExcept.2 ha).bind hg⟩

/-- The lookup of the values that parameters hold, and of nothing else. -/
def settled {K : Type} [Scalar K] : Lookup K where
  parameter := settledValue
  elements _ _ _ := Run.fail .endless
  body _ _ := Run.fail .endless

/-- What a plain expression is worth, it is worth where parameters hold at least the same values. -/
theorem Expr.IsWorth.carry {t u : Registry ℚ} {e : Expr ℚ} {x : ℚ} (h : e.IsWorth t x)
    (htu : t.SameDeclarations u) (hvalues : t.Foretold u.params) : e.IsWorth u x where
  plain := h.plain
  number := by
    have hparameter : ∀ s idx, (Simulation.carrying htu).rel (settledValue s idx)
        (settledValue s idx) := by
      intro s idx w v s' hv
      simp only [settledValue, returns_bind, returns_registry] at hv
      obtain ⟨r, _, ⟨rfl, rfl⟩, hv⟩ := hv
      cases hp : t.params.find? s with
      | none => simp [hp] at hv
      | some p =>
        simp only [hp] at hv
        split at hv
        · rename_i hsettled
          obtain ⟨hget, rfl⟩ := returns_ofExcept.1 hv
          refine ⟨rfl, (gives_registry.2 rfl).bind ?_⟩
          simp [hvalues hp hsettled, hsettled, hget]
        · exact absurd hv not_returns_fail
    have hlookups : (Simulation.carrying htu).Lookups settled settled :=
      ⟨hparameter, fun _ _ _ _ _ _ hfail => absurd hfail not_returns_fail,
        fun _ _ _ _ _ _ _ _ hfail => absurd hfail not_returns_fail⟩
    have hsame : e.value (known 1) empty = e.value settled empty :=
      Plain.value_eq (L := known 1) (M := settled) rfl (fun _ => rfl) (fun _ => rfl) e h.plain
    have hnumber := h.number
    rw [Expr.number, hsame] at hnumber ⊢
    obtain ⟨w, hw⟩ := hnumber []
    exact (Simulation.exprNumber hlookups e rfl (.inl trivial) hw).2

/-! ## The values that parameters will have -/

namespace Registry

open Classical in
/-- The parameters as they stand in the registries that hold their values, as far as there are
any. -/
noncomputable def foreseen (B : Registry ℚ) : Table String (Parameter ℚ) :=
  B.params.map fun p =>
    if h : ∃ q : Parameter ℚ, q.isSettled = true ∧
        ∃ r : Registry ℚ, r.UpToDate B ∧ r.params.find? p.symbol = some q
    then h.choose else p

/-- The registry in which all parameters have the values that they will have. -/
noncomputable def foreseeing (B : Registry ℚ) : Registry ℚ := { B with params := B.foreseen }

variable {B r : Registry ℚ}

theorem find?_foreseen {s : String} {q : Parameter ℚ} (hB : B.Keyed)
    (h : B.foreseen.find? s = some q) :
    B.params.find? s = some q ∨ q.isSettled = true ∧ q.symbol = s := by
  simp only [foreseen, Table.find?_map, Option.map_eq_some_iff] at h
  obtain ⟨p, hp, rfl⟩ := h
  split
  · rename_i hex
    obtain ⟨hsettled, r, hr, hfound⟩ := hex.choose_spec
    exact .inr ⟨hsettled, (hr.tidy.params hfound).trans (hB.params hp)⟩
  · exact .inl hp

theorem tidy_foreseeing (hB : B.Tidy) : B.foreseeing.Tidy where
  params {s q} hq := by
    obtain hq | ⟨_, hsymbol⟩ := find?_foreseen hB.toKeyed hq
    exacts [hB.params hq, hsymbol]
  boundRanges := hB.boundRanges
  computedSets := hB.computedSets
  unsettled {s q} hq hopen := by
    obtain hq | ⟨hsettled, _⟩ := find?_foreseen hB.toKeyed hq
    · exact hB.unsettled hq hopen
    · simp [hsettled] at hopen

theorem UpToDate.sameDeclarations (h : r.UpToDate B) : r.SameDeclarations B.foreseeing where
  vars := by
    have hvars := congrArg Registry.vars h.current.base
    exact hvars
  dexprs := by
    have hdexprs := congrArg Registry.dexprs h.current.base
    exact hdexprs
  tupleSets := h.current.sameSight.tupleSets.symm
  params s := by
    rw [← h.current.sameSight.params s]
    simp [Table.contains, foreseeing, foreseen, Table.find?_map]

/-- A registry that is up to date holds values that were foreseen. -/
theorem UpToDate.foretold (hB : B.Keyed) (hdata : B.IsData) (h : r.UpToDate B) :
    r.Foretold B.foreseen := by
  intro s q hq hsettled
  obtain ⟨p, hp⟩ : ∃ p, B.params.find? s = some p := by
    rw [← h.current.base, find?_params_invalidate, hq]
    exact ⟨_, rfl⟩
  obtain rfl := hB.params hp
  have hex : ∃ q : Parameter ℚ, q.isSettled = true ∧
      ∃ r : Registry ℚ, r.UpToDate B ∧ r.params.find? p.symbol = some q := ⟨q, hsettled, r, h, hq⟩
  obtain ⟨hchosen, t, ht, hfound⟩ := hex.choose_spec
  have hsame : hex.choose = q := by
    have hother := ht.current.params hfound hchosen
    exact Except.ok.inj (hother.unique hB hdata (h.current.params hq hsettled) trivial)
  simp only [foreseen, Table.find?_map, hp, Option.map_some, dif_pos hex, hsame]

end Registry

/-! ## Expressions that are alike -/

/-- Plain expressions that fold to the same with the given values of parameters. -/
structure Expr.Alike (ps : Table String (Parameter ℚ)) (e e' : Expr ℚ) : Prop where
  left : e.Plain
  right : e'.Plain
  folded : e.folded ps = e'.folded ps

namespace Expr.Alike

variable {ps : Table String (Parameter ℚ)} {e e' f f' : Expr ℚ}

theorem refl (h : e.Plain) : e.Alike ps e := ⟨h, h, rfl⟩

theorem num (x : ℚ) : (Expr.num x).Alike ps (.num x) := refl (by simp only [Plain])

theorem neg (h : e.Alike ps e') : (Expr.neg e).Alike ps (.neg e') where
  left := by
    simp only [Plain]
    exact h.left
  right := by
    exact h.right
  folded := by rw [Expr.folded, Expr.folded, h.folded]

theorem arith (op : ArithOp) (he : e.Alike ps e') (hf : f.Alike ps f') :
    (arith op e f).Alike ps (.arith op e' f') where
  left := by
    simp only [Plain]
    exact ⟨he.left, hf.left⟩
  right := by
    exact ⟨he.right, hf.right⟩
  folded := by rw [Expr.folded, Expr.folded, he.folded, hf.folded]

theorem chain {es es' : List (Expr ℚ)} (h : List.Forall₂ (Alike ps) es es') :
    (chain es).Alike ps (chain es') := by
  have hfold : ∀ {es es' : List (Expr ℚ)}, List.Forall₂ (Alike ps) es es' →
      ∀ {e e' : Expr ℚ}, e.Alike ps e' →
        (es.foldl (.arith .add) e).Alike ps (es'.foldl (.arith .add) e') := by
    intro es es' h
    induction h with
    | nil => exact fun he => he
    | cons hf _ ih => exact fun he => ih (he.arith .add hf)
  cases h with
  | nil => exact num _
  | cons he hes => exact hfold hes he

/-- Expressions that are alike stay so if each is simplified by a registry of its own. -/
theorem simplify {r r' : Registry ℚ} (h : e.Alike ps e') (hr : r.Tidy) (hps : r.Foretold ps)
    (hr' : r'.Tidy) (hps' : r'.Foretold ps) (hf : e.simplify (some r) = .ok f)
    (hf' : e'.simplify (some r') = .ok f') : f.Alike ps f' where
  left := plain_simplify (some r) e h.left hf
  right := plain_simplify (some r') e' h.right hf'
  folded := by
    rw [folded_simplify hr hps e h.left hf, folded_simplify hr' hps' e' h.right hf', h.folded]

end Expr.Alike

section Evaluation

variable {B : Registry ℚ} {e e' : Expr ℚ} {x x' : ℚ}

/-- What an expression evaluates to, it folds to. -/
theorem Expr.Plain.isWorth_folded (hB : B.Tidy) (hdata : B.IsData) {u v : Store ℚ}
    (hu : u.registry.UpToDate B) (hv : v.registry.UpToDate B) (he : e.Plain)
    (h : (e.evaluate empty).Returns u x v) :
    ((e.folded B.foreseen).number (known 1) empty).Gives B.foreseeing x := by
  have hgives : (e.evaluate empty).Gives v.registry x :=
    (evaluate_keeps e empty hu.tidy.toKeyed h).2 (.refl _)
  rw [gives_evaluate _ _ hv.tidy.toKeyed] at hgives
  have hworth := IsWorth.of_number hv.tidy.toKeyed he (fun _ => rfl) hgives
  have hcarried := hworth.carry hv.sameDeclarations (hv.foretold hB.toKeyed hdata)
  have hreads := Reads.of_some (Registry.tidy_foreseeing hB) (.refl _)
    (a := empty) fun _ _ => rfl
  exact (refines_folded hreads e he).number hcarried.number

/-- Expressions that are alike evaluate to the same number, where they evaluate. -/
theorem Expr.Alike.evaluate_eq (hB : B.Tidy) (hdata : B.IsData) {u u' v v' : Store ℚ}
    (h : e.Alike B.foreseen e') (hu : u.registry.UpToDate B) (hv : v.registry.UpToDate B)
    (hu' : u'.registry.UpToDate B) (hv' : v'.registry.UpToDate B)
    (hx : (e.evaluate empty).Returns u x v) (hx' : (e'.evaluate empty).Returns u' x' v') :
    x = x' := by
  have hworth := h.left.isWorth_folded hB hdata hu hv hx
  rw [h.folded] at hworth
  exact hworth.unique (h.right.isWorth_folded hB hdata hu' hv' hx')

end Evaluation

end LinearModel
