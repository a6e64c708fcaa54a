import LinearModel.Proofs.NormalForm
import LinearModel.Proofs.Substitution

/-!
# Simplification keeps values

Simplification folds operations as evaluation would compute them, and puts the values of parameters
in their place, which are those that evaluation reads. There is one exception. A scalar parameter
may hold a second value, stored under the empty index, and a reference by that index is replaced by
it although it is evaluated to the first.

Coefficients are plain expressions: they are built from literals and parameters, and refer neither
to decision variables nor to decision expressions. Simplification keeps them plain.
-/
namespace LinearModel

open Run

namespace Expr

/-! ## Plain expressions -/

mutual
/-- An expression built from literals and parameters. -/
@[simp] def Plain {K : Type} : Expr K → Prop
  | .num _ | .str _ | .record _ _ | .name _ => True
  | .param _ es => es ≠ [] ∧ AllPlain es
  | .logic _ es => AllPlain es
  | .arith _ l r | .rel _ l r => Plain l ∧ Plain r
  | .neg e | .field e _ => Plain e
  | .var _ _ _ | .ivar _ _ | .dexpr _ _ | .item _ _ | .sum _ _ _ => False

/-- Expressions built from literals and parameters. -/
@[simp] def AllPlain {K : Type} : List (Expr K) → Prop
  | [] => True
  | e :: es => Plain e ∧ AllPlain es
end

section Congruence

variable {K : Type} [Scalar K] {L M : Lookup K} {a b : Env K} {es : List (Expr K)}

theorem elements_congr (h : ∀ e ∈ es, e.value L a = e.value M b) :
    elements L es a = elements M es b := by
  induction es with
  | nil => simp only [elements]
  | cons e es ih =>
    rw [List.forall_mem_cons] at h
    simp only [elements, h.1, ih h.2]

theorem firstTruth_congr (h : ∀ e ∈ es, e.value L a = e.value M b) :
    firstTruth L es a = firstTruth M es b := by
  cases es with
  | nil => simp only [firstTruth]
  | cons e es => simp only [firstTruth, h e List.mem_cons_self]

theorem allTrue_congr (h : ∀ e ∈ es, e.value L a = e.value M b) :
    allTrue L es a = allTrue M es b := by
  induction es with
  | nil => simp only [allTrue]
  | cons e es ih =>
    rw [List.forall_mem_cons] at h
    simp only [allTrue, h.1, ih h.2]

theorem anyTrue_congr (h : ∀ e ∈ es, e.value L a = e.value M b) :
    anyTrue L es a = anyTrue M es b := by
  induction es with
  | nil => simp only [anyTrue]
  | cons e es ih =>
    rw [List.forall_mem_cons] at h
    simp only [anyTrue, h.1, ih h.2]

mutual
/-- The value of a plain expression depends on the parameters only. -/
theorem Plain.value_eq (hLM : L.parameter = M.parameter) (ha : ∀ s, a.get? s = none)
    (hb : ∀ s, b.get? s = none) : ∀ e : Expr K, e.Plain → e.value L a = e.value M b
  | .num _, _ | .str _, _ | .record _ _, _ => by simp only [value]
  | .name s, _ => by simp only [value, ha, hb, hLM]
  | .param s es, h => by
    simp only [value, hLM, elements_congr (AllPlain.value_eq hLM ha hb es h.2)]
  | .arith op l r, h | .rel op l r, h => by
    simp only [value, Plain.value_eq hLM ha hb l h.1, Plain.value_eq hLM ha hb r h.2]
  | .neg e, h | .field e f, h => by
    simp only [value, Plain.value_eq hLM ha hb e h]
  | .logic .not es, h => by
    simp only [value, firstTruth_congr (AllPlain.value_eq hLM ha hb es h)]
  | .logic .and es, h => by
    simp only [value, allTrue_congr (AllPlain.value_eq hLM ha hb es h)]
  | .logic .or es, h => by
    simp only [value, anyTrue_congr (AllPlain.value_eq hLM ha hb es h)]
  | .var _ _ _, h | .ivar _ _, h | .dexpr _ _, h | .item _ _, h | .sum _ _ _, h => by
    simp only [Plain] at h

theorem AllPlain.value_eq (hLM : L.parameter = M.parameter) (ha : ∀ s, a.get? s = none)
    (hb : ∀ s, b.get? s = none) :
    ∀ es : List (Expr K), AllPlain es → ∀ e ∈ es, e.value L a = e.value M b
  | [], _ => List.forall_mem_nil _
  | e :: es, h => by
    exact List.forall_mem_cons.2
      ⟨Plain.value_eq hLM ha hb e h.1, AllPlain.value_eq hLM ha hb es h.2⟩
end

end Congruence

/-! ## Simplification keeps expressions plain -/

section Plain

variable {K : Type} [Scalar K] {e n l r : Expr K} {es ns : List (Expr K)} {R : Option (Registry K)}

omit [Scalar K] in
theorem plain_of_isLiteral (h : e.isLiteral = true) : e.Plain := by
  cases e with
  | num x | str s | record s vs => simp only [Plain]
  | _ => simp [isLiteral] at h

theorem plain_foldNeg (h : e.Plain) : (foldNeg e).Plain := by
  have hneg : (neg e).Plain := by simpa only [Plain] using h
  cases e with
  | num x => simp only [foldNeg, Plain]
  | neg e => simpa only [foldNeg, Plain] using h
  | _ => exact hneg

theorem plain_foldArith (op : ArithOp) (hl : l.Plain) (hr : r.Plain) :
    (foldArith op l r).Plain := by
  have hlr : (arith op l r).Plain := by
    exact ⟨hl, hr⟩
  obtain ⟨x, h⟩ | h | h | h | h := foldArith_cases op l r <;> rw [h]
  exacts [by simp only [Plain], hl, hr, plain_foldNeg hr, hlr]

omit [Scalar K] in
theorem allPlain_of_forall₂ (hes : AllPlain es)
    (h : List.Forall₂ (fun e n => e.Plain → n.Plain) es ns) : AllPlain ns := by
  induction h with
  | nil => exact hes
  | cons he _ ih =>
    exact ⟨he hes.1, ih hes.2⟩

theorem followsSimplify_plain : FollowsSimplify (K := K) fun _ e n => e.Plain → n.Plain where
  atom _ he := he
  name h he := by
    obtain hlit | ⟨rfl, _⟩ := foldName_cases h
    · exact plain_of_isLiteral hlit
    · exact he
  param hes h he := by
    obtain hlit | ⟨rfl, _⟩ := foldParam_cases h
    · exact plain_of_isLiteral hlit
    · simp only [Plain]
      refine ⟨List.length_pos_iff.1 ?_, allPlain_of_forall₂ he.2 hes⟩
      rw [← hes.length_eq]
      exact List.length_pos_iff.2 he.1
  arith hl hr he := by
    exact plain_foldArith _ (hl he.1) (hr he.2)
  neg he' he := by
    exact plain_foldNeg (he' he)
  rel hl hr h he := by
    obtain ⟨_, hlit⟩ | ⟨_, rfl⟩ := foldRel_cases h
    · exact plain_of_isLiteral hlit
    · simp only [Plain] at he ⊢
      exact ⟨hl he.1, hr he.2⟩
  logic hes h he := by
    obtain ⟨_, hlit⟩ | ⟨_, rfl⟩ := foldLogic_cases h
    · exact plain_of_isLiteral hlit
    · simp only [Plain] at he ⊢
      exact allPlain_of_forall₂ he hes
  field he' h he := by
    obtain ⟨_, hlit⟩ | ⟨_, rfl⟩ := foldField_cases h
    · exact plain_of_isLiteral hlit
    · simp only [Plain] at he ⊢
      exact he' he
  ivar _ he := by simp only [Plain] at he
  item _ he := by simp only [Plain] at he
  dexpr _ he := by simp only [Plain] at he
  sum _ he := by simp only [Plain] at he
  sumIf _ _ he := by simp only [Plain] at he

/-- Simplification of a plain expression gives a plain one. -/
theorem plain_simplify (R : Option (Registry K)) (e : Expr K) (he : e.Plain)
    (h : e.simplify R = .ok n) : n.Plain :=
  followsSimplify_plain.simplify e h he

end Plain

variable {r t : Registry ℚ} {R : Option (Registry ℚ)} {m : Nat} {a : Env ℚ} {e e' : Expr ℚ}
  {es es' : List (Expr ℚ)} {v : Value ℚ} {x : ℚ} {s : String} {idx : Index ℚ}

theorem refines_ofValue (h : ofValue v = .ok e')
    (he : ∀ w, (e.value (known m) a).Gives t w → w = v) : Refines t m a a e e' := by
  intro w hw
  obtain rfl := he w hw
  obtain ⟨u, hu, huw⟩ := ofValue_value h (known m) a
  exact ⟨u, by rw [hu]; exact gives_pure.2 rfl, huw⟩

/-! ## Arithmetic -/

theorem gives_number_num {x y : ℚ} : ((num x).number (known m) a).Gives t y ↔ x = y :=
  gives_pure

theorem gives_number_foldNeg (h : (e.number (known m) a).Gives t x) :
    ((foldNeg e).number (known m) a).Gives t (-x) := by
  have hneg : ((neg e).number (known m) a).Gives t (-x) :=
    gives_number.2 ⟨_, gives_value_neg.2 ⟨x, h, rfl⟩, rfl⟩
  cases e with
  | num y =>
    obtain rfl := gives_number_num.1 h
    exact gives_number_num.2 rfl
  | neg e =>
    obtain ⟨v, hv, hvx⟩ := gives_number.1 h
    obtain ⟨y, hy, rfl⟩ := gives_value_neg.1 hv
    obtain rfl : -y = x := by simpa [Value.scalar?] using hvx
    simpa only [foldNeg, neg_neg] using hy
  | _ => exact hneg

theorem refines_foldNeg (e : Expr ℚ) : Refines t m a a (.neg e) (foldNeg e) := by
  refine .of_number fun v hv => ?_
  obtain ⟨x, hx, rfl⟩ := gives_value_neg.1 hv
  exact ⟨-x, rfl, gives_number_foldNeg hx⟩

theorem eq_of_isNumber {c x : ℚ} (h : e.isNumber c = true)
    (hx : (e.number (known m) a).Gives t x) : x = c := by
  cases e with
  | num y =>
    obtain rfl := gives_number_num.1 hx
    simpa [isNumber] using h
  | _ => simp [isNumber] at h

theorem gives_number_foldArith (op : ArithOp) {l r : Expr ℚ} {x y : ℚ}
    (hx : (l.number (known m) a).Gives t x) (hy : (r.number (known m) a).Gives t y) :
    ((foldArith op l r).number (known m) a).Gives t (op.apply x y) := by
  have hxy : ((arith op l r).number (known m) a).Gives t (op.apply x y) :=
    gives_number.2 ⟨_, gives_value_arith.2 ⟨x, y, hx, hy, rfl⟩, rfl⟩
  unfold foldArith
  split
  · obtain rfl := gives_number_num.1 hx
    obtain rfl := gives_number_num.1 hy
    exact gives_number_num.2 rfl
  · cases op with
    | add =>
      dsimp only
      split_ifs with hl hr
      · rw [eq_of_isNumber hl hx]
        simpa using hy
      · rw [eq_of_isNumber hr hy]
        simpa using hx
      · exact hxy
    | sub =>
      dsimp only
      split_ifs with hr hl
      · rw [eq_of_isNumber hr hy]
        simpa using hx
      · rw [eq_of_isNumber hl hx]
        simpa using gives_number_foldNeg hy
      · exact hxy
    | mul =>
      dsimp only
      split_ifs with hzero hl hr
      · refine gives_number_num.2 ?_
        obtain hl | hr := Bool.or_eq_true_iff.1 hzero
        · rw [eq_of_isNumber hl hx]
          simp
        · rw [eq_of_isNumber hr hy]
          simp
      · rw [eq_of_isNumber hl hx]
        simpa using hy
      · rw [eq_of_isNumber hr hy]
        simpa using hx
      · exact hxy
    | div =>
      dsimp only
      split_ifs with hr
      · rw [eq_of_isNumber hr hy]
        simpa using hx
      · exact hxy

theorem refines_foldArith (op : ArithOp) (l r : Expr ℚ) :
    Refines t m a a (.arith op l r) (foldArith op l r) := by
  refine .of_number fun v hv => ?_
  obtain ⟨x, y, hx, hy, rfl⟩ := gives_value_arith.1 hv
  exact ⟨_, rfl, gives_number_foldArith op hx hy⟩

/-! ## Comparisons and connectives -/

theorem eq_literalValue (h : e.isLiteral = true)
    (hv : (e.value (known m) a).Gives t v) : v = e.literalValue := by
  cases e with
  | num x => exact (gives_value_num.1 hv).symm
  | str s => exact (gives_value_str.1 hv).symm
  | record s vs => exact (gives_value_record.1 hv).symm
  | _ => simp [isLiteral] at h

theorem refines_foldRel {op : RelOp} {l r : Expr ℚ} (h : foldRel op l r = .ok e') :
    Refines t m a a (.rel op l r) e' := by
  unfold foldRel at h
  split at h
  · rename_i hlit
    obtain ⟨hl, hr⟩ := Bool.and_eq_true_iff.1 hlit
    refine .of_number fun v hv => ?_
    obtain ⟨x, y, c, hx, hy, hc, rfl⟩ := gives_value_rel.1 hv
    rw [eq_literalValue hl hx, eq_literalValue hr hy] at hc
    obtain rfl : num (Scalar.ofBool c) = e' := by simpa [hc, Except.map] using h
    exact ⟨_, rfl, gives_number_num.2 rfl⟩
  · cases h
    exact .refl _

theorem isTrue_eq_isTrueNum (h : e.isNum = true)
    (hx : (e.number (known m) a).Gives t x) : Scalar.isTrue x = e.isTrueNum := by
  cases e with
  | num y =>
    obtain rfl := gives_number_num.1 hx
    rfl
  | _ => simp [isNum] at h

theorem allTrue_eq_all (h : es.all isNum = true) {c : Bool}
    (hc : (allTrue (known m) es a).Gives t c) : c = es.all isTrueNum := by
  induction es with
  | nil => exact (gives_pure.1 hc).symm
  | cons e es ih =>
    obtain ⟨he, hes⟩ : e.isNum = true ∧ es.all isNum = true := by simpa using h
    obtain ⟨x, hx, hc⟩ := gives_allTrue_cons.1 hc
    rw [isTrue_eq_isTrueNum he hx] at hc
    obtain ⟨htrue, hc⟩ | ⟨hfalse, rfl⟩ := hc
    · rw [ih hes hc, List.all_cons, htrue, Bool.true_and]
    · rw [List.all_cons, hfalse, Bool.false_and]

theorem anyTrue_eq_any (h : es.all isNum = true) {c : Bool}
    (hc : (anyTrue (known m) es a).Gives t c) : c = es.any isTrueNum := by
  induction es with
  | nil => exact (gives_pure.1 hc).symm
  | cons e es ih =>
    obtain ⟨he, hes⟩ : e.isNum = true ∧ es.all isNum = true := by simpa using h
    obtain ⟨x, hx, hc⟩ := gives_anyTrue_cons.1 hc
    rw [isTrue_eq_isTrueNum he hx] at hc
    obtain ⟨htrue, rfl⟩ | ⟨hfalse, hc⟩ := hc
    · rw [List.any_cons, htrue, Bool.true_or]
    · rw [ih hes hc, List.any_cons, hfalse, Bool.false_or]

theorem refines_foldLogic {op : LogicOp} (h : foldLogic op es = .ok e') :
    Refines t m a a (.logic op es) e' := by
  unfold foldLogic at h
  split at h
  · rename_i hnum
    refine .of_number fun v hv => ?_
    split at h
    · cases h
    · cases h
      obtain ⟨c, hc, rfl⟩ := gives_value_not.1 hv
      obtain ⟨hnil, _⟩ | ⟨_, _, x, hes, hx, hcx⟩ := gives_firstTruth.1 hc
      · cases hnil
      · cases hes
        have hfirst := (List.all_eq_true.1 hnum) _ List.mem_cons_self
        rw [isTrue_eq_isTrueNum hfirst hx, Option.some.injEq] at hcx
        subst hcx
        exact ⟨_, rfl, gives_number_num.2 rfl⟩
    · cases h
      obtain ⟨c, hc, rfl⟩ := gives_value_and.1 hv
      obtain rfl := allTrue_eq_all hnum hc
      exact ⟨_, rfl, gives_number_num.2 rfl⟩
    · cases h
      obtain ⟨c, hc, rfl⟩ := gives_value_or.1 hv
      obtain rfl := anyTrue_eq_any hnum hc
      exact ⟨_, rfl, gives_number_num.2 rfl⟩
  · cases h
    exact .refl _

/-! ## Parameters and fields -/

theorem gives_parameter (h : ((known m).parameter s idx).Gives t v) :
    ∃ p, t.params.find? s = some p ∧ p.isSettled = true ∧ p.get idx = .ok v := by
  cases m with
  | zero => exact absurd h not_gives_fail
  | succ m =>
    obtain ⟨_, htr, h⟩ := (gives_bind steady_registry fun r' => by
      cases r'.params.find? s with
      | none => exact steady_fail _
      | some p =>
        dsimp only
        split_ifs
        exacts [steady_ofExcept _, steady_fail _]).1 h
    obtain rfl := gives_registry.1 htr
    cases hp : t.params.find? s with
    | none => simp [hp] at h
    | some p =>
      simp only [hp] at h
      split_ifs at h with hsettled
      · exact ⟨p, rfl, hsettled, gives_ofExcept.1 h⟩
      · exact absurd h not_gives_fail

/-- A parameter that holds something holds what evaluation reads. -/
theorem get_of_gives_parameter (hr : r.Tidy) (hrt : r.KeptIn t) {p : Parameter ℚ}
    (hp : r.params.find? s = some p) (hheld : p.value ≠ none ∨ p.values ≠ Table.empty)
    (h : ((known m).parameter s idx).Gives t v) : p.get idx = .ok v := by
  obtain ⟨q, hq, _, hget⟩ := gives_parameter h
  obtain ⟨q', hq', hpq⟩ := hrt.params.find hp
  obtain rfl : q' = q := Option.some.inj (hq'.symm.trans hq)
  cases hsettled : p.isSettled with
  | true => rwa [hpq.settled hsettled] at hget
  | false =>
    obtain ⟨hvalue, hvalues⟩ := hr.unsettled hp hsettled
    exact absurd hheld (by simp [hvalue, hvalues])

/-- A registry, if there is one, whose parameters are read in a later registry and hidden by no
binding. -/
structure Reads (R : Option (Registry ℚ)) (t : Registry ℚ) (a : Env ℚ) : Prop where
  tidy : ∀ {r}, R = some r → r.Tidy
  kept : ∀ {r}, R = some r → r.KeptIn t
  free : ∀ {r s}, R = some r → r.params.contains s = true → a.get? s = none

theorem Reads.of_none (t : Registry ℚ) (a : Env ℚ) : Reads none t a := ⟨nofun, nofun, nofun⟩

theorem Reads.of_some (hr : r.Tidy) (hrt : r.KeptIn t)
    (ha : ∀ s, r.params.contains s = true → a.get? s = none) : Reads (some r) t a where
  tidy h := Option.some.inj h ▸ hr
  kept h := Option.some.inj h ▸ hrt
  free {_ s} h hs := ha s (Option.some.inj h ▸ hs)

theorem refines_foldName (hR : Reads R t a) (h : foldName R s = .ok e') :
    Refines t m a a (.name s) e' := by
  rw [foldName_eq] at h
  cases hv : heldValue? R s with
  | none =>
    rw [hv] at h
    cases h
    exact .refl _
  | some v =>
    rw [hv] at h
    obtain ⟨r, p, hr, hp, hindexed, hvalue⟩ := heldValue?_eq_some.1 hv
    refine refines_ofValue h fun w hw => ?_
    have hfree := hR.free (s := s) hr (by simp [Table.contains, hp])
    have hget := get_of_gives_parameter (hR.tidy hr) (hR.kept hr) hp (.inl (by simp [hvalue]))
      ((gives_value_name hfree).1 hw).2
    simpa [Parameter.get, hindexed, hvalue] using hget.symm

theorem elements_eq_literalValues (h : es.all isLiteral = true)
    (hidx : (elements (known m) es a).Gives t idx) :
    idx = es.map fun e => e.literalValue.normalize := by
  induction es generalizing idx with
  | nil => exact (gives_elements_nil.1 hidx).symm
  | cons e es ih =>
    obtain ⟨he, hes⟩ : e.isLiteral = true ∧ es.all isLiteral = true := by simpa using h
    obtain ⟨w, ws, hw, hws, rfl⟩ := gives_elements_cons.1 hidx
    rw [eq_literalValue he hw, ih hes hws, List.map_cons]

theorem refines_foldParam (hR : Reads R t a)
    (hempty : es = [] → entryValue? R s [] = none) (h : foldParam R s es = .ok e') :
    Refines t m a a (.param s es) e' := by
  rw [foldParam_eq] at h
  cases hv : entryValue? R s es with
  | none =>
    rw [hv] at h
    cases h
    exact .refl _
  | some v =>
    rw [hv] at h
    have hne : es ≠ [] := by
      rintro rfl
      rw [hempty rfl] at hv
      cases hv
    obtain ⟨r, p, hr, hp, hlit, hdim, hentry⟩ := entryValue?_eq_some.1 hv
    refine refines_ofValue h fun w hw => ?_
    obtain ⟨idx, hidx, hw⟩ := gives_value_param.1 hw
    obtain rfl := elements_eq_literalValues hlit hidx
    have hget := get_of_gives_parameter (hR.tidy hr) (hR.kept hr) hp (.inr fun hnone => by
      simp [hnone] at hentry) hw
    -- the index is not empty, so evaluation reads the value stored there
    simp only [Parameter.get, List.isEmpty_iff, List.map_eq_nil_iff, hne, ↓reduceIte,
      List.length_map, List.map_map, Function.comp_def, Value.normalize_normalize, hentry] at hget
    split_ifs at hget
    exact (Except.ok.inj hget).symm

theorem refines_foldField {f : String} (h : foldField e f = .ok e') :
    Refines t m a a (.field e f) e' := by
  cases e with
  | record s vs =>
    obtain ⟨v, hv, hofv⟩ := bind_eq_ok.1 h
    refine refines_ofValue hofv fun w hw => ?_
    obtain ⟨s', vs', hrecord, hw⟩ := gives_value_field.1 hw
    obtain ⟨rfl, rfl⟩ : s = s' ∧ vs = vs' := by simpa using gives_value_record.1 hrecord
    exact Except.ok.inj (hw.symm.trans hv)
  | _ =>
    cases h
    exact .refl _

/-! ## Simplification -/

mutual
/-- The parameters that simplification may replace by what is stored under the empty index. Inside a
sum it replaces none. -/
def scalarEntries {K : Type} : Expr K → List String
  | .num _ | .str _ | .record _ _ | .name _ | .var _ _ _ | .dexpr _ none | .sum _ _ _ => []
  | .param s [] => [s]
  | .param _ es | .ivar _ es | .item _ es | .logic _ es => allScalarEntries es
  | .dexpr _ (some e) | .neg e | .field e _ => scalarEntries e
  | .arith _ l r | .rel _ l r => scalarEntries l ++ scalarEntries r

/-- The parameters that simplification may replace by what is stored under the empty index. -/
def allScalarEntries {K : Type} : List (Expr K) → List String
  | [] => []
  | e :: es => scalarEntries e ++ allScalarEntries es
end

/-- No parameter that is referred to by the empty index holds a value under it. -/
def Unambiguous (R : Option (Registry ℚ)) (symbols : List String) : Prop :=
  ∀ s ∈ symbols, entryValue? R s [] = none

mutual
theorem Plain.scalarEntries_eq_nil {K : Type} : ∀ e : Expr K, e.Plain → e.scalarEntries = []
  | .num _, _ | .str _, _ | .record _ _, _ | .name _, _ => by simp only [scalarEntries]
  | .param _ [], h => by simp [Plain] at h
  | .param _ (e :: es), h => by
    simp only [scalarEntries, AllPlain.allScalarEntries_eq_nil (e :: es) h.2]
  | .logic _ es, h => by
    simp only [scalarEntries, AllPlain.allScalarEntries_eq_nil es h]
  | .arith _ l r, h | .rel _ l r, h => by
    simp only [scalarEntries, Plain.scalarEntries_eq_nil l h.1, Plain.scalarEntries_eq_nil r h.2,
      List.append_nil]
  | .neg e, h | .field e _, h => by
    simp only [scalarEntries, Plain.scalarEntries_eq_nil e h]
  | .var _ _ _, h | .ivar _ _, h | .dexpr _ _, h | .item _ _, h | .sum _ _ _, h => by
    simp only [Plain] at h

theorem AllPlain.allScalarEntries_eq_nil {K : Type} : ∀ es : List (Expr K), AllPlain es →
    allScalarEntries es = []
  | [], _ => by simp only [allScalarEntries]
  | e :: es, h => by
    simp only [allScalarEntries, Plain.scalarEntries_eq_nil e h.1,
      AllPlain.allScalarEntries_eq_nil es h.2, List.append_nil]
end

theorem refines_of_forall₂ (hR : Reads R t a) (hes : Unambiguous R (allScalarEntries es))
    (h : List.Forall₂ (fun e n => ∀ {a}, Reads R t a → Unambiguous R e.scalarEntries →
      Refines t m a a e n) es es') : List.Forall₂ (Refines t m a a) es es' := by
  induction h with
  | nil => exact .nil
  | cons he _ ih =>
    simp only [allScalarEntries, Unambiguous, List.forall_mem_append] at hes
    exact .cons (he hR hes.1) (ih hes.2)

theorem followsSimplify_refines : FollowsSimplify fun R e n =>
    ∀ {a}, Reads R t a → Unambiguous R e.scalarEntries → Refines t m a a e n where
  atom _ _ _ _ := .refl _
  name h _ hR _ := refines_foldName hR h
  param {R s es ns n} hes h _ hR he := by
    cases hes with
    | nil =>
      simp only [scalarEntries, Unambiguous, List.forall_mem_singleton] at he
      exact refines_foldParam hR (fun _ => he) h
    | cons hn hns =>
      exact (Refines.param s (refines_of_forall₂ hR he (.cons hn hns))).trans
        (refines_foldParam hR (by simp) h)
  ivar hes _ hR he := by
    exact .ivar _ rfl (refines_of_forall₂ hR he hes)
  item hes _ hR he := by
    exact .item _ (refines_of_forall₂ hR he hes)
  dexpr hn _ hR he := by
    -- the index is evaluated inside, where the same names are bound
    refine .dexpr _ rfl fun {inside inside'} hin hin' => ?_
    obtain rfl : inside = inside' := Except.ok.inj (hin.symm.trans hin')
    exact hn ⟨hR.tidy, hR.kept, fun hr hs => (Env.get?_enter hin _).trans (hR.free hr hs)⟩ he
  arith hl hr _ hR he := by
    simp only [scalarEntries, Unambiguous, List.forall_mem_append] at he
    exact (Refines.arith _ (hl hR he.1) (hr hR he.2)).trans (refines_foldArith _ _ _)
  neg hn _ hR he := by
    exact (Refines.neg (hn hR he)).trans (refines_foldNeg _)
  rel hl hr h _ hR he := by
    simp only [scalarEntries, Unambiguous, List.forall_mem_append] at he
    exact (Refines.rel _ (hl hR he.1) (hr hR he.2)).trans (refines_foldRel h)
  logic hes h _ hR he := by
    exact (Refines.logic _ (refines_of_forall₂ hR he hes)).trans (refines_foldLogic h)
  field hn h _ hR he := by
    exact (Refines.field _ (hn hR he)).trans (refines_foldField h)
  sum hbody _ _ _ := .sum (fun inner => hbody (.of_none t inner) fun _ _ => rfl) fun _ => .none
  sumIf hbody hc _ _ _ := .sum (fun inner => hbody (.of_none t inner) fun _ _ => rfl)
    fun inner => .some (hc (.of_none t inner) fun _ _ => rfl)

/-- A simplified expression has the value of the one that it was simplified from. -/
theorem refines_simplify (e : Expr ℚ) {n : Expr ℚ} (hR : Reads R t a)
    (he : Unambiguous R e.scalarEntries) (h : e.simplify R = .ok n) : Refines t m a a e n :=
  followsSimplify_refines.simplify e h hR he

theorem Plain.refines_simplify (hr : r.Tidy) (hrt : r.KeptIn t) (ha : ∀ s, a.get? s = none)
    (he : e.Plain) (h : e.simplify (some r) = .ok e') : Refines t m a a e e' :=
  Expr.refines_simplify e (.of_some hr hrt fun s _ => ha s)
    (by simp [Unambiguous, he.scalarEntries_eq_nil]) h

end Expr

end LinearModel
