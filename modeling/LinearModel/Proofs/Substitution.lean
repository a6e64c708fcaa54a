import LinearModel.Proofs.Refinement

/-!
# Substitution keeps values

After substitution an expression holds no sums, no indexed variables and no record lookups, and
its names are those that the environment leaves unbound. Such an expression can be evaluated
without any bindings, and to the same element as the one it came from.
-/
namespace LinearModel

open Run Env

namespace Expr

/-! ## Reduced expressions -/

section Reduced

variable {K : Type}

mutual
/-- An expression into which the bindings of an environment have been substituted. -/
@[simp] def Reduced (a : Env K) : Expr K → Prop
  | .num _ | .str _ | .record _ _ | .var _ _ _ | .dexpr _ none => True
  | .name s => a.get? s = none
  | .param _ es | .logic _ es => AllReduced a es
  | .dexpr _ (some e) | .neg e | .field e _ => Reduced a e
  | .arith _ l r | .rel _ l r => Reduced a l ∧ Reduced a r
  | .ivar _ _ | .item _ _ | .sum _ _ _ => False

/-- Expressions into which the bindings of an environment have been substituted. -/
@[simp] def AllReduced (a : Env K) : List (Expr K) → Prop
  | [] => True
  | e :: es => Reduced a e ∧ AllReduced a es
end

mutual
/-- Whether every parameter that may enter a coefficient by an index has one. Indices of variables,
keys of records and indices of decision expressions are evaluated and enter none. -/
@[simp] def Indexed : Expr K → Prop
  | .num _ | .str _ | .record _ _ | .name _ | .var _ _ _ => True
  | .ivar _ _ | .dexpr _ _ | .item _ _ => True
  | .param _ es => es ≠ [] ∧ AllIndexed es
  | .logic _ es => AllIndexed es
  | .arith _ l r | .rel _ l r => Indexed l ∧ Indexed r
  | .neg e | .field e _ | .sum _ e _ => Indexed e

/-- Whether every parameter that may enter a coefficient by an index has one. -/
@[simp] def AllIndexed : List (Expr K) → Prop
  | [] => True
  | e :: es => Indexed e ∧ AllIndexed es
end

variable {a b : Env K}

mutual
/-- What is unbound in one environment is enough. -/
theorem Reduced.mono (h : ∀ s, a.get? s = none → b.get? s = none) :
    ∀ e : Expr K, e.Reduced a → e.Reduced b
  | .num _, _ | .str _, _ | .record _ _, _ | .var _ _ _, _ | .dexpr _ none, _ => by
    simp only [Reduced]
  | .name s, he => by
    exact h s he
  | .param _ es, he | .logic _ es, he => by
    exact AllReduced.mono h es he
  | .dexpr _ (some e), he | .neg e, he | .field e _, he => by
    exact Reduced.mono h e he
  | .arith _ l r, he | .rel _ l r, he => by
    exact ⟨Reduced.mono h l he.1, Reduced.mono h r he.2⟩
  | .ivar _ _, he | .item _ _, he | .sum _ _ _, he => by
    simp only [Reduced] at he

theorem AllReduced.mono (h : ∀ s, a.get? s = none → b.get? s = none) :
    ∀ es : List (Expr K), AllReduced a es → AllReduced b es
  | [], _ => by simp only [AllReduced]
  | e :: es, he => by
    exact ⟨Reduced.mono h e he.1, AllReduced.mono h es he.2⟩
end

end Reduced

end Expr

/-- A registry whose decision expressions refer to parameters by proper indices. -/
def Registry.WellIndexed {K : Type} (t : Registry K) : Prop :=
  ∀ {s d}, t.dexprs.find? s = some d → d.body.Indexed

variable {K : Type} {s : String}

theorem Env.get?_eq_none_of_suffix {a : Env K} {f : List (String × Value K)}
    (h : a.frames <:+ f) (hs : ({ a with frames := f } : Env K).get? s = none) :
    a.get? s = none := by
  obtain ⟨inner, rfl⟩ := h
  simp only [Env.get?, Option.map_eq_none_iff, List.find?_append, Option.or_eq_none_iff] at hs ⊢
  exact hs.2

theorem Env.get?_enter {a inside : Env K} (h : a.enter s = .ok inside)
    (u : String) : inside.get? u = a.get? u := by
  simp only [enter] at h
  split at h
  · cases h
  · cases h
    rfl

theorem Env.enter_spawn {a inside : Env K} (h : a.enter s = .ok inside) :
    a.spawn.enter s = .ok inside.spawn := by
  simp only [enter, spawn] at h ⊢
  split at h
  · cases h
  · rename_i hs
    cases h
    simp only [hs]
    rfl

theorem Env.below_enter {a b inside : Env K} (hab : a.Below b)
    (h : a.enter s = .ok inside) : inside.Below b := by
  simp only [enter] at h
  split at h
  · cases h
  · cases h
    exact ⟨hab.frames, hab.values, fun u hu => List.mem_append_left _ (hab.active u hu)⟩

namespace Expr

variable {t : Registry ℚ} {m : Nat}

/-! ## Bindings do not matter to a reduced expression -/

mutual
/-- A reduced expression has the same value wherever no parameter is hidden by a binding. -/
theorem Reduced.refines : ∀ (e : Expr ℚ) {a b : Env ℚ}, e.Reduced a → a.spawn = b.spawn →
    (∀ s, t.params.contains s = true → b.get? s = none) → Refines t m a b e e
  | .num _, _, _, _, _, _ | .str _, _, _, _, _, _ | .record _ _, _, _, _, _, _ =>
    fun v hv => ⟨v, by simpa using hv, .refl v⟩
  | .var n _ _, a, b, _, hab, _ => fun v hv => by
    have hvalues : a.values = b.values := (Env.mk.inj hab).2.1
    refine ⟨v, ?_, .refl v⟩
    simpa [variableValue, hvalues] using hv
  | .name s, a, b, ha, _, hb => fun v hv => by
    have hparam := (gives_value_name ha).1 hv
    exact ⟨v, (gives_value_name (hb s hparam.1)).2 hparam, .refl v⟩
  | .param s es, _, _, ha, hab, hb => by
    exact .param s (AllReduced.refines es ha hab hb)
  | .dexpr s none, _, _, _, hab, _ => .dexpr_none s hab
  | .dexpr s (some e), a, b, ha, hab, hb => by
    refine .dexpr s hab fun {inside inside'} hin hin' => ?_
    obtain ⟨i, hi, hspawn⟩ := enter_of_spawn hab hin
    obtain rfl : i = inside' := Except.ok.inj (hi.symm.trans hin')
    refine Reduced.refines e (ha.mono (fun u hu => ?_) e) hspawn fun u hu => ?_
    · rw [get?_enter hin]
      exact hu
    · rw [get?_enter hin']
      exact hb u hu
  | .arith op l r, _, _, ha, hab, hb => by
    exact .arith op (Reduced.refines l ha.1 hab hb) (Reduced.refines r ha.2 hab hb)
  | .neg e, _, _, ha, hab, hb => by
    exact .neg (Reduced.refines e ha hab hb)
  | .rel op l r, _, _, ha, hab, hb => by
    exact .rel op (Reduced.refines l ha.1 hab hb) (Reduced.refines r ha.2 hab hb)
  | .logic op es, _, _, ha, hab, hb => by
    exact .logic op (AllReduced.refines es ha hab hb)
  | .field e f, _, _, ha, hab, hb => by
    exact .field f (Reduced.refines e ha hab hb)
  | .ivar _ _, _, _, ha, _, _ | .item _ _, _, _, ha, _, _ | .sum _ _ _, _, _, ha, _, _ => by
    simp only [Reduced] at ha

theorem AllReduced.refines : ∀ (es : List (Expr ℚ)) {a b : Env ℚ}, AllReduced a es →
    a.spawn = b.spawn → (∀ s, t.params.contains s = true → b.get? s = none) →
      List.Forall₂ (Refines t m a b) es es
  | [], _, _, _, _, _ => .nil
  | e :: es, _, _, ha, hab, hb => by
    exact .cons (Reduced.refines e ha.1 hab hb) (AllReduced.refines es ha.2 hab hb)
end

theorem Reduced.refines_spawn {e : Expr ℚ} {a : Env ℚ} (h : e.Reduced a) :
    Refines t m a a.spawn e e :=
  Reduced.refines e h rfl fun _ _ => rfl

/-! ## Chains -/

theorem number_chain {a : Env ℚ} {es : List (Expr ℚ)} {xs : List ℚ}
    (h : List.Forall₂ (fun e x => (e.number (known m) a).Gives t x) es xs) :
    ((chain es).number (known m) a).Gives t (xs.foldl (· + ·) 0) := by
  have hfold : ∀ {es : List (Expr ℚ)} {xs : List ℚ},
      List.Forall₂ (fun e x => (e.number (known m) a).Gives t x) es xs →
        ∀ {e : Expr ℚ} {x : ℚ}, (e.number (known m) a).Gives t x →
          ((es.foldl (Expr.arith .add) e).number (known m) a).Gives t (xs.foldl (· + ·) x) := by
    intro es xs h
    induction h with
    | nil => exact id
    | @cons e' y es xs hy _ ih =>
      intro e x hx
      exact ih (gives_number.2 ⟨_, gives_value_arith.2 ⟨x, y, hx, hy, rfl⟩, rfl⟩)
  cases h with
  | nil => exact gives_number.2 ⟨_, gives_value_num.2 rfl, Value.scalar?_normalize _⟩
  | @cons e x es xs hx hxs =>
    simp only [chain, List.foldl_cons, zero_add]
    exact hfold hxs hx

theorem forall_mem_of_forall₂ {α β : Type} {R : α → β → Prop} {P : β → Prop} {as : List α}
    {bs : List β} (h : List.Forall₂ R as bs) (hP : ∀ a b, R a b → P b) : ∀ b ∈ bs, P b := by
  induction h with
  | nil => exact fun _ hb => absurd hb List.not_mem_nil
  | @cons a b as bs hab _ ih => exact List.forall_mem_cons.2 ⟨hP a b hab, ih⟩

/-- A property of the parts of a chain that addition keeps is one of the chain. -/
theorem chain_of [Scalar K] {P : Expr K → Prop} (hzero : P zero)
    (hadd : ∀ l r, P l → P r → P (.arith .add l r)) {es : List (Expr K)} (h : ∀ e ∈ es, P e) :
    P (chain es) := by
  have hfold : ∀ (es : List (Expr K)) (e : Expr K), P e → (∀ e ∈ es, P e) →
      P (es.foldl (Expr.arith .add) e) := by
    intro es
    induction es with
    | nil => exact fun _ he _ => he
    | cons e' es ih =>
      intro e he hes
      exact ih _ (hadd e e' he (hes e' List.mem_cons_self))
        fun u hu => hes u (List.mem_cons_of_mem _ hu)
  cases es with
  | nil => exact hzero
  | cons e es =>
    exact hfold es e (h e List.mem_cons_self) fun u hu => h u (List.mem_cons_of_mem _ hu)

/-! ## Substitution -/

/-- What an expression is to the one that it was substituted from. -/
structure Substitutes (t : Registry ℚ) (m : Nat) (b : Env ℚ) (e e' : Expr ℚ) : Prop where
  reduced : e'.Reduced b
  indexed : e.Indexed → e'.Indexed
  refines : ∀ {c : Env ℚ}, c.Below b → Refines t m c c.spawn e e'

namespace Substitutes

variable {b : Env ℚ} {e e' : Expr ℚ} {es es' : List (Expr ℚ)}

theorem of_reduced (h : e.Reduced b) : Substitutes t m b e e where
  reduced := h
  indexed := id
  refines hcb := Reduced.refines_spawn (h.mono (fun s hs => (hcb.get? s).trans hs) e)

theorem allReduced (h : List.Forall₂ (Substitutes t m b) es es') : AllReduced b es' := by
  induction h with
  | nil => simp only [AllReduced]
  | cons he _ ih =>
    exact ⟨he.reduced, ih⟩

theorem allIndexed (h : List.Forall₂ (Substitutes t m b) es es') (hes : AllIndexed es) :
    AllIndexed es' := by
  induction h with
  | nil => exact hes
  | cons he _ ih =>
    exact ⟨he.indexed hes.1, ih hes.2⟩

theorem allRefines (h : List.Forall₂ (Substitutes t m b) es es') {c : Env ℚ} (hcb : c.Below b) :
    List.Forall₂ (Refines t m c c.spawn) es es' :=
  h.imp fun _ _ he => he.refines hcb

theorem param (s : String) (h : List.Forall₂ (Substitutes t m b) es es') :
    Substitutes t m b (.param s es) (.param s es') where
  reduced := by
    exact allReduced h
  indexed hi := by
    refine ⟨?_, allIndexed h hi.2⟩
    rintro rfl
    exact hi.1 (by cases h; rfl)
  refines hcb := .param s (allRefines h hcb)

theorem logic (op : LogicOp) (h : List.Forall₂ (Substitutes t m b) es es') :
    Substitutes t m b (.logic op es) (.logic op es') where
  reduced := by
    exact allReduced h
  indexed hi := by
    exact allIndexed h hi
  refines hcb := .logic op (allRefines h hcb)

theorem arith (op : ArithOp) {l l' r r' : Expr ℚ} (hl : Substitutes t m b l l')
    (hr : Substitutes t m b r r') : Substitutes t m b (.arith op l r) (.arith op l' r') where
  reduced := by
    exact ⟨hl.reduced, hr.reduced⟩
  indexed hi := by
    exact ⟨hl.indexed hi.1, hr.indexed hi.2⟩
  refines hcb := .arith op (hl.refines hcb) (hr.refines hcb)

theorem rel (op : RelOp) {l l' r r' : Expr ℚ} (hl : Substitutes t m b l l')
    (hr : Substitutes t m b r r') : Substitutes t m b (.rel op l r) (.rel op l' r') where
  reduced := by
    exact ⟨hl.reduced, hr.reduced⟩
  indexed hi := by
    exact ⟨hl.indexed hi.1, hr.indexed hi.2⟩
  refines hcb := .rel op (hl.refines hcb) (hr.refines hcb)

theorem neg (h : Substitutes t m b e e') : Substitutes t m b (.neg e) (.neg e') where
  reduced := by
    exact h.reduced
  indexed hi := by
    exact h.indexed hi
  refines hcb := .neg (h.refines hcb)

theorem field (f : String) (h : Substitutes t m b e e') :
    Substitutes t m b (.field e f) (.field e' f) where
  reduced := by
    exact h.reduced
  indexed hi := by
    exact h.indexed hi
  refines hcb := .field f (h.refines hcb)

theorem dexpr (s : String) (h : Substitutes t m b e e') :
    Substitutes t m b (.dexpr s (some e)) (.dexpr s (some e')) where
  reduced := by
    exact h.reduced
  indexed _ := by simp only [Indexed]
  refines hcb := .dexpr s rfl fun {inside inside'} hin hin' => by
    obtain rfl : inside.spawn = inside' := Except.ok.inj ((enter_spawn hin).symm.trans hin')
    exact h.refines (below_enter hcb hin)

/-- The key of a record may be substituted first. -/
theorem item (ht : t.Keyed) {set : String} {s : Schema} {vs : List (Value ℚ)}
    (h : List.Forall₂ (Substitutes t m b) es es')
    (hrecord : (recordAt set es'.length (elements (known m) es' b)).Gives t (.record s vs)) :
    Substitutes t m b (.item set es) (.record s vs) where
  reduced := by simp only [Reduced]
  indexed _ := by simp only [Indexed]
  refines {c} hcb := by
    intro w hw
    obtain ⟨d, key, hd, hkey, hw⟩ :=
      (gives_recordAt (steady_elements es c)).1 (gives_value_item.1 hw)
    obtain ⟨d', key', hd', hkey', hrecord⟩ := (gives_recordAt (steady_elements es' b)).1 hrecord
    obtain rfl : d = d' := hd.unique (h.length_eq ▸ hd')
    have hsame : key = key' := by
      have h₁ : (elements (known m) es' b.spawn).Gives t key :=
        (Refines.elements (allRefines h hcb) hkey).elements_mono ht (Nat.le_refl m) hcb.spawn
      have h₂ : (elements (known m) es' b.spawn).Gives t key' :=
        Refines.elements
          (AllReduced.refines es' (b := b.spawn) (allReduced h) rfl fun _ _ => rfl) hkey'
      exact h₁.unique h₂
    subst hsame
    obtain rfl := hw.unique hrecord
    exact ⟨_, gives_value_record.2 rfl, .refl _⟩

/-- A sum is as good as the chain of its bodies. -/
theorem sum (ht : t.Keyed) {its : List (Iter ℚ)} {body : Expr ℚ} {c : Option (Expr ℚ)}
    {fs : List (List (String × Value ℚ))} (hfs : t.Admits m its c b fs)
    (h : List.Forall₂ (fun f e => b.frames <:+ f ∧ Substitutes t m { b with frames := f } body e)
      fs es) : Substitutes t m b (.sum its body c) (chain es) where
  reduced := by
    refine chain_of (by simp only [zero, Reduced]) (fun l r hl hr => ?_)
      (forall_mem_of_forall₂ h fun f e hf => ?_)
    · simp only [Reduced]
      exact ⟨hl, hr⟩
    · exact hf.2.reduced.mono (fun s hs => get?_eq_none_of_suffix hf.1 hs) e
  indexed hi := by
    refine chain_of (by simp only [zero, Indexed]) (fun l r hl hr => ?_)
      (forall_mem_of_forall₂ h fun f e hf => hf.2.indexed hi)
    exact ⟨hl, hr⟩
  refines {a} hab := by
    intro v hv
    obtain ⟨fs', xs, hfs', hxs, rfl⟩ := gives_value_sum ht hv
    obtain rfl : fs' = fs := (hfs'.mono ht (Nat.le_refl m) hab).unique hfs
    have hnumbers : List.Forall₂ (fun e x => (e.number (known m) a.spawn).Gives t x) es xs := by
      clear hfs hfs' hv
      induction h generalizing xs with
      | nil =>
        cases hxs
        exact .nil
      | @cons f e fs es hf _ ih =>
        cases hxs with
        | cons hx hxs =>
          refine .cons ?_ (ih _ hxs)
          have hbelow : Below { a with frames := f } { b with frames := f } :=
            ⟨rfl, hab.values, hab.active⟩
          exact (hf.2.refines hbelow).number hx.2
    obtain ⟨w, hw, hsum⟩ := gives_number.1 (number_chain hnumbers)
    exact ⟨w, hw, Value.same_real hsum⟩

/-- A value stands for itself. -/
theorem of_value {v : Value ℚ} (hv : ofValue v = .ok e')
    (he : ∀ {c : Env ℚ} {w : Value ℚ}, c.Below b → (e.value (known m) c).Gives t w → w = v) :
    Substitutes t m b e e' where
  reduced := by cases v <;> cases hv <;> simp only [Reduced]
  indexed _ := by cases v <;> cases hv <;> simp only [Indexed]
  refines {c} hcb := by
    intro w hw
    obtain rfl := he hcb hw
    obtain ⟨u, hu, huw⟩ := ofValue_value hv (known m) c.spawn
    exact ⟨u, by rw [hu]; exact gives_pure.2 rfl, huw⟩

end Substitutes

mutual
/-- Substitution gives a reduced expression of the same value. -/
theorem substitute_sound (ht : t.Keyed) : ∀ (e : Expr ℚ) {b : Env ℚ} {e' : Expr ℚ},
    (e.substitute (known m) b).Gives t e' → Substitutes t m b e e'
  | .num _, b, e', h | .str _, b, e', h | .record _ _, b, e', h | .var _ _ _, b, e', h
  | .dexpr s none, b, e', h => by
    simp only [substitute, gives_pure] at h
    subst h
    exact .of_reduced (by simp only [Reduced])
  | .name s, b, e', h => by
    simp only [substitute] at h
    cases hs : b.get? s with
    | none =>
      simp only [hs, gives_pure] at h
      subst h
      exact .of_reduced (by simpa only [Reduced] using hs)
    | some v =>
      simp only [hs, gives_ofExcept] at h
      refine .of_value h fun hcb hw => ?_
      exact ((gives_value_name_bound ((hcb.get? s).trans hs)).1 hw).symm
  | .param s es, b, e', h => by
    obtain ⟨es', hes', h⟩ := (gives_bind (steady_substituteAll es b) fun _ => steady_pure _).1 h
    obtain rfl := gives_pure.1 h
    exact .param s (substituteAll_sound ht es hes')
  | .ivar s es, b, e', h => by
    obtain ⟨n, hn, h⟩ :=
      (gives_bind (steady_variableAt (steady_elements es b)) fun _ => steady_pure _).1 h
    obtain rfl := gives_pure.1 h
    refine ⟨by simp only [Reduced], fun _ => by simp only [Indexed], fun {c} hcb v hv => ?_⟩
    obtain ⟨n', x, hn', hx, rfl⟩ := gives_value_ivar.1 hv
    -- the index has the same value where more can be evaluated
    have hsame : n' = n := (hn'.kept ht (Simulation.variableAt s
      (Simulation.exprElements (known_keeps (Nat.le_refl m)) es hcb))).unique hn
    subst hsame
    exact ⟨_, gives_value_var.2 ⟨x, hx, rfl⟩, .refl _⟩
  | .dexpr s (some e), b, e', h => by
    obtain ⟨e₁, he₁, h⟩ := (gives_bind (steady_substitute e b) fun _ => steady_pure _).1 h
    obtain rfl := gives_pure.1 h
    exact .dexpr s (substitute_sound ht e he₁)
  | .arith op l r, b, e', h => by
    obtain ⟨l', hl', h⟩ := (gives_bind (steady_substitute l b) fun _ =>
      (steady_substitute r b).bind fun _ => steady_pure _).1 h
    obtain ⟨r', hr', h⟩ := (gives_bind (steady_substitute r b) fun _ => steady_pure _).1 h
    obtain rfl := gives_pure.1 h
    exact .arith op (substitute_sound ht l hl') (substitute_sound ht r hr')
  | .neg e, b, e', h => by
    obtain ⟨e₁, he₁, h⟩ := (gives_bind (steady_substitute e b) fun _ => steady_pure _).1 h
    obtain rfl := gives_pure.1 h
    exact .neg (substitute_sound ht e he₁)
  | .rel op l r, b, e', h => by
    obtain ⟨l', hl', h⟩ := (gives_bind (steady_substitute l b) fun _ =>
      (steady_substitute r b).bind fun _ => steady_pure _).1 h
    obtain ⟨r', hr', h⟩ := (gives_bind (steady_substitute r b) fun _ => steady_pure _).1 h
    obtain rfl := gives_pure.1 h
    exact .rel op (substitute_sound ht l hl') (substitute_sound ht r hr')
  | .logic op es, b, e', h => by
    obtain ⟨es', hes', h⟩ := (gives_bind (steady_substituteAll es b) fun _ => steady_pure _).1 h
    obtain rfl := gives_pure.1 h
    exact .logic op (substituteAll_sound ht es hes')
  | .field e f, b, e', h => by
    obtain ⟨e₁, he₁, h⟩ := (gives_bind (steady_substitute e b) fun e₁ => by
      cases e₁ with
      | record s vs => exact (steady_ofExcept _).bind fun _ => steady_ofExcept _
      | _ => exact steady_pure _).1 h
    have hsub := substitute_sound ht e he₁
    cases e₁ with
    | record s vs =>
      obtain ⟨v, hv, h⟩ := (gives_bind (steady_ofExcept _) fun _ => steady_ofExcept _).1 h
      refine .of_value (gives_ofExcept.1 h) fun hcb hw => ?_
      obtain ⟨s', vs', hrecord, hw⟩ := gives_value_field.1 hw
      obtain ⟨u, hu, hsame⟩ := hsub.refines hcb _ hrecord
      obtain rfl := hsame.eq_record
      obtain ⟨rfl, rfl⟩ : s = s' ∧ vs = vs' := by simpa using gives_value_record.1 hu
      exact Except.ok.inj (hw.symm.trans (gives_ofExcept.1 hv))
    | _ =>
      obtain rfl := gives_pure.1 h
      exact .field f hsub
  | .item set key, b, e', h => by
    obtain ⟨key', hkey', h⟩ := (gives_bind (steady_substituteAll key b) fun key' =>
      (steady_recordAt (steady_elements key' b)).bind fun v => by
        cases v with
        | record s vs => exact steady_pure _
        | _ => exact steady_fail _).1 h
    obtain ⟨v, hv, h⟩ := (gives_bind (steady_recordAt (steady_elements key' b)) fun v => by
        cases v with
        | record s vs => exact steady_pure _
        | _ => exact steady_fail _).1 h
    cases v with
    | record s vs =>
      obtain rfl := gives_pure.1 h
      exact .item ht (substituteAll_sound ht key hkey') hv
    | _ => exact absurd h not_gives_fail
  | .sum its body c, b, e', h => by
    obtain ⟨fs, es, hfs, hes, rfl⟩ := gives_substitute_sum ht h
    exact .sum ht hfs (hes.imp fun f e hf => ⟨hf.1, substitute_sound ht body hf.2⟩)

theorem substituteAll_sound (ht : t.Keyed) : ∀ (es : List (Expr ℚ)) {b : Env ℚ}
    {es' : List (Expr ℚ)}, (substituteAll (known m) es b).Gives t es' →
      List.Forall₂ (Substitutes t m b) es es'
  | [], b, es', h => by
    simp only [substituteAll, gives_pure] at h
    subst h
    exact .nil
  | e :: es, b, es', h => by
    obtain ⟨e₁, he₁, h⟩ := (gives_bind (steady_substitute e b) fun _ =>
      (steady_substituteAll es b).bind fun _ => steady_pure _).1 h
    obtain ⟨es₁, hes₁, h⟩ := (gives_bind (steady_substituteAll es b) fun _ => steady_pure _).1 h
    obtain rfl := gives_pure.1 h
    exact .cons (substitute_sound ht e he₁) (substituteAll_sound ht es hes₁)
end

end Expr

end LinearModel
