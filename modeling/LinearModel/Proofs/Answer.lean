import LinearModel.Proofs.Evaluation

/-!
# Answers

In a registry that holds everything an expression needs, its value can be given without computing
or changing anything. The lemmas here say what such an answer is made of, constructor by
constructor, and that it stays the same in a deeper lookup and in an environment in which more can
be evaluated.
-/
namespace LinearModel

open Run Simulation Expr

variable {K : Type} [Scalar K] {α : Type} {t : Registry K} {m n : Nat} {a b : Env K}
  {es : List (Expr K)} {e : Expr K}

/-! ## Answers only read the registry -/

theorem steady_settledValue (symbol : String) (idx : Index K) :
    (settledValue symbol idx).Steady := by
  refine steady_registry.bind fun r => ?_
  cases r.params.find? symbol with
  | none => exact steady_fail _
  | some p =>
    dsimp only
    split
    · exact steady_ofExcept _
    · exact steady_fail _

theorem steady_knownElements (symbol : String) (env : Env K) (given : Option (Value K)) :
    (knownElements symbol env given).Steady := by
  refine steady_registry.bind fun r => ?_
  cases r.domain? symbol with
  | none => exact steady_fail _
  | some d => exact steady_ofExcept _

theorem known_steady (m : Nat) : steady.Lookups (known m) (known m : Lookup K) := by
  induction m with
  | zero =>
    refine ⟨fun _ _ => ?_, fun _ _ _ => ?_, fun _ _ _ _ _ => ?_⟩ <;> exact steady_fail _
  | succ m ih =>
    refine ⟨steady_settledValue, fun s given _ => steady_knownElements s _ given,
      fun _ _ _ e hab => ?_⟩
    exact exprNumber ih e hab (.inl trivial)

@[simp] theorem steady_parameter (s : String) (idx : Index K) :
    ((known m).parameter s idx).Steady :=
  (known_steady m).parameter s idx

@[simp] theorem steady_value (e : Expr K) (env : Env K) : (e.value (known m) env).Steady :=
  exprValue (known_steady m) e rfl (.inl trivial)

@[simp] theorem steady_number (e : Expr K) (env : Env K) : (e.number (known m) env).Steady :=
  exprNumber (known_steady m) e rfl (.inl trivial)

@[simp] theorem steady_body (e : Expr K) (env : Env K) : ((known m).body e env).Steady :=
  (known_steady m).body trivial e rfl

@[simp] theorem steady_elements (es : List (Expr K)) (env : Env K) :
    (elements (known m) es env).Steady :=
  exprElements (known_steady m) es rfl (.inl trivial)

@[simp] theorem steady_substitute (e : Expr K) (env : Env K) :
    (e.substitute (known m) env).Steady :=
  exprSubstitute (known_steady m) trivial e rfl

@[simp] theorem steady_substituteAll (es : List (Expr K)) (env : Env K) :
    (substituteAll (known m) es env).Steady :=
  exprSubstituteAll (known_steady m) trivial es rfl

/-! ## Deeper lookups and larger environments give the same -/

theorem Run.Gives.value_mono {v : Value K} (h : (e.value (known m) a).Gives t v) (ht : t.Keyed)
    (hmn : m ≤ n) (hab : a.Below b) : (e.value (known n) b).Gives t v :=
  h.kept ht (exprValue (known_keeps hmn) e hab (.inl trivial))

theorem Run.Gives.number_mono {x : K} (h : (e.number (known m) a).Gives t x) (ht : t.Keyed)
    (hmn : m ≤ n) (hab : a.Below b) : (e.number (known n) b).Gives t x :=
  h.kept ht (exprNumber (known_keeps hmn) e hab (.inl trivial))

theorem Run.Gives.elements_mono {idx : Index K} (h : (elements (known m) es a).Gives t idx)
    (ht : t.Keyed) (hmn : m ≤ n) (hab : a.Below b) : (elements (known n) es b).Gives t idx :=
  h.kept ht (exprElements (known_keeps hmn) es hab (.inl trivial))

theorem Run.Gives.substitute_mono {e' : Expr K} (h : (e.substitute (known m) a).Gives t e')
    (ht : t.Keyed) (hmn : m ≤ n) (hab : a.Below b) : (e.substitute (known n) b).Gives t e' :=
  h.kept ht (exprSubstitute (known_keeps hmn) trivial e hab)

/-! ## Answers of expressions, by constructor -/

section Constructors

variable {v : Value K} {s set : String} {x : Run K (Index K)}

theorem Expr.asNumber_value (L : Lookup K) (e : Expr K) (env : Env K) :
    e.asNumber (e.value L env) = e.number L env := rfl

@[simp] theorem gives_value_num {x : K} :
    ((Expr.num x).value (known m) a).Gives t v ↔ (Value.real x).normalize = v := by
  simp [value]

@[simp] theorem gives_value_str : ((Expr.str s).value (known m) a).Gives t v ↔ .str s = v := by
  simp [value]

@[simp] theorem gives_value_record {s : Schema} {vs : List (Value K)} :
    ((record s vs).value (known m) a).Gives t v ↔ .record s vs = v := by
  simp [value]

theorem gives_value_name_bound {w : Value K} (h : a.get? s = some w) :
    ((Expr.name s).value (known m) a).Gives t v ↔ w = v := by
  simp [value, h]

theorem gives_value_name (h : a.get? s = none) : ((Expr.name s).value (known m) a).Gives t v ↔
      t.params.contains s = true ∧ ((known m).parameter s []).Gives t v := by
  simp only [value, h]
  rw [gives_bind steady_registry fun r => by split <;> simp [steady_fail]]
  simp only [gives_registry, exists_eq_left']
  split
  · simp_all
  · simp_all

theorem gives_value_param : ((param s es).value (known m) a).Gives t v ↔
      ∃ idx, (elements (known m) es a).Gives t idx ∧ ((known m).parameter s idx).Gives t v := by
  exact gives_bind (steady_elements _ _) fun _ => steady_parameter _ _

@[simp] theorem gives_value_var {n base : String} {idx : Option (Index K)} :
    ((Expr.var n base idx).value (known m) a).Gives t v ↔
      ∃ x, a.variableValue n = .ok x ∧ .real x = v := by
  simp only [value]
  rw [gives_bind (steady_ofExcept _) fun _ => steady_pure _]
  simp

theorem steady_variableAt (hx : x.Steady) : (variableAt s x).Steady :=
  Simulation.variableAt (R := Simulation.steady) (y := x) s hx trivial

theorem gives_value_ivar : ((Expr.ivar s es).value (known m) a).Gives t v ↔
      ∃ n x, (variableAt s (elements (known m) es a)).Gives t n ∧
        a.variableValue n.1 = .ok x ∧ .real x = v := by
  simp only [value]
  rw [gives_bind (steady_variableAt (steady_elements _ _))
    fun _ => (steady_ofExcept _).bind fun _ => steady_pure _]
  refine exists_congr fun n => ?_
  rw [gives_bind (steady_ofExcept _) fun _ => steady_pure _]
  simp

theorem gives_value_arith {op : ArithOp} {l r : Expr K} :
    ((arith op l r).value (known m) a).Gives t v ↔
      ∃ x y, (l.number (known m) a).Gives t x ∧ (r.number (known m) a).Gives t y ∧
        .real (op.apply x y) = v := by
  simp only [value, asNumber_value]
  rw [gives_bind (steady_number l a)
    fun _ => (steady_number r a).bind fun _ => steady_pure _]
  refine exists_congr fun x => ?_
  rw [gives_bind (steady_number r a) fun _ => steady_pure _]
  simp

theorem gives_value_neg : ((Expr.neg e).value (known m) a).Gives t v ↔
      ∃ x, (e.number (known m) a).Gives t x ∧ .real (-x) = v := by
  simp only [value, asNumber_value]
  rw [gives_bind (steady_number e a) fun _ => steady_pure _]
  simp

theorem gives_value_rel {op : RelOp} {l r : Expr K} :
    ((Expr.rel op l r).value (known m) a).Gives t v ↔
      ∃ x y c, (l.value (known m) a).Gives t x ∧ (r.value (known m) a).Gives t y ∧
        Value.compare op x y = .ok c ∧ .real (Scalar.ofBool c) = v := by
  simp only [value]
  rw [gives_bind (steady_value l a) fun _ => (steady_value r a).bind fun _ =>
    (steady_ofExcept _).bind fun _ => steady_pure _]
  simp only [gives_bind (steady_value r a) fun _ => (steady_ofExcept _).bind fun _ => steady_pure _,
    gives_bind (steady_ofExcept _) fun _ => steady_pure _, gives_ofExcept, gives_pure]
  tauto

theorem gives_value_field {f : String} : ((field e f).value (known m) a).Gives t v ↔
      ∃ s vs, (e.value (known m) a).Gives t (.record s vs) ∧ Value.field s vs f = .ok v := by
  simp only [value]
  rw [gives_bind (steady_value e a) fun w => by
    cases w with
    | record s vs => exact steady_ofExcept _
    | _ => exact steady_fail _]
  constructor
  · rintro ⟨w, hw, h⟩
    cases w with
    | record s vs => exact ⟨s, vs, hw, gives_ofExcept.1 h⟩
    | _ => exact absurd h not_gives_fail
  · rintro ⟨s, vs, hw, h⟩
    exact ⟨_, hw, gives_ofExcept.2 h⟩

@[simp] theorem gives_elements_nil {vs : Index K} :
    (elements (known m) [] a).Gives t vs ↔ [] = vs := by
  simp [elements]

theorem gives_elements_cons {vs : Index K} : (elements (known m) (e :: es) a).Gives t vs ↔
      ∃ w ws, (e.value (known m) a).Gives t w ∧ (elements (known m) es a).Gives t ws ∧
        w.normalize :: ws = vs := by
  simp only [elements]
  rw [gives_bind (steady_value e a) fun _ => (steady_elements es a).bind fun _ => steady_pure _]
  simp only [gives_bind (steady_elements es a) fun _ => steady_pure _, gives_pure]
  tauto

/-- A single variable is named by its symbol and the value of its index. -/
theorem gives_variableAt (hx : x.Steady) {n : String × Index K} : (variableAt s x).Gives t n ↔
      ∃ v idx, (declaredVariable s).Gives t v ∧ x.Gives t idx ∧
        (singleVariable s v idx).Gives t n := by
  have hname : ∀ v idx, (singleVariable s v idx : Run K _).Steady := fun v idx =>
    Simulation.singleVariable (R := Simulation.steady) s v idx trivial
  rw [variableAt, gives_bind (Simulation.declaredVariable (R := Simulation.steady) s trivial)
    fun v => hx.bind fun idx => hname v idx]
  simp only [gives_bind hx fun idx => hname _ idx]
  tauto

theorem steady_recordAt {count : Nat} (hx : x.Steady) : (recordAt set count x).Steady :=
  Simulation.recordAt (R := Simulation.steady) (y := x) set count hx

/-- A record is found by the value of its key. -/
theorem gives_recordAt {count : Nat} (hx : x.Steady) : (recordAt set count x).Gives t v ↔
      ∃ d key, (keyedSet set count).Gives t d ∧ x.Gives t key ∧ (recordOf set d key).Gives t v := by
  have hrecord : ∀ d key, (recordOf set d key : Run K _).Steady := fun d key =>
    Simulation.recordOf (R := Simulation.steady) set d key
  rw [recordAt, gives_bind (Simulation.keyedSet (R := Simulation.steady) set count)
    fun d => hx.bind fun key => hrecord d key]
  simp only [gives_bind hx fun key => hrecord _ key]
  tauto

/-- What is found under a key is a record. -/
theorem recordOf_record {d : TupleSet K} {key : Index K}
    (h : (recordOf set d key).Gives t v) : ∃ s vs, v = .record s vs := by
  have hmem : ∀ u ∈ d.findByKey key, ∃ s vs, u = Value.record s vs := by
    intro u hu
    simp only [TupleSet.findByKey, List.mem_filter] at hu
    cases u with
    | record s vs => exact ⟨s, vs, rfl⟩
    | _ => simp at hu
  simp only [recordOf] at h
  cases hfound : d.findByKey key with
  | nil => simp [hfound] at h
  | cons u us =>
    have hu : u = v := by
      cases us with
      | nil => simpa [hfound] using h
      | cons u' us =>
        simp only [hfound] at h
        rw [gives_bind (steady_warn _) fun _ => steady_pure _] at h
        obtain ⟨_, _, h⟩ := h
        exact gives_pure.1 h
    exact hu ▸ hmem u (by simp [hfound])

theorem gives_value_item {key : List (Expr K)} : ((Expr.item set key).value (known m) a).Gives t v ↔
      (recordAt set key.length (elements (known m) key a)).Gives t v := by
  simp only [value]

/-- How the index of a decision expression is evaluated. -/
abbrev indexValue (m : Nat) (idx : Option (Expr K)) : Option (Env K → Run K (Value K)) :=
  idx.map fun e env => e.value (known m) env

theorem steady_dexprScope (s : String) (idx : Option (Expr K)) :
    (dexprScope s (indexValue m idx) a).Steady := by
  refine steady_registry.bind fun r => ?_
  rcases r.dexprs.find? s with _ | ⟨symbol, type, body, _ | i, domain⟩
  · exact steady_fail _
  · cases idx with
    | none => exact steady_pure _
    | some e => exact steady_fail _
  · cases idx with
    | none => exact steady_fail _
    | some e => exact (steady_value e a).bind fun _ => steady_pure _

/-- The body of a decision expression is evaluated where only its own index is bound. -/
theorem gives_dexprScope {idx : Option (Expr K)} {d : DecisionExpression K} {inner : Env K} :
    (dexprScope s (indexValue m idx) a).Gives t (d, inner) ↔ t.dexprs.find? s = some d ∧
        ((d.index = none ∧ idx = none ∧ inner = a.spawn) ∨
          ∃ i e v, d.index = some i ∧ idx = some e ∧ (e.value (known m) a).Gives t v ∧
            inner = a.spawn.bind i v.normalize) := by
  constructor
  · intro h
    obtain ⟨w, hw⟩ := h []
    replace hw := returns_registry_bind.1 hw
    rcases hd : t.dexprs.find? s with _ | ⟨symbol, type, body, _ | i, domain⟩
    · simp [hd] at hw
    · cases idx with
      | none =>
        simp only [hd, Option.map_none, returns_pure, Prod.mk.injEq] at hw
        obtain ⟨⟨rfl, rfl⟩, -⟩ := hw
        exact ⟨rfl, .inl ⟨rfl, rfl, rfl⟩⟩
      | some e => simp [hd] at hw
    · cases idx with
      | none => simp [hd] at hw
      | some e =>
        simp only [hd, Option.map_some, returns_bind, returns_pure, Prod.mk.injEq] at hw
        obtain ⟨v, s₂, hv, ⟨rfl, rfl⟩, -⟩ := hw
        exact ⟨rfl, .inr ⟨i, e, v, rfl, rfl, (steady_value e a hv).2, rfl⟩⟩
  · rintro ⟨hd, ⟨hi, rfl, rfl⟩ | ⟨i, e, v, hi, rfl, hv, rfl⟩⟩
    · refine (gives_registry.2 rfl).bind ?_
      simp [hd, hi]
    · refine (gives_registry.2 rfl).bind ?_
      simp only [hd, hi, Option.map_some]
      exact hv.bind (gives_pure.2 rfl)

theorem gives_value_dexpr {idx : Option (Expr K)} : ((dexpr s idx).value (known m) a).Gives t v ↔
      ∃ inside d inner x, a.enter s = .ok inside ∧
        (dexprScope s (indexValue m idx) inside).Gives t (d, inner) ∧
        ((known m).body d.body inner).Gives t x ∧ .real x = v := by
  have hvalue : (dexpr s idx).value (known m) a = do
      let inside ← Run.ofExcept (a.enter s)
      let scope ← dexprScope s (indexValue m idx) inside
      return .real (← (known m).body scope.1.body scope.2) := by
    cases idx <;> simp only [value] <;> rfl
  rw [hvalue, gives_bind (steady_ofExcept _) fun inside => (steady_dexprScope s idx).bind fun _ =>
    (steady_body _ _).bind fun _ => steady_pure _]
  simp only [gives_bind (steady_dexprScope s idx) fun _ =>
      (steady_body _ _).bind fun _ => steady_pure _,
    gives_bind (steady_body _ _) fun _ => steady_pure _, gives_ofExcept, gives_pure]
  constructor
  · rintro ⟨inside, hin, ⟨d, inner⟩, hscope, x, hx, rfl⟩
    exact ⟨inside, d, inner, x, hin, hscope, hx, rfl⟩
  · rintro ⟨inside, d, inner, x, hin, hscope, hx, rfl⟩
    exact ⟨inside, hin, (d, inner), hscope, x, hx, rfl⟩

-- The operands of a connective are evaluated until the answer is known.

theorem gives_firstTruth {o : Option Bool} : (firstTruth (known m) es a).Gives t o ↔
      (es = [] ∧ o = none) ∨ ∃ e es' x, es = e :: es' ∧ (e.number (known m) a).Gives t x ∧
        o = some (Scalar.isTrue x) := by
  cases es with
  | nil => simp [firstTruth, eq_comm]
  | cons e es =>
    simp only [firstTruth, asNumber_value]
    rw [gives_bind (steady_number e a) fun _ => steady_pure _]
    simp [eq_comm]

theorem gives_allTrue_cons {c : Bool} : (allTrue (known m) (e :: es) a).Gives t c ↔
      ∃ x, (e.number (known m) a).Gives t x ∧
        ((Scalar.isTrue x = true ∧ (allTrue (known m) es a).Gives t c) ∨
          (Scalar.isTrue x = false ∧ c = false)) := by
  simp only [allTrue, asNumber_value]
  have hrest : ∀ x : K, (if Scalar.isTrue x = true then allTrue (known m) es a
      else return false : Run K Bool).Steady := fun x => by
    split
    · exact exprAllTrue (known_steady m) es rfl (.inl trivial)
    · exact steady_pure _
  rw [gives_bind (steady_number e a) hrest]
  refine exists_congr fun x => and_congr_right fun _ => ?_
  cases Scalar.isTrue x <;> simp [eq_comm]

theorem gives_anyTrue_cons {c : Bool} : (anyTrue (known m) (e :: es) a).Gives t c ↔
      ∃ x, (e.number (known m) a).Gives t x ∧ ((Scalar.isTrue x = true ∧ c = true) ∨
          (Scalar.isTrue x = false ∧ (anyTrue (known m) es a).Gives t c)) := by
  simp only [anyTrue, asNumber_value]
  have hrest : ∀ x : K, (if Scalar.isTrue x = true then return true
      else anyTrue (known m) es a : Run K Bool).Steady := fun x => by
    split
    · exact steady_pure _
    · exact exprAnyTrue (known_steady m) es rfl (.inl trivial)
  rw [gives_bind (steady_number e a) hrest]
  refine exists_congr fun x => and_congr_right fun _ => ?_
  cases Scalar.isTrue x <;> simp [eq_comm]

theorem gives_value_not : ((logic .not es).value (known m) a).Gives t v ↔
      ∃ c, (firstTruth (known m) es a).Gives t (some c) ∧ .real (Scalar.ofBool (!c)) = v := by
  simp only [value]
  rw [gives_bind (exprFirstTruth (known_steady m) es rfl (.inl trivial)) fun o => by
    cases o with
    | none => exact steady_fail _
    | some c => exact steady_pure _]
  constructor
  · rintro ⟨_ | c, ho, h⟩
    · exact absurd h not_gives_fail
    · exact ⟨c, ho, gives_pure.1 h⟩
  · rintro ⟨c, ho, h⟩
    exact ⟨some c, ho, gives_pure.2 h⟩

theorem gives_value_and : ((logic .and es).value (known m) a).Gives t v ↔
      ∃ c, (allTrue (known m) es a).Gives t c ∧ .real (Scalar.ofBool c) = v := by
  simp only [value]
  rw [gives_bind (exprAllTrue (known_steady m) es rfl (.inl trivial)) fun _ => steady_pure _]
  simp

theorem gives_value_or : ((logic .or es).value (known m) a).Gives t v ↔
      ∃ c, (anyTrue (known m) es a).Gives t c ∧ .real (Scalar.ofBool c) = v := by
  simp only [value]
  rw [gives_bind (exprAnyTrue (known_steady m) es rfl (.inl trivial)) fun _ => steady_pure _]
  simp

end Constructors

/-! ## Enumeration -/

section Enumeration

variable {β : Type} {L M : Lookup K} {c : Option (Expr K)} {f : Env K → Run K (List α)}
  {its : List (Iter K)} {each : Env K → Run K α}

/-- What is found in the places that an enumeration visits, against what is found there through
another lookup. -/
theorem ensures_visit {ss ts : List (Stage K)} (h : List.Forall₂ keeping.Stages ss ts)
    {g : Env K → Run K (List β)} {Q : Registry K → β → α → Prop} (hab : a.Below b)
    (hfg : ∀ {inner inner' : Env K}, inner.Below inner' → inner.spawn = a.spawn →
      a.frames <:+ inner.frames → (f inner).Ensures fun t vs =>
        ∃ ws, (g inner').Gives t ws ∧ List.Forall₂ (Q t) ws vs) :
    (Stage.visit ss f a).Ensures fun t vs =>
      ∃ ws, (Stage.visit ts g b).Gives t ws ∧ List.Forall₂ (Q t) ws vs := by
  induction h generalizing a b with
  | nil => exact hfg hab rfl (List.suffix_refl _)
  | @cons s u ss ts hsu _ ih =>
    refine (hsu.elements hab).bind fun els => ?_
    refine EnsuresFrom.bind (P := fun t found => List.Forall₂ (fun v vs => ∃ ws,
      (do if ← u.admits (b.bind u.symbol v) then Stage.visit ts g (b.bind u.symbol v)
          else return []).Gives t ws ∧ List.Forall₂ (Q t) ws vs) els found) ?_ fun found => ?_
    · refine ensures_mapM els fun v => ?_
      have hinner := hab.bind s.symbol v
      rw [← hsu.symbol]
      refine (hsu.admits hinner).bind fun passes => ?_
      cases passes with
      | true =>
        refine (ih hinner fun hi hspawn hsuffix => hfg hi hspawn
          ((List.suffix_cons _ _).trans hsuffix)).mono fun t vs hvs hadmits => ?_
        obtain ⟨ws, hws, hQ⟩ := hvs
        exact ⟨ws, hadmits.bind hws, hQ⟩
      | false => exact ensures_pure fun t hadmits => ⟨[], hadmits.bind (gives_pure.2 rfl), .nil⟩
    · refine ensures_pure fun t hfound hels => ?_
      suffices hlists : ∃ wss, List.Forall₂ (fun v ws =>
          (do if ← u.admits (b.bind u.symbol v) then Stage.visit ts g (b.bind u.symbol v)
              else return []).Gives t ws) els wss ∧
            List.Forall₂ (Q t) wss.flatten found.flatten by
        obtain ⟨wss, hwss, hQ⟩ := hlists
        exact ⟨wss.flatten, hels.bind ((gives_mapM hwss).bind (gives_pure.2 rfl)), hQ⟩
      clear hels
      induction hfound with
      | nil => exact ⟨[], .nil, .nil⟩
      | cons hvs _ ih =>
        obtain ⟨ws, hws, hQ⟩ := hvs
        obtain ⟨wss, hwss, hrest⟩ := ih
        exact ⟨ws :: wss, .cons hws hwss, List.rel_append hQ hrest⟩

theorem steady_visit {ss ts : List (Stage K)} (h : List.Forall₂ steady.Stages ss ts)
    (hf : ∀ inner, (f inner).Steady) (a : Env K) : (Stage.visit ss f a).Steady := by
  induction h generalizing a with
  | nil => exact hf a
  | cons hs _ ih =>
    refine (hs.elements rfl).bind fun vs => (steady_mapM vs fun v => ?_).bind fun _ => steady_pure _
    refine (hs.admits rfl).bind fun passes => ?_
    cases passes with
    | true => exact ih _
    | false => exact steady_pure _

/-- A visit gives what it gave before, if every place that it gets to does. -/
theorem gives_visit_mono {ss ts : List (Stage K)} (h : List.Forall₂ steady.Stages ss ts)
    {g : Env K → Run K (List α)} (hf : ∀ inner, (f inner).Steady)
    (hfg : ∀ inner xs, (f inner).Gives t xs → (g inner).Gives t xs) {xs : List α}
    (hxs : (Stage.visit ss f a).Gives t xs) : (Stage.visit ss g a).Gives t xs := by
  induction h generalizing a xs with
  | nil => exact hfg a xs hxs
  | @cons s u ss ts hs hss ih =>
    have hrest : ∀ v (passes : Bool), (if passes then Stage.visit ss f (a.bind s.symbol v)
        else return [] : Run K (List α)).Steady := by
      intro v passes
      cases passes with
      | true => exact steady_visit hss hf _
      | false => exact steady_pure _
    have hbranch := fun v => Steady.bind (hs.admits (a := a.bind s.symbol v) rfl) (hrest v)
    obtain ⟨vs, hvs, hxs⟩ := (gives_bind (hs.elements rfl) fun vs =>
      (steady_mapM vs hbranch).bind fun _ => steady_pure _).1 hxs
    obtain ⟨found, hfound, hxs⟩ :=
      (gives_bind (steady_mapM vs hbranch) fun _ => steady_pure _).1 hxs
    refine hvs.bind ((gives_mapM ?_).bind hxs)
    refine (forall₂_of_gives_mapM hbranch hfound).imp fun v ys hys => ?_
    obtain ⟨passes, hpasses, hys⟩ := (gives_bind (hs.admits rfl) (hrest v)).1 hys
    refine hpasses.bind ?_
    cases passes with
    | true => exact ih hys
    | false => exact hys

/-- The bindings of the combinations that an enumeration admits, in order. -/
def Registry.Admits (t : Registry K) (m : Nat) (its : List (Iter K)) (c : Option (Expr K))
    (a : Env K) (fs : List (List (String × Value K))) : Prop :=
  (enumerate (known m) its c a fun inner => pure inner.frames).Gives t fs

theorem Registry.Admits.mono {fs : List (List (String × Value K))} (h : t.Admits m its c a fs)
    (ht : t.Keyed) (hmn : m ≤ n) (hab : a.Below b) : t.Admits n its c b fs :=
  h.kept ht (Simulation.combinations (known_keeps hmn) its c
    (fun {_ _} hinner => by rw [hinner.frames]; exact Simulation.keeping.ret _) hab
    (.inl trivial) (.inl trivial))

/-- An enumeration finds something for each of the combinations that it admits. -/
theorem ensures_enumerate (hL : keeping.Lookups L (known m)) (its : List (Iter K))
    (c : Option (Expr K)) {P : Env K → Registry K → α → Prop}
    (heach : ∀ inner, (each inner).Ensures (P inner)) :
    (enumerate L its c a each).Ensures fun t vs => ∃ fs, t.Admits m its c a fs ∧
      List.Forall₂ (fun f v => a.frames <:+ f ∧ P { a with frames := f } t v) fs vs := by
  simp only [Registry.Admits, enumerate, Stage.enumerate]
  have hstages := exprStages hL its (.inl trivial)
  rw [hstages.length_eq]
  split
  · exact ensures_fail
  · refine ensures_visit hstages (.refl a) fun {inner inner'} hinner hspawn hsuffix => ?_
    refine (exprHolds hL c hinner (.inl trivial)).bind fun holds => ?_
    cases holds with
    | true =>
      refine (heach inner).bind fun v => ensures_pure fun t hv hholds => ?_
      refine ⟨[inner'.frames], hholds.bind (gives_pure.2 rfl), .cons ?_ .nil⟩
      have hsame : { a with frames := inner'.frames } = inner := by
        rw [← hinner.frames]
        obtain ⟨frames, values, active⟩ := inner
        simp only [Env.spawn, Env.mk.injEq, true_and] at hspawn
        simp [hspawn]
      rw [hsame]
      exact ⟨hinner.frames ▸ hsuffix, hv⟩
    | false => exact ensures_pure fun t hholds => ⟨[], hholds.bind (gives_pure.2 rfl), .nil⟩

theorem gives_enumerate (heach : ∀ inner, (each inner).Keeps (each inner)) (ht : t.Keyed)
    {vs : List α} (h : (enumerate (known m) its c a each).Gives t vs) :
    ∃ fs, t.Admits m its c a fs ∧
      List.Forall₂ (fun f v => a.frames <:+ f ∧ (each { a with frames := f }).Gives t v) fs vs := by
  obtain ⟨w, hw⟩ := h []
  exact (ensures_enumerate (known_keeps (Nat.le_refl m)) its c heach (s := ⟨t, []⟩) ht hw).2
    (.refl t)

theorem steady_enumerate (h : ∀ inner, (each inner).Steady) :
    (enumerate (known m) its c a each).Steady :=
  Simulation.combinations (R := Simulation.steady) (g := each) (known_steady m) its c
    (fun {inner _} _ => h inner) rfl (.inl trivial) (.inl trivial)

theorem Expr.value_sum (L : Lookup K) (its : List (Iter K)) (body : Expr K) (c : Option (Expr K))
    (a : Env K) : (Expr.sum its body c).value L a = do
      let xs ← enumerate L its c a fun inner => body.number L inner
      return .real (xs.foldl (· + ·) Scalar.zero) := by
  cases c <;> simp only [value] <;> rfl

/-- The value of a sum is the sum of the values of its body, one for each combination. -/
theorem gives_value_sum {body : Expr K} {v : Value K} (ht : t.Keyed)
    (h : ((Expr.sum its body c).value (known m) a).Gives t v) : ∃ fs xs, t.Admits m its c a fs ∧
      List.Forall₂ (fun f x => a.frames <:+ f ∧
        (body.number (known m) { a with frames := f }).Gives t x) fs xs ∧
      v = .real (xs.foldl (· + ·) Scalar.zero) := by
  rw [value_sum, gives_bind (steady_enumerate (steady_number body)) fun _ => steady_pure _] at h
  obtain ⟨xs, hxs, hv⟩ := h
  obtain ⟨fs, hfs, hxs⟩ := gives_enumerate
    (fun inner => exprNumber (known_keeps (Nat.le_refl m)) body (.refl inner)
      (.inl trivial)) ht hxs
  exact ⟨fs, xs, hfs, hxs, (gives_pure.1 hv).symm⟩

/-- A sum is replaced by a chain of its bodies, one for each combination. -/
theorem gives_substitute_sum {body e' : Expr K} (ht : t.Keyed)
    (h : ((Expr.sum its body c).substitute (known m) a).Gives t e') :
    ∃ fs es, t.Admits m its c a fs ∧ List.Forall₂ (fun f e => a.frames <:+ f ∧
        (body.substitute (known m) { a with frames := f }).Gives t e) fs es ∧
      e' = chain es := by
  have hvalue : (Expr.sum its body c).substitute (known m) a = do
      let es ← enumerate (known m) its c a fun inner => body.substitute (known m) inner
      return chain es := by
    cases c <;> simp only [substitute]
  rw [hvalue, gives_bind (steady_enumerate (steady_substitute body)) fun _ => steady_pure _] at h
  obtain ⟨es, hes, he'⟩ := h
  obtain ⟨fs, hfs, hes⟩ := gives_enumerate
    (fun inner => exprSubstitute (known_keeps (Nat.le_refl m)) trivial body (.refl inner)) ht hes
  exact ⟨fs, es, hfs, hes, (gives_pure.1 he').symm⟩

end Enumeration

end LinearModel
