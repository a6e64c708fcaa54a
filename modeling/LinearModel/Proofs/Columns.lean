import LinearModel.Proofs.Origins
import Mathlib.Data.List.Nodup

/-!
# Columns

The variables of a model are the columns of everything that is exported from it. In a built model no
table of coefficients names a variable twice, every variable has an origin, and as long as no
statement is added its declaration is found there. No coefficient has folded to zero, and the sides
of every equation stand in a relation that orders numbers. The columns come in the order in which
the variables first occur.
-/
namespace LinearModel

open Run Table

variable {K : Type} {α β : Type} {t : Table String (Expr K)} {o : Table String (Origin K)}
  {n : String} {f : LinearForm K} {m : Model K}

/-! ## Keys -/

namespace Table

variable {κ γ δ : Type} [BEq κ] [LawfulBEq κ]

/-- A key that is there already keeps its place, and a new one comes last. -/
theorem keys_insert (t : Table κ γ) (k : κ) (a : γ) :
    (t.insert k a).keys = if k ∈ t.keys then t.keys else t.keys ++ [k] := by
  obtain ⟨es⟩ := t
  simp only [keys, insert]
  induction es with
  | nil => simp [insertIn]
  | cons e es ih =>
    by_cases hek : e.1 = k
    · simp [insertIn, hek]
    · have hke : k ≠ e.1 := fun h => hek h.symm
      simp only [insertIn, beq_iff_eq, hek, if_false, List.map_cons, ih, List.mem_cons, hke,
        false_or]
      by_cases hk : k ∈ es.map (·.1) <;> simp [hk]

theorem mem_keys_insert {t : Table κ γ} {k k' : κ} {a : γ} :
    k' ∈ (t.insert k a).keys ↔ k' = k ∨ k' ∈ t.keys := by
  rw [keys_insert]
  split
  · rename_i hk
    exact ⟨.inr, fun h => h.elim (fun hkk => hkk ▸ hk) id⟩
  · simp only [List.mem_append, List.mem_singleton]
    exact or_comm

theorem mem_keys_insertAll {es : List (κ × γ)} {t : Table κ γ} {k : κ} :
    k ∈ (t.insertAll es).keys ↔ k ∈ es.map (·.1) ∨ k ∈ t.keys := by
  induction es generalizing t with
  | nil => simp [insertAll]
  | cons e es ih =>
    have hstep : t.insertAll (e :: es) = (t.insert e.1 e.2).insertAll es := rfl
    rw [hstep, ih, mem_keys_insert, List.map_cons, List.mem_cons, ← or_assoc]
    exact or_congr_left or_comm

end Table

/-! ## First occurrences -/

theorem firstOccurrences_concat (names : List String) (n : String) :
    firstOccurrences (names ++ [n]) = if n ∈ firstOccurrences names then firstOccurrences names
      else firstOccurrences names ++ [n] := by
  simp only [firstOccurrences, List.foldl_append, List.foldl_cons, List.foldl_nil,
    List.mem_reverse, List.contains_iff_mem]
  split <;> simp

theorem mem_firstOccurrences {names : List String} : n ∈ firstOccurrences names ↔ n ∈ names := by
  induction names using List.reverseRecOn with
  | nil => rfl
  | append_singleton names m ih =>
    rw [firstOccurrences_concat]
    split <;> grind

/-- A name comes before another one if it occurs before it. -/
theorem pairwise_firstOccurrences (names : List String) :
    (firstOccurrences names).Pairwise fun m n => names.idxOf m < names.idxOf n := by
  induction names using List.reverseRecOn with
  | nil => exact .nil
  | append_singleton names n ih =>
    have hold : (firstOccurrences names).Pairwise fun m m' =>
        (names ++ [n]).idxOf m < (names ++ [n]).idxOf m' := by
      refine ih.imp_of_mem fun hm hm' h => ?_
      rw [mem_firstOccurrences] at hm hm'
      rwa [List.idxOf_append_of_mem hm, List.idxOf_append_of_mem hm']
    rw [firstOccurrences_concat]
    split
    · exact hold
    · rename_i hn
      refine List.pairwise_append.2 ⟨hold, List.pairwise_singleton _ _, fun m hm m' hm' => ?_⟩
      rw [List.mem_singleton.1 hm']
      rw [mem_firstOccurrences] at hm hn
      rw [List.idxOf_append_of_mem hm, List.idxOf_append_of_notMem hn]
      exact Nat.lt_add_right _ (List.idxOf_lt_length_of_mem hm)

theorem nodup_firstOccurrences (names : List String) : (firstOccurrences names).Nodup :=
  (pairwise_firstOccurrences names).imp fun h heq => h.ne (congrArg (names.idxOf ·) heq)

/-! ## Linear forms -/

/-- No variable has two coefficients or one that folded to zero, and each one has an origin. -/
structure Traced [Scalar K] (coefficients : Table String (Expr K))
    (origins : Table String (Origin K)) : Prop where
  distinct : coefficients.keys.Nodup
  kept : ∀ c ∈ coefficients.toList, LinearForm.isDropped c.2 = false
  traced : ∀ n ∈ coefficients.keys, n ∈ origins.keys

namespace LinearForm

/-- Entering each occurrence under its name lists the names in order of first occurrence. -/
theorem keys_foldl {γ : Type} {step : Table String γ → Term K → Table String γ}
    (hoccurrence : ∀ t n b idx f, ∃ a, step t (.occurrence n b idx f) = t.insert n a)
    (hconstant : ∀ t e, step t (.constant e) = t) (ts : List (Term K)) :
    (ts.foldl step empty).keys = firstOccurrences ((references ts).map (·.1)) := by
  induction ts using List.reverseRecOn with
  | nil => rfl
  | append_singleton ts term ih =>
    cases term with
    | constant e => simpa [hconstant, references] using ih
    | occurrence n b idx f =>
      obtain ⟨a, ha⟩ := hoccurrence (ts.foldl step empty) n b idx f
      simp [ha, keys_insert, references, firstOccurrences_concat, ih]

theorem keys_factors (ts : List (Term K)) :
    (factors ts).keys = firstOccurrences ((references ts).map (·.1)) :=
  keys_foldl (fun _ _ _ _ _ => ⟨_, rfl⟩) (fun _ _ => rfl) ts

theorem keys_originsOf (ts : List (Term K)) :
    (originsOf ts).keys = firstOccurrences ((references ts).map (·.1)) :=
  keys_foldl (fun _ _ _ _ _ => ⟨_, rfl⟩) (fun _ _ => rfl) ts

theorem nodup_factors (ts : List (Term K)) : (factors ts).keys.Nodup :=
  keys_factors ts ▸ nodup_firstOccurrences _

variable [Scalar K] {r : Registry K} {ts : List (Term K)}

theorem names_collect {cs : List (String × Expr K)}
    (h : collect r ts = .ok cs) : cs.map (·.1) = (factors ts).keys := by
  have hnames : List.Forall₂ (fun (e : String × List (Expr K)) (c : String × Expr K) => e.1 = c.1)
      (factors ts).toList cs := by
    refine (forall₂_of_mapM_ok h).imp fun e c hc => ?_
    obtain ⟨x, _, hx⟩ := bind_eq_ok.1 hc
    exact congrArg Prod.fst (Except.ok.inj hx)
  have hmap : List.Forall₂ Eq ((factors ts).toList.map (·.1)) (cs.map (·.1)) := by
    rwa [List.forall₂_map_left_iff, List.forall₂_map_right_iff]
  exact (List.forall₂_eq_eq_eq ▸ hmap : (factors ts).toList.map (·.1) = cs.map (·.1)).symm

/-- The names in a linear form come in order of first occurrence, and each has its origin. -/
theorem keys_ofTerms (h : ofTerms r ts = .ok f) :
    f.coefficients.keys.Sublist (firstOccurrences ((references ts).map (·.1))) ∧
      f.origins.keys = f.coefficients.keys := by
  obtain ⟨cs, hcs, h⟩ := bind_eq_ok.1 h
  obtain ⟨constant, _, h⟩ := bind_eq_ok.1 h
  cases h
  have hnames := names_collect hcs
  refine ⟨keys_factors ts ▸ hnames ▸ List.filter_sublist.map _, ?_⟩
  simp only [Table.keys, List.map_filterMap]
  rw [← List.filterMap_eq_map]
  refine List.filterMap_congr fun c hc => ?_
  have hmem : c.1 ∈ (originsOf ts).keys := by
    rw [keys_originsOf, ← keys_factors, ← hnames]
    exact List.mem_map_of_mem (List.mem_of_mem_filter hc)
  obtain ⟨o, ho⟩ := mem_keys_iff.1 hmem
  simp [ho]

theorem traced_ofTerms (h : ofTerms r ts = .ok f) : Traced f.coefficients f.origins := by
  obtain ⟨hsub, horigins⟩ := keys_ofTerms h
  refine ⟨(nodup_firstOccurrences _).sublist hsub, ?_, fun n hn => horigins ▸ hn⟩
  obtain ⟨cs, _, h⟩ := bind_eq_ok.1 h
  obtain ⟨constant, _, h⟩ := bind_eq_ok.1 h
  cases h
  exact fun c hc => by simpa using (List.mem_filter.1 hc).2

end LinearForm

/-! ## Models -/

theorem Model.nodup_variableNames (m : Model K) : m.variableNames.Nodup := nodup_firstOccurrences _

theorem Model.mem_variableNames : n ∈ m.variableNames ↔ ∃ t ∈ m.coefficientTables, n ∈ t.keys := by
  simp only [variableNames, mem_firstOccurrences, List.mem_flatten, List.mem_map]
  constructor
  · rintro ⟨_, ⟨t, ht, rfl⟩, hn⟩
    exact ⟨t, ht, hn⟩
  · rintro ⟨t, ht, hn⟩
    exact ⟨_, ⟨t, ht, rfl⟩, hn⟩

theorem Model.mem_coefficientTables : t ∈ m.coefficientTables ↔
      (∃ o, m.objective = some o ∧ o.coefficients = t) ∨ ∃ q ∈ m.equations, q.coefficients = t := by
  simp [coefficientTables]

variable [Scalar K]

/-- A model without repeated or dropped coefficients, in which each variable has an origin and the
sides of each equation are related. -/
structure Model.IsRegular (m : Model K) : Prop where
  relates : ∀ q ∈ m.equations, q.op.relatesSides = true
  traced : ∀ t ∈ m.coefficientTables, Traced t m.origins

theorem Model.isRegular_empty : ({} : Model K).IsRegular :=
  ⟨by simp, by simp [Model.coefficientTables]⟩

theorem Model.IsRegular.distinct (hm : m.IsRegular) {q : Equation K}
    (hq : q ∈ m.equations) : q.coefficients.keys.Nodup :=
  (hm.traced _ (mem_coefficientTables.2 (.inr ⟨q, hq, rfl⟩))).distinct

omit [Scalar K] in
theorem Model.mem_variableNames_of_equation {q : Equation K} (hq : q ∈ m.equations)
    (hn : n ∈ q.coefficients.keys) : n ∈ m.variableNames :=
  mem_variableNames.2 ⟨_, mem_coefficientTables.2 (.inr ⟨q, hq, rfl⟩), hn⟩

theorem Traced.extend (h : Traced t o) (es : List (String × Origin K)) :
    Traced t (o.insertAll es) :=
  ⟨h.distinct, h.kept, fun n hn => mem_keys_insertAll.2 (.inr (h.traced n hn))⟩

theorem Traced.entered {u : Table String (Origin K)} (h : Traced t u) :
    Traced t (o.insertAll u.toList) :=
  ⟨h.distinct, h.kept, fun n hn => mem_keys_insertAll.2 (.inl (h.traced n hn))⟩

theorem Traced.merged {us : List (Table String (Origin K))} {u : Table String (Origin K)}
    (h : Traced t u) (hu : u ∈ us) : Traced t (mergeOrigins us) := by
  have hfold : ∀ (us : List (Table String (Origin K))) (o : Table String (Origin K)),
      Traced t o ∨ u ∈ us → Traced t (us.foldl (fun t u => t.insertAll u.toList) o) := by
    intro us
    induction us with
    | nil => exact fun o ho => ho.elim id (by simp)
    | cons v us ih =>
      intro o ho
      refine ih _ ?_
      obtain ho | ho := ho
      · exact .inl (ho.extend _)
      · obtain rfl | ho := List.mem_cons.1 ho
        exacts [.inl h.entered, .inr ho]
  exact hfold us empty (.inr hu)

/-- A problem with a regular model, whose variables are declared as long as it is up to date. -/
structure Problem.IsRegular (p : Problem K) : Prop where
  model : p.model.IsRegular
  declared : p.isBuilt = true → ∀ n ∈ p.model.variableNames, ∃ v, p.declarationOf n = some v

theorem Problem.IsRegular.of_same {p q : Problem K} (hp : p.IsRegular) (hmodel : q.model = p.model)
    (hbuilt : q.isBuilt = p.isBuilt) (hvars : q.registry.vars = p.registry.vars) : q.IsRegular where
  model := hmodel ▸ hp.model
  declared h n hn := by
    simp only [Problem.declarationOf, hmodel, hvars] at hn ⊢
    exact hp.declared (hbuilt ▸ h) n hn

theorem linearize_traced {e : Expr K} {env : Env K} {s s' : Store K}
    (h : (linearize e env).Returns s f s') : Traced f.coefficients f.origins := by
  obtain ⟨ts, _, hf⟩ := returns_linearize.1 h
  exact LinearForm.traced_ofTerms hf

/-- The equation of a constraint relates its sides. -/
theorem Constraint.expand_traced (c : Constraint K) (env : Env K) :
    (c.expand env).Shadows (c.expand env) fun d _ =>
      d.1.op.relatesSides = true ∧ Traced d.1.coefficients d.2 := by
  intro s d s' h
  refine ⟨d, h, ?_⟩
  obtain ⟨name, s₁, hname, h⟩ := returns_bind.1 (returns_mapFailure.1 h)
  simp only [formulate] at h
  split at h
  · obtain ⟨_, _, hfail, _⟩ := returns_bind.1 h
    exact absurd hfail not_returns_fail
  · rename_i hop
    simp only [returns_bind, returns_registry, returns_ofExcept, returns_pure] at h
    obtain ⟨f, s₂, hf, _, _, ⟨rfl, rfl⟩, x, _, ⟨_, rfl⟩, rfl, rfl⟩ := h
    exact ⟨by simpa using hop, linearize_traced hf⟩

theorem Rule.equations_traced {R : Rule K} {s s' : Store K} {E : List (Equation K)}
    (h : R.equations.Returns s (E, o) s') :
    ∀ q ∈ E, q.op.relatesSides = true ∧ Traced q.coefficients o := by
  obtain ⟨ds, s₁, hds, h⟩ := returns_bind.1 (returns_mapFailure.1 h)
  obtain ⟨hE, rfl⟩ := returns_pure.1 h
  obtain ⟨rfl, rfl⟩ := Prod.mk.inj hE
  obtain ⟨_, _, hall⟩ := Rule.forEach_shadows Constraint.expand_traced R Env.empty hds
  intro q hq
  obtain ⟨d, hd, rfl⟩ := List.mem_map.1 hq
  obtain ⟨_, _, hop, htraced⟩ := exists_of_forall₂ hall hd
  exact ⟨hop, htraced.merged (List.mem_map_of_mem hd)⟩

theorem Model.IsRegular.extend {m m' : Model K} {stmt : Statement K} {s s' : Store K}
    (hm : m.IsRegular) (h : (m.extend stmt).Returns s m' s') : m'.IsRegular := by
  cases stmt with
  | rule R =>
    obtain ⟨⟨E, o⟩, s₁, hE, h⟩ := returns_bind.1 h
    obtain ⟨rfl, rfl⟩ := returns_pure.1 h
    have hnew := Rule.equations_traced hE
    refine ⟨fun q hq => ?_, fun t ht => ?_⟩
    · obtain hq | hq := List.mem_append.1 hq
      exacts [hm.relates q hq, (hnew q hq).1]
    · obtain ⟨o', ho', rfl⟩ | ⟨q, hq, rfl⟩ := mem_coefficientTables.1 ht
      · exact (hm.traced _ (mem_coefficientTables.2 (.inl ⟨o', ho', rfl⟩))).extend _
      · obtain hq | hq := List.mem_append.1 hq
        · exact (hm.traced _ (mem_coefficientTables.2 (.inr ⟨q, hq, rfl⟩))).extend _
        · exact (hnew q hq).2.entered
  | goal g =>
    obtain ⟨⟨objective, o⟩, s₁, hobjective, h⟩ := returns_bind.1 h
    obtain ⟨rfl, rfl⟩ := returns_pure.1 h
    obtain ⟨f, s₂, hf, h⟩ := returns_bind.1 (returns_mapFailure.1 hobjective)
    obtain ⟨hpair, rfl⟩ := returns_pure.1 h
    obtain ⟨rfl, rfl⟩ := Prod.mk.inj hpair
    refine ⟨hm.relates, fun t ht => ?_⟩
    obtain ⟨o', ho', rfl⟩ | ⟨q, hq, rfl⟩ := mem_coefficientTables.1 ht
    · obtain rfl := Option.some.inj ho'
      exact (linearize_traced hf).entered
    · exact (hm.traced _ (mem_coefficientTables.2 (.inr ⟨q, hq, rfl⟩))).extend _
  | declaration literal entity | ignored literal =>
    obtain ⟨rfl, rfl⟩ := returns_pure.1 h
    exact hm

theorem Model.isRegular_of_statements {symbol : String} {stmts : List (Statement K)}
    {s s' : Store K} (h : (Model.ofStatements symbol stmts).Returns s m s') : m.IsRegular := by
  have hfold : ∀ (stmts : List (Statement K)) {m m' : Model K} {s s' : Store K}, m.IsRegular →
      (stmts.foldlM Model.extend m).Returns s m' s' → m'.IsRegular := by
    intro stmts
    induction stmts with
    | nil =>
      intro m m' s s' hm h
      obtain ⟨rfl, _⟩ := returns_pure.1 h
      exact hm
    | cons stmt stmts ih =>
      intro m m' s s' hm h
      obtain ⟨m₁, s₁, h₁, h⟩ := returns_bind.1 h
      exact ih (hm.extend h₁) h
  obtain ⟨m', s₁, hm, h⟩ := returns_bind.1 h
  obtain ⟨_, _, rfl⟩ := returns_bind_pure.1 h
  exact hfold stmts Model.isRegular_empty hm

/-! ## Problems -/

/-- Adding a statement keeps the model, which is then out of date. -/
theorem Work.model_of_addStatement {textual : Bool} {text : String} {w w' : Workspace K}
    {stmt : Statement K} (h : (addStatement textual text).Returns w stmt w') :
    w'.problem.model = w.problem.model ∧ w'.problem.isBuilt = false := by
  obtain ⟨stmt', w₁, hread, h⟩ := returns_bind.1 h
  obtain ⟨s', hs', rfl⟩ := returns_ofRun.1 hread
  replace h := returns_problem_bind.1 h
  unfold Problem.add at h
  split at h
  · rename_i p' hadd
    obtain ⟨_, w₃, hset, h⟩ := returns_bind.1 h
    obtain rfl := returns_setProblem.1 hset
    obtain ⟨rfl, rfl⟩ := returns_pure.1 h
    split at hadd
    · cases hadd
    · cases hadd
      exact ⟨rfl, rfl⟩
  · exact absurd h not_returns_throw

/-- Every problem that is reached is regular. -/
theorem Problem.Reached.isRegular {p : Problem K} (h : p.Reached) : p.IsRegular := by
  induction h with
  | start name file description => exact ⟨Model.isRegular_empty, fun h => by cases h⟩
  | added _ h ih =>
    obtain ⟨hmodel, hbuilt⟩ := Work.model_of_addStatement h
    exact ⟨hmodel ▸ ih.model, fun h => by rw [hbuilt] at h; cases h⟩
  | @data w w' x _ hx h ih =>
    obtain ⟨s', hs', rfl⟩ := Work.returns_ofRun.1 h
    obtain ⟨⟨hvars, _⟩, _⟩ := hx.leads (Registry.renewed_declared w.problem.registry)
      ⟨rfl, rfl⟩ hs'
    exact ih.of_same rfl rfl hvars
  | @evaluated w w' e env v _ h ih =>
    obtain ⟨s', hs', rfl⟩ := Work.returns_ofRun.1 h
    obtain ⟨⟨hvars, _⟩, _⟩ := Progress.declared_absorbs.evaluateValue e env trivial hs'
    exact ih.of_same rfl rfl hvars
  | @built w w' hw h ih =>
    obtain ⟨_, qs, _, _, _, hrefers, hnames⟩ := hw.isDeclared.build h
    obtain ⟨m, s', hm, hw'⟩ := Work.returns_build h
    have hmodel : w'.problem.model.IsRegular := by
      rw [hw']
      exact Model.isRegular_of_statements hm
    refine ⟨hmodel, fun _ n hn => ?_⟩
    obtain ⟨t, ht, hkey⟩ := Model.mem_variableNames.1 hn
    obtain ⟨o, ho⟩ := mem_keys_iff.1 ((hmodel.traced t ht).traced n hkey)
    obtain ⟨v, hv, _⟩ := (hnames _ (hrefers.origins _ (mem_of_find? ho))).declared
    exact ⟨v, by simp [Problem.declarationOf, ho, hv]⟩

/-! ## Order -/

/-- The coefficients of a linear form come in the order in which their variables first occur when
the substituted expression is read from left to right, with decision expressions replaced by their
bodies, and the origins come in the same order. So the columns of a model come in order of first
occurrence in the objective and then in the equations. -/
theorem coefficients_in_reading_order {e : Expr K} {env : Env K} {s s' : Store K} {f : LinearForm K}
    (h : (linearize e env).Returns s f s') :
    (∃ e' s₁ qs, (e.substitute s.registry.lookup env).Returns s e' s₁ ∧
      (∀ G : Progress K, (Simulation.advancing G).Lookups s.registry.lookup s.registry.lookup →
        G.holds s.registry → Reads G s.registry.lookup s'.registry [(env, e')] qs) ∧
      f.coefficients.keys.Nodup ∧
      f.coefficients.keys.Sublist (firstOccurrences (qs.map (·.1))) ∧
      f.origins.keys = f.coefficients.keys) ∧
    ∀ m : Model K, (∀ n, n ∈ m.variableNames ↔ n ∈ (m.coefficientTables.map (·.keys)).flatten) ∧
      m.variableNames.Pairwise fun a b => (m.coefficientTables.map (·.keys)).flatten.idxOf a <
        (m.coefficientTables.map (·.keys)).flatten.idxOf b := by
  refine ⟨?_, fun m => ⟨fun _ => mem_firstOccurrences, pairwise_firstOccurrences _⟩⟩
  obtain ⟨ts, hts, hf⟩ := returns_linearize.1 h
  obtain ⟨hsub, horigins⟩ := LinearForm.keys_ofTerms hf
  simp only [affineTerms, Run.lookup, bind_assoc, pure_bind] at hts
  obtain ⟨e', s₁, he', hts⟩ := returns_bind.1 (returns_registry_bind.1 hts)
  replace hts := returns_registry_bind.1 hts
  refine ⟨e', s₁, references ts, he', fun G hL hs => ?_, (nodup_firstOccurrences _).sublist hsub,
    hsub, horigins⟩
  have hs₁ := G.kept hs (Simulation.exprSubstitute hL trivial e rfl hs he').1
  have hpasses := (terms_read hL (descent_reads hL _) e' _ env hs₁ hts).2 (G.refl _)
  simpa using hpasses .nil

/-- The difference of two variables. -/
def sharedSpread : Store ℚ where
  registry := { dexprs := ⟨[("spread", {
    symbol := "spread"
    type := "float"
    body := .arith .sub (.var "y" "y" none) (.var "x" "x" none) })]⟩ }

/-- A variable that cancels out, before the difference and one of its variables. -/
def spreadAfterZero : Expr ℚ :=
  .arith .add (.arith .sub (.var "z" "z" none) (.var "z" "z" none))
    (.arith .add (.dexpr "spread" none) (.arith .mul (.num 2) (.var "x" "x" none)))

theorem coefficients_in_reading_order_spread : ∃ f s',
    (linearize spreadAfterZero Env.empty).Returns sharedSpread f s' ∧
    f.coefficients.keys = ["y", "x"] ∧ f.origins.keys = ["y", "x"] ∧
    ∃ qs, Reads Progress.declared sharedSpread.registry.lookup s'.registry
      [(Env.empty, spreadAfterZero)] qs ∧
      f.coefficients.keys.Sublist (firstOccurrences (qs.map (·.1))) := by
  have hrun : ((do return (← linearize spreadAfterZero Env.empty).coefficients.keys :
      Run ℚ (List String)).start sharedSpread).1.toOption = some ["y", "x"] := by
    decide +kernel
  obtain ⟨s', h⟩ := returns_of_toOption hrun
  obtain ⟨f, _, hf, h⟩ := returns_bind.1 h
  obtain ⟨hkeys, rfl⟩ := returns_pure.1 h
  obtain ⟨⟨e', s₁, qs, he', hreads, _, hsub, horigins⟩, -⟩ := coefficients_in_reading_order hf
  have hsame : (spreadAfterZero.substitute sharedSpread.registry.lookup Env.empty).Returns
      sharedSpread spreadAfterZero sharedSpread := rfl
  obtain rfl : spreadAfterZero = e' := (hsame.unique he').1
  exact ⟨f, _, hf, hkeys, horigins.trans hkeys, qs,
    hreads _ (Progress.declared_absorbs.lookups _) trivial, hsub⟩

end LinearModel
