import LinearModel.Proofs.Occurrence
import LinearModel.Problem

/-!
# Built models

Building a model forgets where its coefficients come from. The references behind them can be listed
by going through the statements in the same way once more. Every variable of the model, and every
entry of its origins, is among them.
-/
namespace LinearModel

open Run Table

variable {K : Type} {α β : Type} {ts : List (Term K)} {q : Reference K} {m : Model K}

namespace Table

variable {κ γ : Type} [BEq κ] [LawfulBEq κ] {t : Table κ γ}

theorem mem_of_find? {k : κ} {a : γ} (h : t.find? k = some a) : (k, a) ∈ t.toList := by
  obtain ⟨k', hmem, hk⟩ := exists_of_find? h
  rwa [LawfulBEq.eq_of_beq hk] at hmem

theorem mem_insert {k : κ} {a : γ} {q : κ × γ} (h : q ∈ (t.insert k a).toList) :
    q = (k, a) ∨ q ∈ t.toList := by
  obtain hold | ⟨hkey, hvalue⟩ := mem_insert_beq h
  · exact .inr hold
  · exact .inl (Prod.ext (hkey.elim id fun ⟨_, _, hk⟩ => LawfulBEq.eq_of_beq hk) hvalue)

theorem mem_insertAll {es : List (κ × γ)} {q : κ × γ}
    (h : q ∈ (t.insertAll es).toList) : q ∈ es ∨ q ∈ t.toList := by
  induction es generalizing t with
  | nil => exact .inr h
  | cons e es ih =>
    rcases ih h with h | h
    · exact .inl (List.mem_cons_of_mem e h)
    · rcases mem_insert h with rfl | h
      · exact .inl List.mem_cons_self
      · exact .inr h

end Table

/-- The variables of a linear form, and their origins, are among some references. -/
structure Covers (qs : List (Reference K)) (coefficients : Table String (Expr K))
    (origins : Table String (Origin K)) : Prop where
  coefficients : ∀ n ∈ coefficients.keys, ∃ o, (n, o) ∈ qs
  origins : ∀ q ∈ origins.toList, q ∈ qs

namespace LinearForm

theorem mem_foldl_origins {t : Table String (Origin K)}
    (h : q ∈ (ts.foldl (fun t term => match term with
      | .occurrence n b idx _ => t.insert n (b, idx)
      | .constant _ => t) t).toList) :
    q ∈ references ts ∨ q ∈ t.toList := by
  induction ts generalizing t with
  | nil => exact .inr h
  | cons term ts ih =>
    cases term with
    | constant e => exact ih h
    | occurrence n b idx f =>
      rcases ih h with h | h
      · exact .inl (List.mem_cons_of_mem _ h)
      · rcases mem_insert h with rfl | h
        · exact .inl List.mem_cons_self
        · exact .inr h

theorem mem_originsOf (h : q ∈ (originsOf ts).toList) : q ∈ references ts := by
  rcases mem_foldl_origins h with h | h
  · exact h
  · cases h

theorem mem_factors {e : String × List (Expr K)} (h : e ∈ (factors ts).toList) :
    ∃ o, (e.1, o) ∈ references ts := by
  have hfold : ∀ (ts : List (Term K)) (t : Table String (List (Expr K))),
      e ∈ (ts.foldl addFactor t).toList →
        (∃ o, (e.1, o) ∈ references ts) ∨ e.1 ∈ t.keys := by
    intro ts
    induction ts with
    | nil => exact fun t h => .inr (List.mem_map_of_mem h)
    | cons term ts ih =>
      intro t h
      cases term with
      | constant c => exact ih t h
      | occurrence n b idx f =>
        rcases ih _ h with ⟨o, ho⟩ | h
        · exact .inl ⟨o, List.mem_cons_of_mem _ ho⟩
        · obtain ⟨e', he', hkey⟩ := List.mem_map.1 h
          rcases mem_insert he' with rfl | he'
          · exact .inl ⟨(b, idx), hkey ▸ List.mem_cons_self⟩
          · exact .inr (hkey ▸ List.mem_map_of_mem he')
  rcases hfold ts empty h with h | h
  · exact h
  · cases h

end LinearForm

theorem exists_of_forall₂ {R : α → β → Prop} {as : List α} {bs : List β}
    (h : List.Forall₂ R as bs) {a : α} (ha : a ∈ as) : ∃ b ∈ bs, R a b := by
  induction h with
  | nil => cases ha
  | cons hab _ ih =>
    rcases List.mem_cons.1 ha with rfl | ha
    · exact ⟨_, List.mem_cons_self, hab⟩
    · obtain ⟨b, hb, hR⟩ := ih ha
      exact ⟨b, List.mem_cons_of_mem _ hb, hR⟩

theorem mem_mergeOrigins {ts : List (Table String (Origin K))}
    (h : q ∈ (mergeOrigins ts).toList) : ∃ t ∈ ts, q ∈ t.toList := by
  have hfold : ∀ (ts : List (Table String (Origin K))) (t : Table String (Origin K)),
      q ∈ (ts.foldl (fun t u => t.insertAll u.toList) t).toList →
        (∃ u ∈ ts, q ∈ u.toList) ∨ q ∈ t.toList := by
    intro ts
    induction ts with
    | nil => exact fun t h => .inr h
    | cons u ts ih =>
      intro t h
      rcases ih _ h with ⟨u', hu', hq⟩ | h
      · exact .inl ⟨u', List.mem_cons_of_mem u hu', hq⟩
      · exact (mem_insertAll h).imp_left fun hq => ⟨u, List.mem_cons_self, hq⟩
  rcases hfold ts empty h with h | h
  · exact h
  · cases h

/-- The variables of a model, and their origins, are among some references. -/
structure Model.RefersTo (m : Model K) (qs : List (Reference K)) : Prop where
  objective : ∀ o, m.objective = some o → ∀ n ∈ o.coefficients.keys, ∃ o, (n, o) ∈ qs
  equations : ∀ q ∈ m.equations, ∀ n ∈ q.coefficients.keys, ∃ o, (n, o) ∈ qs
  origins : ∀ q ∈ m.origins.toList, q ∈ qs

theorem Model.RefersTo.mono {qs qs' : List (Reference K)} (h : m.RefersTo qs)
    (hsub : ∀ q ∈ qs, q ∈ qs') : m.RefersTo qs' where
  objective o ho n hn := (h.objective o ho n hn).imp fun _ => hsub _
  equations q hq n hn := (h.equations q hq n hn).imp fun _ => hsub _
  origins q hq := hsub q (h.origins q hq)

variable [Scalar K]

namespace LinearForm

theorem covers_ofTerms {r : Registry K} {f : LinearForm K} (h : ofTerms r ts = .ok f) :
    Covers (references ts) f.coefficients f.origins := by
  obtain ⟨cs, hcs, h⟩ := bind_eq_ok.1 h
  obtain ⟨constant, _, h⟩ := bind_eq_ok.1 h
  cases h
  constructor
  · intro n hn
    obtain ⟨c, hc, rfl⟩ := List.mem_map.1 hn
    obtain ⟨i, hi, rfl⟩ := List.mem_iff_getElem.1 (List.mem_of_mem_filter hc)
    have hall := forall₂_of_mapM_ok hcs
    have hi' : i < (factors ts).toList.length := hall.length_eq ▸ hi
    obtain ⟨e, _, he⟩ := bind_eq_ok.1 (hall.get hi' hi)
    obtain ⟨o, ho⟩ := mem_factors (List.getElem_mem hi')
    have hname : cs[i].1 = (factors ts).toList[i].1 := (congrArg Prod.fst (Except.ok.inj he)).symm
    exact ⟨o, hname ▸ ho⟩
  · intro q hq
    obtain ⟨c, _, hq⟩ := List.mem_filterMap.1 hq
    obtain ⟨o, ho, rfl⟩ := Option.map_eq_some_iff.1 hq
    exact mem_originsOf (mem_of_find? ho)

end LinearForm

/-! ## Statements -/

/-- The references behind a linear form are listed with it. -/
theorem linearize_shadows (e : Expr K) (env : Env K) :
    (linearize e env).Shadows (do return references (← affineTerms e env)) fun f qs =>
      Covers qs f.coefficients f.origins := by
  intro s f s' h
  obtain ⟨ts, hts, hf⟩ := returns_linearize.1 h
  exact ⟨_, returns_bind.2 ⟨ts, s', hts, returns_pure.2 ⟨rfl, rfl⟩⟩, LinearForm.covers_ofTerms hf⟩

theorem Constraint.references_shadows (c : Constraint K) (env : Env K) :
    (c.expand env).Shadows (c.references env) fun d qs => Covers qs d.1.coefficients d.2 := by
  intro s d s' h
  obtain ⟨name, s₁, hname, h⟩ := returns_bind.1 (returns_mapFailure.1 h)
  simp only [formulate] at h
  split at h
  · obtain ⟨_, _, hfail, _⟩ := returns_bind.1 h
    exact absurd hfail not_returns_fail
  · simp only [returns_bind, returns_registry, returns_ofExcept, returns_pure] at h
    obtain ⟨f, s₂, hf, _, _, ⟨rfl, rfl⟩, x, _, ⟨_, rfl⟩, rfl, rfl⟩ := h
    obtain ⟨qs, hqs, hcovers⟩ := linearize_shadows _ env hf
    exact ⟨qs, returns_bind.2 ⟨name, s₁, hname, hqs⟩, hcovers⟩

/-- The equations of a rule refer to what its constraints refer to. -/
theorem Rule.references_shadows (R : Rule K) :
    R.equations.Shadows (Statement.rule R).references fun p qs =>
      (∀ q ∈ p.1, ∀ n ∈ q.coefficients.keys, ∃ o, (n, o) ∈ qs) ∧ ∀ q ∈ p.2.toList, q ∈ qs := by
  intro s p s' h
  obtain ⟨ds, s₁, hds, h⟩ := returns_bind.1 (returns_mapFailure.1 h)
  obtain ⟨rfl, rfl⟩ := returns_pure.1 h
  obtain ⟨qss, hqss, hall⟩ := Rule.forEach_shadows Constraint.references_shadows R Env.empty hds
  refine ⟨_, returns_bind.2 ⟨qss, s₁, hqss, returns_pure.2 ⟨rfl, rfl⟩⟩, ?_, ?_⟩
  · intro q hq n hn
    obtain ⟨d, hd, rfl⟩ := List.mem_map.1 hq
    obtain ⟨qs, hqs, hcovers⟩ := exists_of_forall₂ hall hd
    obtain ⟨o, ho⟩ := hcovers.coefficients n hn
    exact ⟨o, List.mem_flatten.2 ⟨qs, hqs, ho⟩⟩
  · intro q hq
    obtain ⟨t, ht, hqt⟩ := mem_mergeOrigins hq
    obtain ⟨d, hd, rfl⟩ := List.mem_map.1 ht
    obtain ⟨qs, hqs, hcovers⟩ := exists_of_forall₂ hall hd
    exact List.mem_flatten.2 ⟨qs, hqs, hcovers.origins q hqt⟩

theorem Goal.references_shadows (g : Goal K) :
    g.objective.Shadows (Statement.goal g).references fun p qs =>
      Covers qs p.1.coefficients p.2 := by
  intro s p s' h
  obtain ⟨f, hf, rfl⟩ := returns_bind_pure.1 (returns_mapFailure.1 h)
  exact linearize_shadows g.body Env.empty hf

/-! ## Models -/

theorem Model.extend_shadows {before : List (Reference K)} (hm : m.RefersTo before)
    (stmt : Statement K) :
    (m.extend stmt).Shadows stmt.references fun m' qs => m'.RefersTo (before ++ qs) := by
  have hbefore : ∀ qs, m.RefersTo (before ++ qs) := fun qs => hm.mono fun q hq =>
    List.mem_append_left qs hq
  cases stmt with
  | rule R =>
    intro s m' s' h
    obtain ⟨⟨E, o⟩, s₁, hequations, h⟩ := returns_bind.1 h
    obtain ⟨rfl, rfl⟩ := returns_pure.1 h
    obtain ⟨qs, hqs, hE, ho⟩ := R.references_shadows hequations
    refine ⟨qs, hqs, (hbefore qs).objective, ?_, ?_⟩
    · intro q hq n hn
      rcases List.mem_append.1 hq with hq | hq
      · exact (hbefore qs).equations q hq n hn
      · exact (hE q hq n hn).imp fun _ => List.mem_append_right before
    · intro q hq
      rcases mem_insertAll hq with hq | hq
      · exact List.mem_append_right before (ho q hq)
      · exact (hbefore qs).origins q hq
  | goal g =>
    intro s m' s' h
    obtain ⟨⟨objective, o⟩, s₁, hobjective, h⟩ := returns_bind.1 h
    obtain ⟨rfl, rfl⟩ := returns_pure.1 h
    obtain ⟨qs, hqs, hcovers⟩ := g.references_shadows hobjective
    refine ⟨qs, hqs, ?_, (hbefore qs).equations, ?_⟩
    · rintro _ ⟨⟩ n hn
      exact (hcovers.coefficients n hn).imp fun _ => List.mem_append_right before
    · intro q hq
      rcases mem_insertAll hq with hq | hq
      · exact List.mem_append_right before (hcovers.origins q hq)
      · exact (hbefore qs).origins q hq
  | declaration literal entity | ignored literal => exact shadows_pure (hbefore [])

theorem Model.extendAll_shadows (stmts : List (Statement K)) :
    ∀ {m : Model K} {before : List (Reference K)}, m.RefersTo before →
      (stmts.foldlM Model.extend m).Shadows (stmts.mapM Statement.references) fun m' qss =>
        m'.RefersTo (before ++ qss.flatten) := by
  induction stmts with
  | nil =>
    intro m before hm
    exact shadows_pure (by simpa using hm)
  | cons stmt stmts ih =>
    intro m before hm
    simp only [List.foldlM_cons, List.mapM_cons]
    refine (Model.extend_shadows hm stmt).bind fun m' qs hm' s m'' s' h => ?_
    obtain ⟨qss, hqss, hm''⟩ := ih hm' h
    refine ⟨qs :: qss, returns_bind.2 ⟨qss, s', hqss, returns_pure.2 ⟨rfl, rfl⟩⟩, ?_⟩
    simpa using hm''

/-- The references of the statements of a model can be listed as it is built, and the model refers
to nothing else. -/
theorem Model.ofStatements_refersTo {symbol : String} {stmts : List (Statement K)}
    {s s' : Store K} (h : (Model.ofStatements symbol stmts).Returns s m s') :
    ∃ qs s₁, (referencesOf stmts).Returns s qs s₁ ∧ s₁.registry = s'.registry ∧ m.RefersTo qs := by
  obtain ⟨m', s₁, hm, h⟩ := returns_bind.1 h
  obtain ⟨_, hwarned, rfl⟩ := returns_bind_pure.1 h
  have hempty : ({} : Model K).RefersTo [] := ⟨by simp, by simp, fun q hq => by cases hq⟩
  obtain ⟨qss, hqss, hrefers⟩ := Model.extendAll_shadows stmts hempty hm
  refine ⟨qss.flatten, s₁, returns_bind.2 ⟨qss, s₁, hqss, returns_pure.2 ⟨rfl, rfl⟩⟩, ?_, ?_⟩
  · exact (steady_forM _ (fun _ => steady_warn _) hwarned).1.symm
  · simpa using hrefers

end LinearModel
