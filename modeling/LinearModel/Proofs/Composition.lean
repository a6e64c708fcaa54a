import LinearModel.Proofs.Combinations
import LinearModel.Proofs.Expansion
import LinearModel.Proofs.FailedBuild
import LinearModel.Proofs.Repetition

/-!
# Expansion by parts

Where all derived parameters have been evaluated, folding finds the same values whenever it looks,
so an expansion gives the same whenever it is repeated. The equations of a family are therefore
those of its parts, one combination after the other, all seen from the registry that is left in the
end.

A family that holds nothing but another family is one family over the iterators of both. This needs
no values at all: both go through the same domains, filters and conditions in the same order.
-/
namespace LinearModel

open Run Expr Simulation Rule Iter

variable {K : Type} {α β : Type} {x y : Run K α}

/-! ## Computations that recur -/

namespace Run

/-- From a registry on, a computation returns the same in all later ones. -/
def Recurs (x : Run K α) (t : Registry K) (a : α) : Prop := ∀ u, t.KeptIn u → x.Repeats u a

variable {t : Registry K} {a : α}

theorem Recurs.repeats (h : x.Recurs t a) : x.Repeats t a := h t (.refl t)

theorem recurs_pure : (pure a : Run K α).Recurs t a := fun _ _ => repeats_pure

theorem Recurs.bind {f : α → Run K β} {b : β} (hx : x.Recurs t a)
    (hf : (f a).Recurs t b) : (x >>= f).Recurs t b :=
  fun u hu => (hx u hu).bind fun v hv => hf v (hu.trans hv)

theorem recurs_mapM {f : α → Run K β} {as : List α} {bs : List β}
    (h : List.Forall₂ (fun a b => (f a).Recurs t b) as bs) : (as.mapM f).Recurs t bs :=
  fun _ hu => repeats_mapM fun v hv => h.imp fun _ _ hab => hab v (hu.trans hv)

end Run

/-! ## Registries in which derived parameters have been evaluated -/

/-- No parameter is left to be evaluated. -/
def Registry.IsSettled (r : Registry K) : Prop :=
  ∀ s p, r.params.find? s = some p → p.isSettled = true

theorem Registry.IsSettled.find?_eq {r t : Registry K} (hr : r.IsSettled) (h : r.KeptIn t)
    (s : String) : r.params.find? s = t.params.find? s := by
  cases hp : r.params.find? s with
  | none => rw [h.params.find_none hp]
  | some p =>
    obtain ⟨q, hq, hpq⟩ := h.params.find hp
    rw [hq, hpq.settled (hr s p hp)]

/-- What is known is only added to, in a registry in which no parameter is left to be evaluated. -/
def Progress.settled : Progress K where
  holds r := r.Keyed ∧ r.IsSettled
  later := Registry.KeptIn
  refl := .refl
  trans := .trans
  kept hr h := ⟨hr.1.kept h, fun s p hp => hr.2 s p ((hr.2.find?_eq h s).trans hp)⟩

/-- The environment with iterators bound to values, from left to right. -/
def Env.bindAll (env : Env K) : List (Iter K) → List (Value K) → Env K
  | it :: its, v :: vs => (env.bind it.symbol v).bindAll its vs
  | _, _ => env

namespace Env

theorem get?_bindAll {s : String} : ∀ {its : List (Iter K)} (env : Env K) (vs : List (Value K)),
    s ∉ its.map symbol → (env.bindAll its vs).get? s = env.get? s
  | [], env, vs, _ | _ :: _, env, [], _ => by simp only [bindAll]
  | it :: its, env, v :: vs, hs => by
    rw [List.map_cons, List.mem_cons, not_or] at hs
    rw [bindAll, get?_bindAll (env.bind it.symbol v) vs hs.2, get?_bind_of_ne _ _ (Ne.symm hs.1)]

/-- Iterators with symbols of their own are bound to the values. -/
theorem bindsTo_bindAll : ∀ {its : List (Iter K)} {vs : List (Value K)} (env : Env K),
    (its.map symbol).Nodup → vs.length = its.length → (env.bindAll its vs).BindsTo its vs
  | [], [], _, _, _ => .nil
  | it :: its, v :: vs, env, hits, hvs => by
    rw [List.map_cons, List.nodup_cons] at hits
    refine .cons ?_ (bindsTo_bindAll (env.bind it.symbol v) hits.2 (Nat.succ.inj hvs))
    rw [bindAll, get?_bindAll _ _ hits.1, get?_bind_self]

end Env

/-- An iterator whose elements also have to meet a condition. -/
def Iter.narrow : Iter K → Option (Expr K) → Iter K
  | it, none => it
  | .mk s src none, some c => .mk s src (some c)
  | .mk s src (some f), some c => .mk s src (some (.logic .and [f, c]))

theorem Iter.symbol_narrow (it : Iter K) (c : Option (Expr K)) :
    (it.narrow c).symbol = it.symbol := by
  obtain ⟨s, src, _ | f⟩ := it <;> cases c <;> rfl

theorem Iter.source_narrow (it : Iter K) (c : Option (Expr K)) :
    (it.narrow c).source = it.source := by
  obtain ⟨s, src, _ | f⟩ := it <;> cases c <;> rfl

/-- Only the first computation looks at the registry. -/
theorem Regime.rel_known {W : Regime K} {f : Registry K → Run K α}
    (h : ∀ r t, W.Like r t → W.Rel (f r) y) : W.Rel (registry >>= f) y :=
  fun s t hst => h s.registry t.registry hst hst

/-- From a registry whose entries stand under their own symbols, related computations end alike. -/
theorem Regime.Rel.start_eq {s : Store K} (h : s.registry.unrestricted.Rel x y)
    (hs : s.registry.Keyed) :
    (x.start s).1 = (y.start s).1 ∧ (x.start s).2.registry = (y.start s).2.registry := by
  have hlike : s.registry.unrestricted.Like s.registry s.registry :=
    ⟨hs, rfl, (Registry.hide_nothing _).symm, trivial⟩
  obtain ⟨_, _, _, hfalse⟩ | ⟨_, _, _, hfalse⟩ | ⟨a, s', t', hx, hy, hlike'⟩ := (h hlike).1
  · exact hfalse.elim
  · exact hfalse.elim
  · rw [hx, hy]
    exact ⟨rfl, by rw [hlike'.hide]; exact (Registry.hide_nothing _).symm⟩

/-! ## Visits -/

namespace Stage

variable {last : Env K → Run K (List α)} {ss ts : List (Stage K)} {env : Env K}

theorem visit_append : visit (ss ++ ts) last env = visit ss (visit ts last) env := by
  induction ss generalizing env with
  | nil => rfl
  | cons st ss ih => simp only [List.cons_append, visit, ih]

/-- Only what is done where all iterators are bound matters. -/
theorem visit_congr {last' : Env K → Run K (List α)}
    (h : ∀ inner, inner.depth = env.depth + ss.length → last inner = last' inner) :
    visit ss last env = visit ss last' env := by
  induction ss generalizing env with
  | nil => exact h env rfl
  | cons st ss ih =>
    have hrest : ∀ v,
        visit ss last (env.bind st.symbol v) = visit ss last' (env.bind st.symbol v) :=
      fun v => ih fun inner hinner =>
        h inner (by rw [hinner, Env.depth_bind, List.length_cons]; omega)
    simp only [visit, hrest]

/-- Lists that are found may be joined at the end of each way. -/
theorem visit_flatten {last : Env K → Run K (List (List α))} :
    (do return (← visit ss last env).flatten) =
      visit ss (fun inner => do return (← last inner).flatten) env := by
  induction ss generalizing env with
  | nil => rfl
  | cons st ss ih =>
    have hmapM : ∀ (f : Value K → Run K (List (List α))) (vs : List (Value K)),
        (vs.mapM fun v => do return (← f v).flatten) = do
          return (← vs.mapM f).map List.flatten := by
      intro f vs
      induction vs with
      | nil => simp
      | cons v vs ih => simp only [List.mapM_cons, ih, bind_assoc, pure_bind, List.map_cons]
    have hbranch : st.branch (fun inner => do return (← last inner).flatten) ss env = fun v => do
        return (← st.branch last ss env v).flatten := by
      funext v
      simp only [branch, ← ih, bind_assoc]
      refine congrArg _ (funext fun passes => ?_)
      cases passes <;> simp
    simp only [visit_cons, hbranch, hmapM, bind_assoc, pure_bind, List.flatten_flatten]

end Stage

variable [Scalar K]

/-- What the first computation returns, the second one returns in every later registry, where no
parameter is left to be evaluated. -/
abbrev Simulation.settling : Simulation K := .repeatingFrom Progress.settled Iff.rfl

theorem Simulation.settling_recurs (h : settling.rel x y) :
    x.EnsuresFrom Progress.settled fun t a => y.Recurs t a := by
  intro s a s' hs hx
  obtain ⟨hlater, hy⟩ := h hs hx
  exact ⟨hlater, fun t ht u hu => hy (ht.trans hu)⟩

section Settled

variable (hself : ∀ {v w : Value K}, (v == w) = true → (w == w) = true)

include hself

theorem lookup_settles (n : Nat) : settling.Lookups (lookup n) (lookup n : Lookup K) where
  parameter s idx _ _ _ hs := (lookup_repeats hself n).parameter s idx hs.1
  elements s given hab _ _ _ hs := (lookup_repeats hself n).elements s given hab hs.1
  body ho _ _ e hab _ _ _ hs := (lookup_repeats hself n).body ho e hab hs.1

/-- Evaluation and folding give the same in every later registry. -/
theorem folds_settling : (settling (K := K)).comparison.Folds where
  lookups n := (lookup_settles hself n).compared
  looking hf := repeatingFrom_lookup Iff.rfl hf
  sees := eq_comm
  permits _ := permits_all trivial
  folding hg _ := ensures_registry fun r => ensures_ofExcept fun a ha t hr ht => by
    refine (gives_registry.2 rfl |>.bind (gives_ofExcept.2 ?_)).repeats
    rw [← ha]
    exact hg (fun s => (hr.2.find?_eq ht s).symm) ht.dexprs
  leftover _ := ensures_fail
  endless := @fun _ => ensures_fail
  noting _ hx := by
    intro s a s' hs h
    obtain ⟨hlater, hrepeats⟩ := hx hs (returns_mapFailure.1 h)
    refine ⟨hlater, fun t ht w => ?_⟩
    obtain ⟨s'', hs'', hkept⟩ := hrepeats ht w
    exact ⟨s'', returns_mapFailure.2 hs'', hkept⟩


/-! ## Combinations, and what is done for each -/

omit [Scalar K] hself in
/-- What stands between two lists that are related through it, one by one. -/
theorem exists_between {γ : Type} {R : α → β → Prop} {S : β → γ → Prop} {as : List α} {cs : List γ}
    (h : List.Forall₂ (fun a c => ∃ b, R a b ∧ S b c) as cs) :
    ∃ bs, List.Forall₂ R as bs ∧ List.Forall₂ S bs cs := by
  induction h with
  | nil => exact ⟨[], .nil, .nil⟩
  | cons hac _ ih =>
    obtain ⟨b, hab, hbc⟩ := hac
    obtain ⟨bs, habs, hbcs⟩ := ih
    exact ⟨b :: bs, .cons hab habs, .cons hbc hbcs⟩

/-- Two visits that go the same ways find the same if they do at the end of each way, seen from any
later registry. -/
theorem visit_records {last : Env K → Run K (List α)} {last' : Env K → Run K (List β)}
    {P : Registry K → β → α → Prop} (n : Nat) : ∀ (its : List (Iter K)) (a : Env K),
    (∀ vs, vs.length = its.length → (last (a.bindAll its vs)).EnsuresFrom .settled fun t xs =>
      ∃ ys, (last' (a.bindAll its vs)).Recurs t ys ∧ List.Forall₂ (P t) ys xs) →
    (Stage.visit (stages (lookup n) its) last a).EnsuresFrom .settled fun t xs =>
      ∃ ys, (Stage.visit (stages (lookup n) its) last' a).Recurs t ys ∧ List.Forall₂ (P t) ys xs
  | [], a, h => by
    exact h [] rfl
  | it :: its, a, h => by
    simp only [stages, Stage.visit, stage_symbol, stage_elements, stage_admits]
    have hsource := exprSource (lookup_settles hself n) it.source (Eq.refl a)
      (.inl trivial)
    refine EnsuresFrom.bind (settling_recurs hsource) fun vs => ?_
    refine EnsuresFrom.bind (P := fun t found => List.Forall₂ (fun v xs => ∃ ys, (do
        if ← holds (lookup n) it.filter (a.bind it.symbol v) then
          Stage.visit (stages (lookup n) its) last' (a.bind it.symbol v)
        else return []).Recurs t ys ∧ List.Forall₂ (P t) ys xs) vs found)
      (ensures_mapM vs fun v => ?_) fun found => ensures_pure fun t hfound hvs => ?_
    · have hfilter := exprHolds (lookup_settles hself n) it.filter
        (Eq.refl (a.bind it.symbol v)) (.inl trivial)
      refine EnsuresFrom.bind (settling_recurs hfilter) fun passes => ?_
      cases passes with
      | true =>
        refine (visit_records n its (a.bind it.symbol v) fun ws hws =>
          h (v :: ws) (by simp [hws])).mono fun t xs hxs hpasses => ?_
        obtain ⟨ys, hys, hP⟩ := hxs
        exact ⟨ys, hpasses.bind hys, hP⟩
      | false => exact ensures_pure fun t hpasses => ⟨[], hpasses.bind recurs_pure, .nil⟩
    · obtain ⟨yss, hyss, hP⟩ := exists_between hfound
      exact ⟨yss.flatten, hvs.bind ((recurs_mapM hyss).bind recurs_pure), List.rel_flatten hP⟩

/-- Whatever is done for the combinations is done for those that are listed, in this order. -/
theorem enumerate_records (n : Nat) {its : List (Iter K)} (hits : (its.map symbol).Nodup)
    (c : Option (Expr K)) (env : Env K) {each : Env K → Run K α} {Q : Registry K → Env K → α → Prop}
    (heach : ∀ inner, (each inner).EnsuresFrom .settled fun t x => Q t inner x) :
    (enumerate (lookup n) its c env each).EnsuresFrom .settled fun t xs =>
      ∃ vss, (combinations (lookup n) its c env).Recurs t vss ∧
        List.Forall₂ (fun vs x => Q t (env.bindAll its vs) x) vss xs := by
  simp only [combinations, enumerate, Stage.enumerate]
  split
  · exact ensures_fail
  · refine visit_records hself n its env fun vs hvs => ?_
    have hholds := exprHolds (lookup_settles hself n) c (Eq.refl (env.bindAll its vs))
      (.inl trivial)
    refine EnsuresFrom.bind (settling_recurs hholds) fun holds => ?_
    cases holds with
    | true =>
      refine EnsuresFrom.bind (heach _) fun x => ensures_pure fun t hx hholds => ?_
      have hbound : (boundValues its (env.bindAll its vs)).Recurs t vs := fun u _ w =>
        ⟨_, (returns_boundValues (env.bindsTo_bindAll hits hvs)).2 ⟨rfl, rfl⟩, .refl u⟩
      exact ⟨[vs], hholds.bind (hbound.bind recurs_pure), .cons hx .nil⟩
    | false => exact ensures_pure fun t hholds => ⟨[], hholds.bind recurs_pure, .nil⟩

/-! ## Rules -/

/-- The equations of several rules, one rule after the other. -/
theorem Rule.forEachOf_records (body : List (Rule K)) (env : Env K) :
    (forEachOf Constraint.expand body env).EnsuresFrom .settled fun t ds =>
      ∃ part, List.Forall₂ (fun R es => (R.expand env).Recurs t es) body part ∧
        part.flatten = ds := by
  induction body with
  | nil =>
    exact ensures_pure fun t => ⟨[], .nil, rfl⟩
  | cons R body ih =>
    have hR := (folds_settling hself).forEach (folds_settling hself).expand R env
    refine EnsuresFrom.bind (settling_recurs hR) fun es => ?_
    refine EnsuresFrom.bind ih fun ds => ensures_pure fun t hds hes => ?_
    obtain ⟨part, hpart, rfl⟩ := hds
    exact ⟨es :: part, .cons hes hpart, rfl⟩

/-- The equations of a family are those of its parts under each combination. -/
theorem Rule.expand_family (literal : String) {its : List (Iter K)}
    (hits : (its.map symbol).Nodup) (c : Option (Expr K)) (body : List (Rule K)) (env : Env K) :
    ((family literal its c body).expand env).EnsuresFrom .settled fun t ds =>
      ∃ vss parts, (combinations t.lookup its c env).Recurs t vss ∧
        List.Forall₂ (fun vs part => List.Forall₂ (fun R es =>
          (R.expand (env.bindAll its vs)).Recurs t es) body part) vss parts ∧
        (parts.map List.flatten).flatten = ds := by
  simp only [expand, forEach, Run.lookup, bind_assoc, pure_bind]
  refine ensures_registry fun r => ?_
  refine EnsuresFrom.bind (enumerate_records hself _ hits c env
    fun inner => forEachOf_records hself body inner) fun found => ?_
  refine ensures_pure fun t hfound _ hrt => ?_
  obtain ⟨vss, hvss, hparts⟩ := hfound
  obtain ⟨parts, hparts, hflatten⟩ := exists_between hparts
  refine ⟨vss, parts, hrt.lookup ▸ hvss, hparts, ?_⟩
  rw [← List.forall₂_map_left_iff, List.forall₂_eq_eq_eq] at hflatten
  rw [hflatten]

/-- What a constraint calls its equation: its label, with the values of the index expressions under
the bindings of an environment. -/
def Constraint.Names (c : Constraint K) (t : Registry K) (env : Env K) (q : Equation K) : Prop :=
  match c.label with
  | none => q.label = none ∧ q.base = none ∧ q.index = none ∧ q.second = none
  | some l => q.base = some l ∧ ∃ idx, (elements t.lookup c.labelIndex env).Recurs t idx ∧
      q.label = some (l ++ Value.indexLiteral idx) ∧ q.index = idx[0]? ∧ q.second = idx[1]?

omit hself in
theorem formulate_named {lhs rhs : Expr K} {op : RelOp} {env : Env K} {name : EquationName K}
    {s s' : Store K} {p : Derived K} (h : (formulate lhs op rhs env name).Returns s p s') :
    EquationName.mk p.1.label p.1.base p.1.index p.1.second = name := by
  unfold formulate at h
  split at h
  · obtain ⟨_, _, hfails, _⟩ := returns_bind.1 h
    exact absurd hfails not_returns_fail
  · obtain ⟨form, _, _, h⟩ := returns_bind.1 h
    obtain ⟨r, _, _, h⟩ := returns_bind.1 h
    obtain ⟨constant, _, rfl⟩ := returns_bind_pure.1 h
    rfl

theorem Constraint.nameIn_names (c : Constraint K) (env : Env K) :
    (c.nameIn env).EnsuresFrom .settled fun t name => ∀ q : Equation K,
      EquationName.mk q.label q.base q.index q.second = name → c.Names t env q := by
  unfold Constraint.nameIn Constraint.Names
  cases c.label with
  | none =>
    refine ensures_pure fun t q hq => ?_
    exact EquationName.mk.inj hq
  | some l =>
    dsimp only
    split
    · rename_i hempty
      rw [List.isEmpty_iff.1 hempty]
      refine ensures_pure fun t q hq => ?_
      obtain ⟨hlabel, hbase, hindex, hsecond⟩ := EquationName.mk.inj hq
      refine ⟨hbase, [], ?_, by simpa [Value.indexLiteral] using hlabel, hindex, hsecond⟩
      exact recurs_pure
    · simp only [Run.lookup, bind_assoc, pure_bind]
      refine ensures_registry fun r => ?_
      have hidx := (folds_settling hself).elements (r.size + familyDepth) c.labelIndex env
      refine EnsuresFrom.bind (settling_recurs hidx) fun idx => ?_
      refine ensures_pure fun t hidx _ hrt q hq => ?_
      obtain ⟨hlabel, hbase, hindex, hsecond⟩ := EquationName.mk.inj hq
      exact ⟨hbase, idx, hrt.lookup ▸ hidx, hlabel, hindex, hsecond⟩

/-- A constraint has one equation, which it names. -/
theorem Rule.expand_single (c : Constraint K) (env : Env K) :
    ((single c).expand env).EnsuresFrom .settled fun t ds =>
      ∃ q origins, ds = [(q, origins)] ∧ c.Names t env q := by
  refine EnsuresFrom.bind (P := fun t d => c.Names t env d.1) ?_
    fun d => ensures_pure fun t hd => ⟨d.1, d.2, rfl, hd⟩
  intro s d s' hs h
  obtain ⟨name, s₁, hname, hd⟩ := returns_bind.1 (returns_mapFailure.1 h)
  obtain ⟨h₁, hnames⟩ := c.nameIn_names hself env hs hname
  have hform := (folds_settling hself).formulate c.lhs c.rhs c.op env name
  obtain ⟨h₂, -⟩ := hform (Progress.settled.kept hs h₁) hd
  exact ⟨h₁.trans h₂, fun t ht => hnames (h₂.trans ht) d.1 (formulate_named hd)⟩

end Settled

/-! ## Nested families -/

theorem Expr.stages_append (L : Lookup K) (its its' : List (Iter K)) :
    stages L (its ++ its') = stages L its ++ stages L its' := by
  induction its with
  | nil => simp only [stages, List.nil_append]
  | cons it its ih => simp only [List.cons_append, stages, ih]

section Nested

variable {L : Lookup K} {its its' : List (Iter K)} {it : Iter K} {c c' : Option (Expr K)}
  {env : Env K}

/-- What is found under each combination, joined at the end of each way. -/
theorem flatten_enumerate (hdepth : env.depth + its.length ≤ maxIterators)
    {each : Env K → Run K (List α)} : (do return (← enumerate L its c env each).flatten) =
      Stage.visit (stages L its)
        (fun inner => do if ← holds L c inner then each inner else return []) env := by
  rw [enumerate, Stage.enumerate_eq, length_stages, if_neg (by omega), Stage.visit_flatten]
  refine Stage.visit_congr fun inner _ => ?_
  simp only [Stage.harvest, bind_assoc]
  refine congrArg _ (funext fun holds => ?_)
  cases holds <;> simp

variable (htrue : ∀ b, Scalar.isTrue (Scalar.ofBool b : K) = b)

include htrue

/-- The filter of a narrowed iterator, and then the condition. -/
theorem Iter.holds_narrow (it : Iter K) (c : Option (Expr K)) (env : Env K) :
    holds L (it.narrow c).filter env = do
      if ← holds L it.filter env then holds L c env else return false := by
  obtain ⟨s, src, filter⟩ := it
  cases c with
  | none =>
    have hbool : ∀ x : Run K Bool, x = do if ← x then pure true else return false := fun x => by
      conv_lhs => rw [← bind_pure x]
      exact congrArg _ (funext fun b => by cases b <;> rfl)
    exact hbool _
  | some c =>
    cases filter with
    | none => rfl
    | some f =>
      have hnumber : (logic .and [f, c]).number L env = do
          return Scalar.ofBool (← allTrue L [f, c] env) := by
        simp only [number, asNumber, value, bind_assoc, pure_bind, readNumber]
      simp only [narrow, filter, holds, truth, hnumber, allTrue,
        bind_assoc, pure_bind, htrue, bind_pure]
      refine congrArg _ (funext fun x => ?_)
      cases Scalar.isTrue x with
      | true =>
        rw [if_pos rfl, if_pos rfl]
        refine congrArg _ (funext fun y => ?_)
        cases Scalar.isTrue y <;> rfl
      | false => rfl

/-- A condition after the last iterator may be asked as a part of its filter. -/
theorem visit_narrow {last : Env K → Run K (List α)} : Stage.visit (stages L (its ++ [it]))
        (fun inner => do if ← holds L c inner then last inner else return []) env =
      Stage.visit (stages L (its ++ [it.narrow c])) last env := by
  rw [stages_append, stages_append, Stage.visit_append, Stage.visit_append]
  refine Stage.visit_congr fun inner _ => ?_
  simp only [stages, Stage.visit, stage_symbol, stage_elements, stage_admits,
    symbol_narrow, source_narrow, holds_narrow htrue, bind_assoc]
  refine congrArg _ (funext fun vs => congrArg (fun f => vs.mapM f >>= _) (funext fun v => ?_))
  refine congrArg _ (funext fun passes => ?_)
  cases passes with
  | true => rfl
  | false => rw [if_neg (by simp), if_neg (by simp), pure_bind, if_neg (by simp)]

/-- Two enumerations, one inside the other, are one over the iterators of both. -/
theorem enumerate_nested (hdepth : env.depth + (its.length + 1 + its'.length) ≤ maxIterators)
    {each : Env K → Run K (List α)} : (do
      let found ← enumerate L (its ++ [it]) c env fun inner => do
        return (← enumerate L its' c' inner each).flatten
      return found.flatten) =
      do return (← enumerate L (its ++ [it.narrow c] ++ its') c' env each).flatten := by
  rw [flatten_enumerate (by simp; omega), flatten_enumerate (by simp; omega), visit_narrow htrue,
    stages_append _ (its ++ [it.narrow c]), Stage.visit_append]
  refine Stage.visit_congr fun inner hinner => ?_
  rw [length_stages] at hinner
  exact flatten_enumerate (by simp at hinner; omega)

/-- A family that holds nothing but another family answers as one family over the iterators of
both. -/
theorem Rule.expand_nested (r : Registry K)
    (hdepth : env.depth + (its.length + 1 + its'.length) ≤ maxIterators)
    (literal literal' literal'' : String) (body : List (Rule K)) : r.unrestricted.Rel
      ((family literal (its ++ [it]) c [.family literal' its' c' body]).expand env)
      ((family literal'' (its ++ [it.narrow c] ++ its') c' body).expand env) := by
  have h := r.single_unrestricted
  have hbody : ∀ inner, r.unrestricted.Rel (forEachOf Constraint.expand body inner)
      (forEachOf Constraint.expand body inner) := h.folds.forEachOf h.folds.expand body
  simp only [expand, forEach, forEachOf, Run.lookup, bind_assoc, pure_bind,
    List.append_nil]
  refine Regime.rel_registry fun r₁ t hr => ?_
  rw [hr.lookup.1, hr.lookup.2, h.rest_eq, ← enumerate_nested htrue hdepth]
  refine Regime.Rel.bind (h.folds.enumerate _ _ c (fun inner => ?_) env) fun _ =>
    Regime.rel_pure _
  -- the inner family looks for its domains anew, in a state of the same registry
  refine Regime.rel_known fun r₁ t hr => ?_
  rw [hr.lookup.1]
  exact Regime.Rel.bind (h.folds.enumerate _ its' c' hbody inner) fun _ => Regime.rel_pure _

end Nested

/-- Expansion goes by parts. In a registry in which every derived parameter has been evaluated, the
equations of a family over iterators of different symbols are, for each combination that is listed
and for each of its rules in turn, those that the rule expands to under this combination, all seen
from the registry that is left. A constraint has exactly one equation, which is named by the values
of the label's index expressions. A family that holds nothing but another family ends as the one
family over the iterators of both does, with the outer condition as a filter of the last outer
iterator, if there are not too many iterators. -/
theorem expansion_by_parts (hself : ∀ {v w : Value K}, (v == w) = true → (w == w) = true)
    (htrue : ∀ b, Scalar.isTrue (Scalar.ofBool b : K) = b) {s : Store K} (hs : s.registry.Keyed)
    (hsettled : s.registry.IsSettled) (env : Env K) :
    (∀ {literal : String} {its : List (Iter K)} {c : Option (Expr K)} {body : List (Rule K)}
      {ds : List (Derived K)} {s' : Store K}, (its.map symbol).Nodup →
      ((family literal its c body).expand env).Returns s ds s' →
        ∃ vss parts, (combinations s'.registry.lookup its c env).Repeats s'.registry vss ∧
          List.Forall₂ (fun vs part => List.Forall₂ (fun R es =>
            (R.expand (env.bindAll its vs)).Repeats s'.registry es) body part) vss parts ∧
          ds = (parts.map List.flatten).flatten) ∧
    (∀ {c : Constraint K} {ds : List (Derived K)} {s' : Store K},
      ((single c).expand env).Returns s ds s' →
        ∃ q origins, ds = [(q, origins)] ∧ c.Names s'.registry env q) ∧
    ∀ {literal literal' literal'' : String} {its its' : List (Iter K)} {it : Iter K}
      {c c' : Option (Expr K)} {body : List (Rule K)},
      env.depth + (its.length + 1 + its'.length) ≤ maxIterators →
      let nested := family literal (its ++ [it]) c [.family literal' its' c' body]
      let flat := family literal'' (its ++ [it.narrow c] ++ its') c' body
      ((nested.expand env).start s).1 = ((flat.expand env).start s).1 ∧
        ((nested.expand env).start s).2.registry = ((flat.expand env).start s).2.registry := by
  have hholds : Progress.settled.holds s.registry := ⟨hs, hsettled⟩
  refine ⟨fun {literal its c body ds s'} hits h => ?_, fun h => ?_, fun hdepth => ?_⟩
  · obtain ⟨-, hrecurs⟩ := expand_family hself literal hits c body env hholds h
    obtain ⟨vss, parts, hvss, hparts, rfl⟩ := hrecurs (.refl _)
    exact ⟨vss, parts, hvss.repeats, hparts.imp fun _ _ hpart =>
      hpart.imp fun _ _ hes => hes.repeats, rfl⟩
  · exact (expand_single hself _ env hholds h).2 (.refl _)
  · exact (expand_nested htrue s.registry hdepth _ _ _ _).start_eq hs

/-- A derived bound that has been evaluated, and a family in a family, with a condition each and two
constraints. -/
def doubleFamily : Run ℚ (Statement ℚ) := do
  let _ ← parseStatement false "int n = 2;"
  let _ ← parseStatement false "int m = n + 1;"
  let _ ← parseStatement false "range I = 1..m;"
  let _ ← parseStatement false "dvar float x[I];"
  let _ ← (Expr.name "m").evaluateValue Env.empty
  parseStatement false
    "forall(i in I : i < 3) \x7b
      forall(j in I : i != j) \x7b c[i][j]: x[i] + i*x[j] <= m; x[j] >= i; \x7d \x7d"

theorem expansion_by_parts_doubleFamily :
    ∃ (s s' : Store ℚ) (literal : String) (its : List (Iter ℚ)) (c : Option (Expr ℚ))
      (body : List (Rule ℚ)) (ds : List (Derived ℚ)), s.registry.Keyed ∧ s.registry.IsSettled ∧
      (its.map symbol).Nodup ∧
      ((family literal its c body).expand Env.empty).Returns s ds s' ∧ ds.length = 8 ∧
      ∃ vss parts, (combinations s'.registry.lookup its c Env.empty).Repeats s'.registry vss ∧
        List.Forall₂ (fun vs part => List.Forall₂ (fun R es =>
          (R.expand (Env.empty.bindAll its vs)).Repeats s'.registry es) body part) vss parts ∧
        ds = (parts.map List.flatten).flatten := by
  have hrun : (((do
      let stmt ← doubleFamily
      let r ← Run.registry
      let R ← ruleOf stmt
      let ds ← R.expand Env.empty
      return (r.params.toList.all fun e => e.2.isSettled, R.iterators.map symbol, ds.length)) :
        Run ℚ (Bool × List String × Nat)).start {}).1.toOption = some (true, ["i", "j"], 8) := by
    decide +kernel
  obtain ⟨s', h⟩ := returns_of_toOption hrun
  obtain ⟨stmt, s, hstmt, h⟩ := returns_bind.1 h
  replace h := returns_registry_bind.1 h
  obtain ⟨R, _, hR, h⟩ := returns_bind.1 h
  cases stmt with
  | rule R' =>
    obtain ⟨rfl, rfl⟩ := returns_pure.1 hR
    obtain ⟨ds, s', hds, h⟩ := returns_bind.1 h
    obtain ⟨hout, rfl⟩ := returns_pure.1 h
    simp only [Prod.mk.injEq, List.all_eq_true] at hout
    obtain ⟨hsettled, hsymbols, hlength⟩ := hout
    simp only [doubleFamily, returns_bind] at hstmt
    obtain ⟨_, _, hn, _, _, hm, _, _, hI, _, _, hx, _, _, hv, hread⟩ := hstmt
    have hs : s.registry.Reached :=
      .read (.evaluated (.read (.read (.read (.read .empty hn) hm) hI) hx) hv) hread
    have hall : s.registry.IsSettled := fun _ _ hp => hsettled _ (Table.mem_of_find? hp)
    cases R' with
    | single c => simp [iterators] at hsymbols
    | family literal its c body =>
      rw [iterators, List.map_append] at hsymbols
      have hnodup : ["i", "j"].Nodup := by decide
      rw [← hsymbols] at hnodup
      have hits := (List.nodup_append.1 hnodup).1
      have hparts := expansion_by_parts (fun _ => BEq.rfl) (fun b => by cases b <;> decide +kernel)
        hs.isSound.toKeyed hall Env.empty
      exact ⟨s, _, literal, its, c, body, ds, hs.isSound.toKeyed, hall, hits, hds, hlength,
        hparts.1 hits hds⟩
  | _ => exact absurd hR not_returns_fail

end LinearModel
