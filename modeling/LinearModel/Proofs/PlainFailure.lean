import LinearModel.LinearForm
import LinearModel.Proofs.Returns

/-!
# Plain failures

Following the declarations of a registry may fail in ways of its own: a definition never ends, a
decision expression leads back to itself, or it is not declared. Taking an expression apart into
terms may come upon a sum that was not written out. All other failures are plain. The functions on
values, parameters and expressions that evaluation is made of fail in plain ways only.
-/
namespace LinearModel

variable {K : Type} {α β : Type}

/-- A cause that has nothing to do with following declarations, nor with sums left among terms. -/
def Cause.isPlain : Cause K → Bool
  | .endless | .cyclicDexpr _ _ | .dexprNotDeclared _ | .sumNotFlattened _ => false
  | _ => true

/-- Whatever goes wrong is plain. -/
def Plain (x : Except (Cause K) α) : Prop := ∀ c, x = .error c → c.isPlain = true

namespace Plain

theorem ok (a : α) : Plain (.ok a : Except (Cause K) α) := nofun

theorem error {c : Cause K} (hc : c.isPlain = true) : Plain (.error c : Except (Cause K) α) := by
  rintro _ ⟨⟩
  exact hc

theorem bind {x : Except (Cause K) α} {f : α → Except (Cause K) β} (hx : Plain x)
    (hf : ∀ a, Plain (f a)) : Plain (x >>= f) := by
  cases x with
  | ok a => exact hf a
  | error c => exact error (hx c rfl)

theorem map {x : Except (Cause K) α} {f : α → β} (hx : Plain x) : Plain (x.map f) := by
  cases x with
  | ok a => exact ok (f a)
  | error c => exact error (hx c rfl)

theorem mapM {f : α → Except (Cause K) β} (as : List α) (hf : ∀ a, Plain (f a)) :
    Plain (as.mapM f) := by
  induction as with
  | nil =>
    exact ok []
  | cons a as ih =>
    simp only [List.mapM_cons]
    exact (hf a).bind fun b => ih.bind fun bs => ok _

variable [Scalar K]

/-! ## Values -/

theorem scalarOfInt (i : Int) : Plain (scalarOfInt i : Except (Cause K) K) := by
  unfold LinearModel.scalarOfInt
  split
  exacts [ok _, error rfl]

theorem readScalar (v : Value K) : Plain v.readScalar := by
  unfold Value.readScalar
  split
  · exact ok _
  · exact scalarOfInt _
  · exact ok _
  · split
    exacts [ok _, error rfl]
  · exact error rfl

theorem coerce (t : TypeName) (v : Value K) : Plain (v.coerce t) := by
  have hrefused : Plain (.error (.notOfType v t) : Except (Cause K) (Value K)) := error rfl
  cases t with
  | int =>
    cases v with
    | bool b => exact ok _
    | int i => exact ok _
    | real x | str s =>
      simp only [Value.coerce]
      split
      exacts [ok _, hrefused]
    | _ => exact hrefused
  | float =>
    cases v with
    | bool b => exact ok _
    | int i => exact (scalarOfInt i).map
    | real x => exact ok _
    | str s =>
      simp only [Value.coerce]
      split
      exacts [ok _, hrefused]
    | _ => exact hrefused
  | bool | boolean =>
    cases v with
    | bool b => exact ok _
    | int i | real x =>
      simp only [Value.coerce]
      split
      · exact ok _
      · split
        exacts [ok _, hrefused]
    | str s =>
      simp only [Value.coerce]
      split
      exacts [ok _, hrefused]
    | _ => exact hrefused
  | string =>
    cases v with
    | str s => exact ok _
    | _ => exact hrefused
  | record name =>
    cases v with
    | record s vs =>
      simp only [Value.coerce]
      split
      exacts [ok _, hrefused]
    | _ => exact hrefused

theorem number_compare (op : RelOp) (a b : Number K) : Plain (Number.compare op a b) := by
  have hsub : Plain (Number.sub a b) := by
    unfold Number.sub
    split
    · exact ok _
    · exact (scalarOfInt _).map
    · exact (scalarOfInt _).map
    · exact ok _
  have hshift : ∀ d : K, Plain (Number.shift b d) := by
    intro d
    unfold Number.shift
    split
    · exact (scalarOfInt _).map
    · exact ok _
  cases op with
  | eq | ne => exact hsub.map
  | lt | le | gt | ge => exact (hshift _).map

theorem compare (op : RelOp) (v w : Value K) : Plain (Value.compare op v w) := by
  unfold Value.compare
  dsimp only
  split
  · exact number_compare op _ _
  · split
    · exact ok _
    · exact ok _
    · split
      exacts [error rfl, ok _]

omit [Scalar K] in
theorem field (s : Schema) (vs : List (Value K)) (f : String) : Plain (Value.field s vs f) := by
  unfold Value.field
  split
  exacts [ok _, error rfl]

theorem ofValue (v : Value K) : Plain (Expr.ofValue v) := by
  unfold Expr.ofValue
  split
  · exact ok _
  · exact ok _
  · exact ok _
  · exact (scalarOfInt _).map
  · exact ok _
  · exact error rfl

theorem coerceFields : ∀ (fs : List (String × TypeName)) (vs : List (Value K)),
    Plain (Value.coerceFields fs vs)
  | f :: fs, v :: vs => by
    exact (coerce f.2 v).bind fun w => (coerceFields fs vs).bind fun ws => ok _
  | [], _ | _ :: _, [] => by
    exact ok _

theorem fieldsOfMap (s : Schema) (ks vs : List (Value K)) : Plain (Value.fieldsOfMap s ks vs) := by
  unfold Value.fieldsOfMap
  dsimp only
  split
  · exact error rfl
  · refine mapM _ fun f => ?_
    split
    exacts [ok _, error rfl]

theorem toRecord (s : Schema) (v : Value K) : Plain (v.toRecord s) := by
  have hbuilt : ∀ values : List (Value K), Plain (if values.length ≠ s.fields.length then
      .error (.fieldCount s.symbol s.fields.length values.length)
      else do return Value.record s (← Value.coerceFields s.fields values)) := by
    intro values
    split
    · exact error rfl
    · exact (coerceFields _ _).bind fun ws => ok _
  unfold Value.toRecord
  split
  · exact (fieldsOfMap s _ _).bind hbuilt
  · split
    · exact hbuilt _
    · exact error rfl

theorem asRecord (s : Schema) (v : Value K) : Plain (v.asRecord s) := by
  unfold Value.asRecord
  split
  exacts [ok _, toRecord s _]

/-! ## Parameters and environments -/

theorem parameter_get (p : Parameter K) (idx : Index K) : Plain (p.get idx) := by
  unfold Parameter.get
  dsimp only
  split
  · split
    · exact error rfl
    · split
      exacts [ok _, error rfl]
  · split
    · exact error rfl
    · split
      · exact error rfl
      · split
        exacts [ok _, error rfl]

theorem prepare (p : Parameter K) (v : Value K) : Plain (p.prepare v) := by
  unfold Parameter.prepare
  split
  exacts [asRecord _ v, ok _]

theorem parameter_set (p : Parameter K) (v : Value K) : Plain (p.set v) := by
  refine (prepare p v).bind fun w => ?_
  split
  · exact error rfl
  · exact (coerce p.type w).bind fun u => ok _

theorem setAt (p : Parameter K) (idx : Index K) (v : Value K) : Plain (p.setAt idx v) := by
  refine (prepare p v).bind fun w => ?_
  split
  · exact error rfl
  · refine (coerce p.type w).bind fun u => ?_
    split
    exacts [error rfl, ok _]

omit [Scalar K] in
theorem env_get (env : Env K) (s : String) : Plain (env.get s) := by
  unfold Env.get
  split
  exacts [ok _, error rfl]

theorem variableValue (env : Env K) (n : String) : Plain (env.variableValue n) := by
  unfold Env.variableValue
  split
  exacts [readScalar _, error rfl]

theorem boundIndex (d : ComputedSet K) (outer : Iter K) (env : Env K) :
    Plain (match env.get? outer.symbol with
      | some v => .ok v.normalize
      | none => .error (.outerIndexNotBound d.symbol outer.symbol) :
        Except (Cause K) (Value K)) := by
  split
  exacts [ok _, error rfl]

theorem memberScope (d : ComputedSet K) (env : Env K) (given : Option (Value K)) :
    Plain (memberScope d env given) := by
  unfold LinearModel.memberScope
  split
  · exact ok _
  · rename_i outer _
    refine Plain.bind ?_ fun v => ?_
    · unfold outerIndex
      dsimp only
      split
      · exact boundIndex d outer env
      · exact boundIndex d outer env
      · exact ok _
    · split
      exacts [ok _, error rfl]

/-! ## Simplification -/

theorem foldRel (op : RelOp) (l r : Expr K) : Plain (Expr.foldRel op l r) := by
  unfold Expr.foldRel
  split
  exacts [(compare op _ _).map, ok _]

theorem foldLogic (op : LogicOp) (es : List (Expr K)) : Plain (Expr.foldLogic op es) := by
  unfold Expr.foldLogic
  split
  · split
    exacts [error rfl, ok _, ok _, ok _]
  · exact ok _

theorem foldName (r : Option (Registry K)) (s : String) : Plain (Expr.foldName r s) := by
  unfold Expr.foldName
  split
  · exact ok _
  · split
    · exact ok _
    · split
      exacts [ofValue _, ok _]

theorem foldParam (r : Option (Registry K)) (s : String) (idx : List (Expr K)) :
    Plain (Expr.foldParam r s idx) := by
  unfold Expr.foldParam
  split
  · exact ok _
  · split
    · exact ok _
    · split
      · exact ok _
      · split
        exacts [ofValue _, ok _]

theorem foldField (e : Expr K) (f : String) : Plain (Expr.foldField e f) := by
  unfold Expr.foldField
  split
  exacts [(field _ _ f).bind fun v => ofValue v, ok _]

mutual
theorem simplify : ∀ (r : Option (Registry K)) (e : Expr K), Plain (e.simplify r)
  | r, .num _ | r, .str _ | r, .record _ _ | r, .var _ _ _ | r, .dexpr _ none => by
    exact ok _
  | r, .name s => by
    exact foldName r s
  | r, .param s idx => by
    exact (simplifyAll r idx).bind fun idx => foldParam r s idx
  | r, .ivar _ es | r, .item _ es => by
    exact (simplifyAll r es).bind fun es => ok _
  | r, .dexpr _ (some e) | r, .neg e => by
    exact (simplify r e).bind fun e => ok _
  | r, .arith op a b => by
    exact (simplify r a).bind fun a => (simplify r b).bind fun b => ok _
  | r, .rel op a b => by
    exact (simplify r a).bind fun a => (simplify r b).bind fun b => foldRel op a b
  | r, .logic op es => by
    exact (simplifyAll r es).bind fun es => foldLogic op es
  | r, .field e f => by
    exact (simplify r e).bind fun e => foldField e f
  | r, .sum its body none => by
    exact (simplify none body).bind fun body => ok _
  | r, .sum its body (some c) => by
    exact (simplify none c).bind fun c => (simplify none body).bind fun body => ok _

theorem simplifyAll : ∀ (r : Option (Registry K)) (es : List (Expr K)),
    Plain (Expr.simplifyAll r es)
  | r, [] => by
    exact ok _
  | r, e :: es => by
    exact (simplify r e).bind fun e => (simplifyAll r es).bind fun es => ok _
end

theorem ofTerms (r : Registry K) (ts : List (Term K)) : Plain (LinearForm.ofTerms r ts) := by
  refine (mapM _ fun e => (simplify _ _).bind fun f => ok _).bind fun coefficients => ?_
  exact (simplify _ _).bind fun constant => ok _

end Plain

end LinearModel
