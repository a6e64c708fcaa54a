import LinearModel.Proofs.Declared
import LinearModel.Proofs.FailedAssignment
import LinearModel.Proofs.Staleness
import Mathlib.Data.List.Nodup

/-!
# Loading data

Loading assigns one value after the other, and each assignment forgets everything that was computed.
An assignment looks at the declaration of its own symbol only, and at what that symbol was given
before. So it replaces one entity of the registry and leaves nothing computed, and two assignments
to different symbols can be made in either order. Whatever the order of the data, it loads to the
same problem.
-/
namespace LinearModel

open Run Registry Parameter Table Progress

variable {K : Type} {α β : Type} {s s' : Store K} {entries : List (String × Value K)}
  {p : Parameter K} {v : Value K} {symbol : String}

/-! ## Tables -/

namespace Table

/-- What was entered under a key before does not matter. -/
theorem insert_insert (t : Table String α) (k : String) (a b : α) :
    (t.insert k a).insert k b = t.insert k b := by
  obtain ⟨es⟩ := t
  simp only [insert, mk.injEq]
  induction es with
  | nil => simp [insertIn]
  | cons e es ih =>
    by_cases hek : e.1 = k
    · simp [insertIn, hek]
    · simp [insertIn, hek, ih]

/-- Entering what is there changes nothing. -/
theorem insert_found {t : Table String α} {k : String} {a : α} (h : t.find? k = some a) :
    t.insert k a = t := by
  obtain ⟨es⟩ := t
  simp only [find?, insert, mk.injEq] at h ⊢
  induction es with
  | nil => simp [findIn] at h
  | cons e es ih =>
    obtain ⟨k', b⟩ := e
    by_cases hek : k' = k
    · simp_all [findIn, insertIn]
    · simp only [findIn, insertIn, beq_iff_eq, hek, if_false] at h ⊢
      rw [ih h]

/-- Two keys that are there can be entered in either order. -/
theorem insert_comm {t : Table String α} {k k' : String} (hne : k ≠ k')
    (hk : t.contains k = true) (hk' : t.contains k' = true) (a b : α) :
    (t.insert k a).insert k' b = (t.insert k' b).insert k a := by
  obtain ⟨es⟩ := t
  simp only [contains, find?, insert, mk.injEq] at hk hk' ⊢
  induction es with
  | nil => simp [findIn] at hk
  | cons e es ih =>
    by_cases hek : e.1 = k
    · have hek' : e.1 ≠ k' := hek ▸ hne
      simp [insertIn, hek, hne]
    · by_cases hek' : e.1 = k'
      · simp [insertIn, hek', hne.symm]
      · simp only [findIn, beq_iff_eq, hek, hek', if_false] at hk hk'
        simp [insertIn, hek, hek', ih hk hk']

theorem map_insert_apply (f : α → β) (t : Table String α) (k : String) (a : α) :
    (t.insert k a).map f = (t.map f).insert k (f a) := by
  obtain ⟨es⟩ := t
  simp only [insert, map, mk.injEq]
  induction es with
  | nil => rfl
  | cons e es ih =>
    by_cases hek : e.1 = k
    · simp [insertIn, hek]
    · simp [insertIn, hek, ih]

theorem contains_map (f : α → β) (t : Table String α) (k : String) :
    (t.map f).contains k = t.contains k := by
  simp [contains, find?_map]

end Table

/-! ## Entities that take data -/

/-- A parameter without the values that are derived. -/
def Parameter.forget (p : Parameter K) : Parameter K := if p.definition.isSome then p.clear else p

/-- An entity without what has been computed of it. -/
def Entity.forget : Entity K → Entity K
  | .domain d => .domain d.forget
  | .parameter p => .parameter p.forget
  | e => e

namespace Parameter

variable {p q : Parameter K}

theorem symbol_forget (p : Parameter K) : p.forget.symbol = p.symbol := by
  unfold forget
  split <;> rfl

theorem forget_forget (p : Parameter K) : p.forget.forget = p.forget := by
  unfold forget
  by_cases hp : p.definition.isSome = true <;> simp [hp, clear]

theorem SameDeclaration.clear (h : p.SameDeclaration q) : q.clear = p.clear := by
  rw [← h]
  rfl

/-- Two states of a parameter that differ in derived values only. -/
theorem sameDeclaration_of_forget (h : p.forget = q.forget) :
    p.SameDeclaration q ∧ (p.definition.isSome = false → p = q) := by
  have hdefinition : p.definition = q.definition := by
    have hp : p.forget.definition = p.definition := by unfold forget; split <;> rfl
    have hq : q.forget.definition = q.definition := by unfold forget; split <;> rfl
    rw [← hp, h, hq]
  unfold forget at h
  cases hp : p.definition.isSome with
  | true =>
    rw [← hdefinition, hp] at h
    exact ⟨sameDeclaration_of_clear h, nofun⟩
  | false =>
    rw [← hdefinition, hp] at h
    obtain rfl : p = q := h
    exact ⟨rfl, fun _ => rfl⟩

theorem SameDeclaration.forget (h : p.SameDeclaration q)
    (hgiven : p.definition.isSome = false → p = q) : q.forget = p.forget := by
  unfold Parameter.forget
  rw [h.definition]
  split
  · exact h.clear
  · rename_i hp
    exact (hgiven (Bool.eq_false_iff.2 hp)).symm

end Parameter

namespace Entity

theorem symbol_forget (e : Entity K) : e.forget.symbol = e.symbol := by
  cases e with
  | parameter p => exact p.symbol_forget
  | domain d => cases d <;> rfl
  | _ => rfl

theorem forget_forget (e : Entity K) : e.forget.forget = e.forget := by
  cases e with
  | parameter p => exact congrArg Entity.parameter p.forget_forget
  | domain d => cases d <;> rfl
  | _ => rfl

end Entity

/-- A registry whose parameters and given sets stand under their own symbols. -/
structure Registry.IsFiled (r : Registry K) : Prop where
  params : ∀ {s p}, r.params.find? s = some p → p.symbol = s
  tupleSets : ∀ {s d}, r.tupleSets.find? s = some d → d.symbol = s
  primitiveSets : ∀ {s d}, r.primitiveSets.find? s = some d → d.symbol = s

/-- A registry in which nothing computed is left. -/
structure Registry.IsBlank (r : Registry K) : Prop where
  ranges : ∀ {s d}, r.boundRanges.find? s = some d → d.knownFirst = none ∧ d.knownLast = none
  sets : ∀ {s d}, r.computedSets.find? s = some d → d.known = empty
  params : ∀ {s p}, r.params.find? s = some p → p.definition.isSome = true →
    p.value = none ∧ p.values = empty ∧ p.isDefined = false

namespace Registry

variable {r t : Registry K} {e e' : Entity K}

/-- Whether a set or parameter with the symbol of an entity is there to take the place of. -/
def Holds (r : Registry K) : Entity K → Prop
  | .domain (.tuples d) => r.tupleSets.contains d.symbol = true
  | .domain (.primitive d) => r.primitiveSets.contains d.symbol = true
  | .parameter p => r.params.contains p.symbol = true
  | _ => False

/-- A set or parameter is registered as it is. -/
def Stores (r : Registry K) : Entity K → Prop
  | .domain (.tuples d) => r.tupleSets.find? d.symbol = some d
  | .domain (.primitive d) => r.primitiveSets.find? d.symbol = some d
  | .parameter p => r.params.find? p.symbol = some p
  | _ => False

theorem isBlank_invalidate (r : Registry K) : r.invalidate.IsBlank where
  ranges {s d} hd := by
    simp only [invalidate, find?_map, Option.map_eq_some_iff] at hd
    obtain ⟨d, _, rfl⟩ := hd
    exact ⟨rfl, rfl⟩
  sets {s d} hd := by
    simp only [invalidate, find?_map, Option.map_eq_some_iff] at hd
    obtain ⟨d, _, rfl⟩ := hd
    rfl
  params {s p} hp hderived := by
    rw [find?_params_invalidate, Option.map_eq_some_iff] at hp
    obtain ⟨p, _, rfl⟩ := hp
    by_cases hsome : p.definition.isSome = true
    · simp only [hsome, if_true]
      exact ⟨rfl, rfl, rfl⟩
    · simp [hsome] at hderived

theorem isFiled_empty : ({} : Registry K).IsFiled := ⟨nofun, nofun, nofun⟩

theorem IsFiled.putParameter (hr : r.IsFiled) (p : Parameter K) : (r.putParameter p).IsFiled :=
  { hr with params := forall_insert hr.params rfl }

theorem IsFiled.put (hr : r.IsFiled) (e : Entity K) : (r.put e).IsFiled := by
  cases e with
  | parameter p => exact hr.putParameter p
  | domain d =>
    cases d with
    | tuples d => exact { hr with tupleSets := forall_insert hr.tupleSets rfl }
    | primitive d => exact { hr with primitiveSets := forall_insert hr.primitiveSets rfl }
    | _ => exact { hr with }
  | _ => exact { hr with }

theorem IsFiled.invalidate (hr : r.IsFiled) : r.invalidate.IsFiled where
  params {s q} hq := by
    rw [find?_params_invalidate, Option.map_eq_some_iff] at hq
    obtain ⟨p, hp, rfl⟩ := hq
    exact p.symbol_forget.trans (hr.params hp)
  tupleSets := hr.tupleSets
  primitiveSets := hr.primitiveSets

/-- What an entity makes known is forgotten with the rest. -/
theorem invalidate_put (r : Registry K) (e : Entity K) :
    (r.put e).invalidate = r.invalidate.put e.forget := by
  cases e with
  | parameter p =>
    simp only [put, putParameter, Entity.forget, invalidate, map_insert_apply,
      p.symbol_forget]
    rfl
  | domain d =>
    cases d <;>
      simp only [put, putDomain, Entity.forget, Domain.forget, invalidate,
        map_insert_apply] <;> rfl
  | _ => rfl

theorem Holds.invalidate (h : r.Holds e) : r.invalidate.Holds e.forget := by
  cases e with
  | parameter p =>
    simp only [Holds, Entity.forget, p.symbol_forget] at h ⊢
    exact (contains_map _ _ _).trans h
  | domain d => cases d <;> exact h
  | _ => exact h

/-- Entities of different symbols can take their places in either order. -/
theorem put_comm (hne : e.symbol ≠ e'.symbol) (he : r.Holds e) (he' : r.Holds e') :
    (r.put e).put e' = (r.put e').put e := by
  cases e with
  | parameter p =>
    cases e' with
    | parameter q =>
      exact congrArg (fun u => { r with params := u }) (insert_comm hne he he' p q)
    | domain d => cases d <;> rfl
    | _ => rfl
  | domain d =>
    cases d with
    | tuples d =>
      cases e' with
      | domain d' =>
        cases d' with
        | tuples d' =>
          exact congrArg (fun u => { r with tupleSets := u }) (insert_comm hne he he' d d')
        | _ => rfl
      | _ => rfl
    | primitive d =>
      cases e' with
      | domain d' =>
        cases d' with
        | primitive d' =>
          exact congrArg (fun u => { r with primitiveSets := u })
            (insert_comm hne he he' d d')
        | _ => rfl
      | _ => rfl
    | _ => exact he.elim
  | _ => exact he.elim

theorem Holds.stores_put (h : r.Holds e) : (r.put e).Stores e := by
  cases e with
  | parameter p => exact find?_insert_self _ _ _
  | domain d =>
    cases d with
    | tuples d | primitive d => exact find?_insert_self _ _ _
    | _ => exact h.elim
  | _ => exact h.elim

theorem Stores.invalidate (h : r.Stores e) : r.invalidate.Stores e.forget := by
  cases e with
  | parameter p =>
    have hfound : r.params.find? p.symbol = some p := h
    simp only [Stores, Entity.forget, p.symbol_forget, find?_params_invalidate, hfound]
    rfl
  | domain d => cases d <;> exact h
  | _ => exact h

theorem Stores.put (h : r.Stores e) (hne : e'.symbol ≠ e.symbol) : (r.put e').Stores e := by
  cases e with
  | parameter p => exact (find?_params_put hne).trans h
  | domain d =>
    cases d with
    | tuples d => exact (find?_tupleSets_put hne).trans h
    | primitive d =>
      cases e' with
      | domain d' =>
        cases d' with
        | primitive d' => exact (find?_insert_of_ne _ _ hne).trans h
        | _ => exact h
      | _ => exact h
    | _ => exact h
  | _ => exact h

theorem domain?_tuples {s : String} {d : TupleSet K} :
    r.domain? s = some (.tuples d) ↔ r.tupleSets.find? s = some d := by
  simp only [domain?]
  cases r.tupleSets.find? s <;> cases r.computedSets.find? s <;>
    cases r.primitiveSets.find? s <;> cases r.indexSets.find? s <;>
    cases r.boundRanges.find? s <;> simp

theorem find?_of_domain?_primitive {s : String} {d : PrimitiveSet K}
    (h : r.domain? s = some (.primitive d)) : r.primitiveSets.find? s = some d := by
  simp only [domain?] at h
  cases htuples : r.tupleSets.find? s <;> cases hcomputed : r.computedSets.find? s <;>
    cases hprimitive : r.primitiveSets.find? s <;> simp_all

theorem tupleSets_contains_false {s : String} (h : ∀ d, r.domain? s ≠ some (.tuples d)) :
    r.tupleSets.contains s = false := by
  cases hd : r.tupleSets.find? s with
  | none => simp [contains, hd]
  | some d => exact absurd (domain?_tuples.2 hd) (h d)

end Registry

/-- Two registries in which a symbol names the same, but for what has been computed. -/
structure Registry.AlikeAt (symbol : String) (r t : Registry K) : Prop where
  domain : (r.domain? symbol).map Domain.forget = (t.domain? symbol).map Domain.forget
  parameter : (r.params.find? symbol).map forget =
    (t.params.find? symbol).map forget

namespace Registry

variable {r t : Registry K} {symbol : String} {e : Entity K}

theorem AlikeAt.symm (h : r.AlikeAt symbol t) : t.AlikeAt symbol r :=
  ⟨h.domain.symm, h.parameter.symm⟩

/-- Assigning to another symbol changes nothing about this one. -/
theorem alikeAt_put (r : Registry K) (h : e.symbol ≠ symbol) :
    r.AlikeAt symbol (r.invalidate.put e.forget) := by
  have hother : e.forget.symbol ≠ symbol := by rwa [e.symbol_forget]
  have hdomain : ∀ d : Domain K, d.forget.forget = d.forget := by
    intro d
    cases d <;> rfl
  constructor
  · rw [domain?_put hother, domain?_invalidate]
    simp only [Option.map_map, Function.comp_def, hdomain]
  · rw [find?_params_put hother, find?_params_invalidate]
    simp only [Option.map_map]
    exact congrArg (fun f => (r.params.find? symbol).map f)
      (funext fun p => p.forget_forget.symm)

theorem AlikeAt.find?_params (h : r.AlikeAt symbol t) (hp : r.params.find? symbol = some p) :
    ∃ p', t.params.find? symbol = some p' ∧ p.forget = p'.forget := by
  have hparameter := h.parameter
  rw [hp, Option.map_some, eq_comm, Option.map_eq_some_iff] at hparameter
  obtain ⟨p', hp', hforget⟩ := hparameter
  exact ⟨p', hp', hforget.symm⟩

theorem AlikeAt.domain?_none (h : r.AlikeAt symbol t) (hr : r.domain? symbol = none) :
    t.domain? symbol = none := by
  have hdomain := h.domain
  rw [hr, Option.map_none, eq_comm, Option.map_eq_none_iff] at hdomain
  exact hdomain

/-- A given set is not computed, so it is the same in both. -/
theorem AlikeAt.domain?_given (h : r.AlikeAt symbol t) {d : Domain K}
    (hr : r.domain? symbol = some d) (hd : ∀ d', d'.forget = d.forget → d' = d) :
    t.domain? symbol = some d := by
  have hdomain := h.domain
  rw [hr, Option.map_some, eq_comm, Option.map_eq_some_iff] at hdomain
  obtain ⟨d', hd', hforget⟩ := hdomain
  rw [hd', hd d' hforget]

end Registry

variable [Scalar K]

/-- Store values at several indices, one after the other. -/
def Parameter.setAll (p : Parameter K) (entries : List (Value K × Value K)) :
    Except (Cause K) (Parameter K) :=
  entries.foldlM (fun q e => q.setAt (indexOf e.1) e.2) p

/-- A value in the form in which a parameter stores it. -/
def Parameter.fitted (p : Parameter K) (v : Value K) : Except (Cause K) (Value K) := do
  (← p.prepare v).coerce p.type

namespace Parameter

variable {p p' q : Parameter K} {v : Value K} {idx : Index K}

theorem set_eq_ok : p.set v = .ok q ↔
    p.isIndexed = false ∧ ∃ w, p.fitted v = .ok w ∧ q = { p with value := some w } := by
  simp only [set, fitted]
  cases p.prepare v with
  | error c => simp [bind, Except.bind]
  | ok u =>
    cases p.isIndexed with
    | true => simp [bind, Except.bind]
    | false =>
      cases hw : u.coerce p.type with
      | error c => simp [bind, Except.bind, hw]
      | ok w => simp [bind, Except.bind, pure, Except.pure, hw, eq_comm]

theorem setAt_eq_ok : p.setAt idx v = .ok q ↔
    idx.length = p.dim ∧ Value.areKeys (idx.map Value.normalize) = true ∧ ∃ w, p.fitted v = .ok w ∧
      q = { p with values := p.values.insert (idx.map Value.normalize) w } := by
  simp only [setAt, fitted]
  cases p.prepare v with
  | error c => simp [bind, Except.bind]
  | ok u =>
    by_cases hlength : idx.length = p.dim
    · cases hw : u.coerce p.type with
      | error c => simp [bind, Except.bind, hlength, hw]
      | ok w =>
        cases Value.areKeys (idx.map Value.normalize) <;>
          simp [bind, Except.bind, pure, Except.pure, hlength, hw, eq_comm]
    · simp [bind, Except.bind, hlength]

theorem SameDeclaration.fitted (h : p.SameDeclaration p') (v : Value K) :
    p'.fitted v = p.fitted v := by
  rw [← h]
  rfl

theorem SameDeclaration.set (h : p.SameDeclaration p') (hq : p.set v = .ok q) :
    ∃ q', p'.set v = .ok q' ∧ q.SameDeclaration q' := by
  obtain ⟨hindexed, w, hw, rfl⟩ := set_eq_ok.1 hq
  have hindexed' : p'.isIndexed = false := by rwa [isIndexed, h.domains]
  refine ⟨_, set_eq_ok.2 ⟨hindexed', w, (h.fitted v).trans hw, rfl⟩, ?_⟩
  rw [← h]
  rfl

theorem SameDeclaration.setAt (h : p.SameDeclaration p') (hq : p.setAt idx v = .ok q) :
    ∃ q', p'.setAt idx v = .ok q' ∧ q.SameDeclaration q' := by
  obtain ⟨hlength, hkeys, w, hw, rfl⟩ := setAt_eq_ok.1 hq
  have hlength' : idx.length = p'.dim := by rwa [dim, h.domains]
  refine ⟨_, setAt_eq_ok.2 ⟨hlength', hkeys, w, (h.fitted v).trans hw, rfl⟩, ?_⟩
  rw [← h]
  rfl

theorem SameDeclaration.setAll {entries : List (Value K × Value K)} (h : p.SameDeclaration p')
    (hq : p.setAll entries = .ok q) : ∃ q', p'.setAll entries = .ok q' ∧ q.SameDeclaration q' := by
  induction entries generalizing p p' with
  | nil =>
    cases hq
    exact ⟨p', rfl, h⟩
  | cons e entries ih =>
    obtain ⟨p₁, hp₁, hq⟩ := bind_eq_ok.1 hq
    obtain ⟨p₁', hp₁', h₁⟩ := h.setAt hp₁
    obtain ⟨q', hq', hsame⟩ := ih h₁ hq
    exact ⟨q', bind_eq_ok.2 ⟨p₁', hp₁', hq'⟩, hsame⟩

end Parameter

/-- What assigning a value to a symbol makes of the entity that the symbol names. Domains come
before parameters, and of the domains only sets of records and sets that are left open take data. -/
inductive Registry.Takes (r : Registry K) (symbol : String) (v : Value K) : Entity K → Prop
  | records {d : TupleSet K} {vs records : List (Value K)}
      (hd : r.domain? symbol = some (.tuples d)) (hvs : v.items? = some vs)
      (hrecords : d.recordsOf vs = .ok records) (hown : { d with records }.foreign? = none) :
      Takes r symbol v (.domain (.tuples { d with records }))
  | elements {d d' : PrimitiveSet K} {vs : List (Value K)}
      (hd : r.domain? symbol = some (.primitive d)) (hopen : d.isExternal = true)
      (hvs : v.items? = some vs) (hd' : d.withElements vs = .ok d') :
      Takes r symbol v (.domain (.primitive d'))
  | values {p q : Parameter K} {keys values : List (Value K)} (hdomain : r.domain? symbol = none)
      (hp : r.params.find? symbol = some p) (hindexed : p.isIndexed = true)
      (hv : v = .map keys values) (hq : p.setAll (keys.zip values) = .ok q) :
      Takes r symbol v (.parameter q)
  | value {p q : Parameter K} (hdomain : r.domain? symbol = none)
      (hp : r.params.find? symbol = some p) (hindexed : p.isIndexed = false)
      (hq : p.set v = .ok q) : Takes r symbol v (.parameter q)

/-! ## Assignments replace one entity -/

theorem Parameter.setAll_ok {q : Parameter K} {entries : List (Value K × Value K)}
    (h : p.setAll entries = .ok q) : ∃ values, q = { p with values } := by
  induction entries generalizing p with
  | nil =>
    cases h
    exact ⟨_, rfl⟩
  | cons e entries ih =>
    obtain ⟨p', hp', h⟩ := bind_eq_ok.1 h
    obtain ⟨values, rfl⟩ := setAt_ok hp'
    obtain ⟨values', rfl⟩ := ih h
    exact ⟨values', rfl⟩

theorem PrimitiveSet.withElements_ok {d d' : PrimitiveSet K} {vs : List (Value K)}
    (h : d.withElements vs = .ok d') : ∃ elements, d' = { d with elements } := by
  obtain ⟨ws, _, h⟩ := bind_eq_ok.1 h
  cases h
  exact ⟨_, rfl⟩

namespace Registry

variable {r t : Registry K} {symbol : String} {v : Value K} {e : Entity K}

theorem Takes.symbol_eq (hr : r.IsFiled) (h : r.Takes symbol v e) : e.symbol = symbol := by
  cases h with
  | records hd _ _ _ =>
    have hsymbol := hr.tupleSets (domain?_tuples.1 hd)
    exact hsymbol
  | elements hd _ _ hd' =>
    obtain ⟨_, rfl⟩ := PrimitiveSet.withElements_ok hd'
    have hsymbol := hr.primitiveSets (find?_of_domain?_primitive hd)
    exact hsymbol
  | values _ hp _ _ hq =>
    obtain ⟨_, rfl⟩ := setAll_ok hq
    have hsymbol := hr.params hp
    exact hsymbol
  | value _ hp _ hq =>
    obtain ⟨_, _, rfl⟩ := set_ok hq
    have hsymbol := hr.params hp
    exact hsymbol

theorem Takes.holds (hr : r.IsFiled) (h : r.Takes symbol v e) : r.Holds e := by
  have hsymbol := h.symbol_eq hr
  cases h with
  | records hd _ _ _ =>
    have hfound := domain?_tuples.1 hd
    rw [← hsymbol] at hfound
    exact Option.isSome_of_mem hfound
  | elements hd _ _ hd' =>
    have hfound := find?_of_domain?_primitive hd
    rw [← hsymbol] at hfound
    exact Option.isSome_of_mem hfound
  | values _ hp _ _ _ | value _ hp _ _ =>
    rw [← hsymbol] at hp
    exact Option.isSome_of_mem hp

end Registry

theorem returns_storeEntries {entries : List (Value K × Value K)} (hp : p.symbol = symbol)
    (hs : s.registry.params.find? symbol = some p) : (storeEntries symbol entries).Returns s () s' ↔
      ∃ q, p.setAll entries = .ok q ∧ s' = { s with registry := s.registry.putParameter q } := by
  induction entries generalizing p s with
  | nil =>
    have hsame : s.registry.putParameter p = s.registry := by
      rw [putParameter, hp, insert_found hs]
    constructor
    · intro h
      obtain ⟨_, rfl⟩ := returns_pure.1 h
      exact ⟨p, rfl, by rw [hsame]⟩
    · rintro ⟨q, hq, rfl⟩
      cases hq
      rw [hsame]
      exact returns_pure.2 ⟨rfl, rfl⟩
  | cons e entries ih =>
    have hput : ∀ {q₁ q : Parameter K}, q₁.symbol = q.symbol →
        (s.registry.putParameter q₁).putParameter q = s.registry.putParameter q := by
      intro q₁ q hq
      simp only [putParameter, hq, insert_insert]
    have hstep : ∀ {q₁ : Parameter K}, p.setAt (indexOf e.1) e.2 = .ok q₁ →
        q₁.symbol = symbol ∧ (s.registry.putParameter q₁).params.find? symbol = some q₁ := by
      intro q₁ hq₁
      obtain ⟨values, rfl⟩ := setAt_ok hq₁
      exact ⟨hp, hp ▸ find?_insert_self _ _ _⟩
    have hrest : ∀ {q₁ q : Parameter K}, q₁.setAll entries = .ok q → q₁.symbol = q.symbol := by
      intro q₁ q hq
      obtain ⟨values, rfl⟩ := setAll_ok hq
      rfl
    constructor
    · intro h
      obtain ⟨_, s₁, hfirst, h⟩ := returns_bind.1 h
      obtain ⟨p', q₁, hp', hq₁, rfl⟩ := (returns_writing (some _)).1 hfirst
      obtain rfl : p = p' := Option.some.inj (hs.symm.trans hp')
      obtain ⟨hsymbol, hfound⟩ := hstep hq₁
      obtain ⟨q, hq, rfl⟩ := (ih hsymbol hfound).1 h
      exact ⟨q, bind_eq_ok.2 ⟨q₁, hq₁, hq⟩, by rw [hput (hrest hq)]⟩
    · rintro ⟨q, hq, rfl⟩
      obtain ⟨q₁, hq₁, hq⟩ := bind_eq_ok.1 hq
      obtain ⟨hsymbol, hfound⟩ := hstep hq₁
      refine returns_bind.2 ⟨(), _, (returns_writing (some _)).2 ⟨p, q₁, hs, hq₁, rfl⟩, ?_⟩
      exact (ih hsymbol hfound).2 ⟨q, hq, by rw [hput (hrest hq)]⟩

theorem returns_assignRecords : (assignRecords symbol v).Returns s () s' ↔ ∃ d vs records,
      s.registry.tupleSets.find? symbol = some d ∧ v.items? = some vs ∧
      d.recordsOf vs = .ok records ∧ { d with records }.foreign? = none ∧ s' = { s with registry :=
        (s.registry.put (.domain (.tuples { d with records }))).invalidate } := by
  constructor
  · intro h
    replace h := returns_registry_bind.1 h
    split at h
    · exact absurd h not_returns_fail
    rename_i d hd
    obtain ⟨vs, s₂, hitems, h⟩ := returns_bind.1 h
    obtain ⟨hvs, rfl⟩ := returns_itemsOf.1 hitems
    obtain ⟨records, s₃, hread, h⟩ := returns_bind.1 h
    obtain ⟨hrecords, rfl⟩ := returns_ofExcept.1 hread
    obtain ⟨_, s₄, hput, h⟩ := returns_bind.1 h
    obtain rfl := returns_modifyRegistry.1 hput
    split at h
    · exact absurd h not_returns_fail
    · rename_i hown
      exact ⟨d, vs, records, hd, hvs, hrecords, hown, (returns_modifyRegistry.1 h).symm⟩
  · rintro ⟨d, vs, records, hd, hvs, hrecords, hown, rfl⟩
    refine returns_bind.2 ⟨_, s, returns_registry.2 ⟨rfl, rfl⟩, ?_⟩
    simp only [hd]
    refine returns_bind.2 ⟨vs, s, returns_itemsOf.2 ⟨hvs, rfl⟩, ?_⟩
    refine returns_bind.2 ⟨records, s, returns_ofExcept.2 ⟨hrecords, rfl⟩, ?_⟩
    refine returns_bind.2 ⟨(), _, returns_modifyRegistry.2 rfl, ?_⟩
    rw [hown]
    exact returns_modifyRegistry.2 rfl

theorem returns_assignElements : (assignElements symbol v).Returns s () s' ↔ ∃ d vs d',
      s.registry.domain? symbol = some (.primitive d) ∧ d.isExternal = true ∧
      v.items? = some vs ∧ d.withElements vs = .ok d' ∧
      s' = { s with registry := (s.registry.put (.domain (.primitive d'))).invalidate } := by
  constructor
  · intro h
    replace h := returns_registry_bind.1 h
    split at h
    · rename_i d hd
      obtain ⟨_, h⟩ | ⟨hopen, h⟩ := returns_if.1 h
      · obtain ⟨_, _, h, _⟩ := returns_bind.1 h
        exact absurd h not_returns_fail
      obtain ⟨vs, s₂, hitems, h⟩ := returns_bind.1 h
      obtain ⟨hvs, rfl⟩ := returns_itemsOf.1 hitems
      obtain ⟨d', s₃, hread, h⟩ := returns_bind.1 h
      obtain ⟨hd', rfl⟩ := returns_ofExcept.1 hread
      obtain ⟨_, s₄, hput, h⟩ := returns_bind.1 h
      obtain rfl := returns_modifyRegistry.1 hput
      exact ⟨d, vs, d', hd, by simpa using hopen, hvs, hd', (returns_modifyRegistry.1 h).symm⟩
    · exact absurd h not_returns_fail
  · rintro ⟨d, vs, d', hd, hopen, hvs, hd', rfl⟩
    refine returns_bind.2 ⟨_, s, returns_registry.2 ⟨rfl, rfl⟩, ?_⟩
    simp only [hd, hopen]
    refine returns_bind.2 ⟨vs, s, returns_itemsOf.2 ⟨hvs, rfl⟩, ?_⟩
    refine returns_bind.2 ⟨d', s, returns_ofExcept.2 ⟨hd', rfl⟩, ?_⟩
    refine returns_bind.2 ⟨(), _, returns_modifyRegistry.2 rfl, ?_⟩
    exact returns_modifyRegistry.2 rfl

theorem returns_assignParameters (hp : s.registry.params.find? symbol = some p)
    (hsymbol : p.symbol = symbol) :
    (assignParameters symbol v).Returns s () s' ↔ ∃ keys values q, v = .map keys values ∧
      p.setAll (keys.zip values) = .ok q ∧
      s' = { s with registry := (s.registry.put (.parameter q)).invalidate } := by
  have hdeclared : s.registry.params.contains symbol = true := Option.isSome_of_mem hp
  constructor
  · intro h
    replace h := returns_registry_bind.1 h
    simp only [hdeclared, Bool.not_true, Bool.false_eq_true, if_false] at h
    cases v with
    | map keys values =>
      obtain ⟨_, s₂, hstored, h⟩ := returns_bind.1 h
      obtain ⟨q, hq, rfl⟩ := (returns_storeEntries hsymbol hp).1 hstored
      exact ⟨keys, values, q, rfl, hq, (returns_modifyRegistry.1 h).symm⟩
    | _ => exact absurd h not_returns_fail
  · rintro ⟨keys, values, q, rfl, hq, rfl⟩
    refine returns_bind.2 ⟨_, s, returns_registry.2 ⟨rfl, rfl⟩, ?_⟩
    simp only [hdeclared, Bool.not_true, Bool.false_eq_true, if_false]
    refine returns_bind.2 ⟨(), _, (returns_storeEntries hsymbol hp).2 ⟨q, hq, rfl⟩, ?_⟩
    exact returns_modifyRegistry.2 rfl

theorem returns_assignParameter (hp : s.registry.params.find? symbol = some p)
    (place : Option (Index K)) :
    (assignParameter symbol place v).Returns s () s' ↔ ∃ q, p.write place v = .ok q ∧
      s' = { s with registry := (s.registry.put (.parameter q)).invalidate } := by
  rw [assignParameter_eq]
  constructor
  · intro h
    obtain ⟨_, s₁, hstored, h⟩ := returns_bind.1 h
    obtain ⟨p', q, hp', hq, rfl⟩ := (returns_writing place).1 hstored
    obtain rfl : p = p' := Option.some.inj (hp.symm.trans hp')
    exact ⟨q, hq, (returns_modifyRegistry.1 h).symm⟩
  · rintro ⟨q, hq, rfl⟩
    exact returns_bind.2
      ⟨(), _, (returns_writing place).2 ⟨p, q, hp, hq, rfl⟩, returns_modifyRegistry.2 rfl⟩

/-- An assignment replaces the entity of its symbol, and nothing computed is left. -/
theorem returns_assign (hs : s.registry.IsFiled) :
    (assign symbol v).Returns s () s' ↔ ∃ e, s.registry.Takes symbol v e ∧
      s' = { s with registry := s.registry.invalidate.put e.forget } := by
  rw [Returns, start_assign, ← Returns]
  simp only [← invalidate_put]
  constructor
  · intro h
    obtain ⟨_, h⟩ | ⟨hrecords, h⟩ := returns_if.1 h
    · obtain ⟨d, vs, records, hd, hvs, hrecords, hown, rfl⟩ := returns_assignRecords.1 h
      exact ⟨_, .records (domain?_tuples.2 hd) hvs hrecords hown, rfl⟩
    obtain ⟨_, h⟩ | ⟨hdomain, h⟩ := returns_if.1 h
    · obtain ⟨d, vs, d', hd, hopen, hvs, hd', rfl⟩ := returns_assignElements.1 h
      exact ⟨_, .elements hd hopen hvs hd', rfl⟩
    have hdomain : s.registry.domain? symbol = none := by simpa using hdomain
    split at h
    · rename_i p hp
      obtain ⟨hindexed, h⟩ | ⟨hindexed, h⟩ := returns_if.1 h
      · obtain ⟨keys, values, q, rfl, hq, rfl⟩ := (returns_assignParameters hp (hs.params hp)).1 h
        exact ⟨_, .values hdomain hp hindexed rfl hq, rfl⟩
      · obtain ⟨q, hq, rfl⟩ := (returns_assignParameter hp none).1 h
        exact ⟨_, .value hdomain hp (Bool.eq_false_iff.2 hindexed) hq, rfl⟩
    · exact absurd h not_returns_fail
  · rintro ⟨e, hTakes, rfl⟩
    cases hTakes with
    | records hd hvs hrecords hown =>
      have hd := domain?_tuples.1 hd
      have hcontains : s.registry.tupleSets.contains symbol = true := Option.isSome_of_mem hd
      rw [if_pos hcontains]
      exact returns_assignRecords.2 ⟨_, _, _, hd, hvs, hrecords, hown, rfl⟩
    | elements hd hopen hvs hd' =>
      rw [tupleSets_contains_false (by simp [hd]), if_neg Bool.false_ne_true,
        if_pos (Option.isSome_of_mem hd)]
      exact returns_assignElements.2 ⟨_, _, _, hd, hopen, hvs, hd', rfl⟩
    | values hdomain hp hindexed hv hq =>
      rw [tupleSets_contains_false (by simp [hdomain]), if_neg Bool.false_ne_true, hdomain]
      simp only [hp, hindexed]
      exact (returns_assignParameters hp (hs.params hp)).2 ⟨_, _, _, hv, hq, rfl⟩
    | value hdomain hp hindexed hq =>
      rw [tupleSets_contains_false (by simp [hdomain]), if_neg Bool.false_ne_true, hdomain]
      simp only [hp, hindexed]
      exact (returns_assignParameter hp none).2 ⟨_, hq, rfl⟩

/-! ## Assignments to different symbols -/

namespace Registry

variable {r t : Registry K} {symbol : String} {v : Value K} {e : Entity K}

/-- What an assignment makes of its entity does not depend on other symbols. -/
theorem Takes.alike (h : r.Takes symbol v e) (ht : r.AlikeAt symbol t) :
    ∃ e', t.Takes symbol v e' ∧ e'.forget = e.forget := by
  cases h with
  | @records d vs records hd hvs hrecords hown =>
    have hd' := ht.domain?_given hd fun d' hforget => by cases d' <;> simp_all [Domain.forget]
    exact ⟨_, .records hd' hvs hrecords hown, rfl⟩
  | @elements d d' vs hd hopen hvs hd' =>
    have hd := ht.domain?_given hd fun d' hforget => by cases d' <;> simp_all [Domain.forget]
    exact ⟨_, .elements hd hopen hvs hd', rfl⟩
  | @values p q keys values hdomain hp hindexed hv hq =>
    obtain ⟨p', hp', hforget⟩ := ht.find?_params hp
    obtain ⟨hsame, hgiven⟩ := sameDeclaration_of_forget hforget
    obtain ⟨q', hq', hsame'⟩ := hsame.setAll hq
    have hindexed' : p'.isIndexed = true := by rwa [isIndexed, hsame.domains]
    refine ⟨_, .values (ht.domain?_none hdomain) hp' hindexed' hv hq', ?_⟩
    obtain ⟨_, rfl⟩ := setAll_ok hq
    refine congrArg Entity.parameter (hsame'.forget fun hnone => ?_)
    obtain rfl := hgiven hnone
    exact Except.ok.inj (hq.symm.trans hq')
  | @value p q hdomain hp hindexed hq =>
    obtain ⟨p', hp', hforget⟩ := ht.find?_params hp
    obtain ⟨hsame, hgiven⟩ := sameDeclaration_of_forget hforget
    obtain ⟨q', hq', hsame'⟩ := hsame.set hq
    have hindexed' : p'.isIndexed = false := by rwa [isIndexed, hsame.domains]
    refine ⟨_, .value (ht.domain?_none hdomain) hp' hindexed' hq', ?_⟩
    obtain ⟨_, w, rfl⟩ := set_ok hq
    refine congrArg Entity.parameter (hsame'.forget fun hnone => ?_)
    obtain rfl := hgiven hnone
    exact Except.ok.inj (hq.symm.trans hq')

end Registry

/-- Two assignments to different symbols can be made in either order. -/
theorem assign_comm {n m : String} (hne : n ≠ m) {u : Value K} (hs : s.registry.IsFiled)
    (h : (do assign n u; assign m v).Returns s () s') :
    (do assign m v; assign n u).Returns s () s' := by
  obtain ⟨_, s₁, h₁, h₂⟩ := returns_bind.1 h
  obtain ⟨e, he, rfl⟩ := (returns_assign hs).1 h₁
  obtain ⟨e', he', rfl⟩ := (returns_assign (hs.invalidate.put _)).1 h₂
  have hsymbol := he.symbol_eq hs
  -- the second assignment is made first
  obtain ⟨f', hf', hforget'⟩ :=
    he'.alike (s.registry.alikeAt_put (hsymbol.trans_ne hne)).symm
  have hsymbol' := hf'.symbol_eq hs
  obtain ⟨f, hf, hforget⟩ :=
    he.alike (s.registry.alikeAt_put (hsymbol'.trans_ne hne.symm))
  refine returns_bind.2 ⟨(), _, (returns_assign hs).2 ⟨f', hf', rfl⟩, ?_⟩
  refine (returns_assign (hs.invalidate.put _)).2 ⟨f, hf, ?_⟩
  have hplaces : (s.registry.invalidate.put e.forget).put f'.forget =
      (s.registry.invalidate.put f'.forget).put e.forget := by
    refine put_comm ?_ (he.holds hs).invalidate (hf'.holds hs).invalidate
    rw [e.symbol_forget, f'.symbol_forget, hsymbol, hsymbol']
    exact hne
  simp only [invalidate_put, invalidate_invalidate, Entity.forget_forget, hforget,
    ← hforget', hplaces]

/-! ## Registries and problems that are filed -/

namespace Registry

theorem renewed_isFiled : Renewed (K := K) IsFiled
    fun r => r.IsFiled ∧ r.IsBlank where
  stored {_ _ _ q} _ _ hr := hr.putParameter q
  elements {_ _ d _} _ hr := hr.put (.domain (.primitive d))
  records _ hr := hr.put (.domain (.tuples _))
  forgotten hr := ⟨hr.invalidate, isBlank_invalidate _⟩

end Registry

/-- A filed registry stays filed, and the decision expressions stay as they are. -/
def Progress.filed : Progress K where
  holds _ := True
  later r t := (r.IsFiled → t.IsFiled) ∧ t.dexprs = r.dexprs
  refl _ := ⟨id, rfl⟩
  trans h h' := ⟨h'.1 ∘ h.1, h'.2.trans h.2⟩
  kept _ _ := trivial

theorem Progress.filed_absorbs : (filed : Progress K).Absorbs where
  stored _ p := ⟨fun hr => hr.putParameter p, rfl⟩
  range r s f := by
    unfold changeRange
    split
    exacts [⟨fun hr => { hr with }, rfl⟩, ⟨id, rfl⟩]
  members r s f := by
    unfold changeMembers
    split
    exacts [⟨fun hr => { hr with }, rfl⟩, ⟨id, rfl⟩]

theorem Registry.readsTo_isFiled {P : Expr K → Prop} : ReadsTo IsFiled IsFiled P where
  evaluated :=
    ⟨fun e _ _ _ hs h => (filed_absorbs.evaluateValue e _ trivial h).1.1 hs,
      fun symbol _ _ _ hs h => (filed_absorbs.resolveDomain symbol _ _ trivial h).1.1 hs⟩
  undeclared := id
  declared {t e t'} ht _ h := by
    unfold declare at h
    split at h
    · cases h
    · cases h
      exact ht.put e

theorem Registry.isFiled_lasts : Lasts (K := K) IsFiled where
  empty := isFiled_empty
  read _ _ _ _ _ hs h := (parseStatement_leads readsTo_isFiled (forms_indexed _) rfl hs h).1
  data hx _ _ _ hs h := (hx.leads renewed_isFiled hs h).1.1
  value e env _ _ _ hs h := (filed_absorbs.evaluateValue e env trivial h).1.1 hs
  references stmts _ _ _ hs h := by
    have hany (r : Registry K) :=
      Judgement.any_sound (r := r) (filed_absorbs.lookups _) fun h => h.2
    exact (Judgement.Sound.referencesOf hany stmts trivial h).1.1 hs

/-- Every problem that is reached has its parameters and given sets under their own symbols. -/
theorem Problem.Reached.isFiled {p : Problem K} (h : p.Reached) : p.registry.IsFiled :=
  h.keeps isFiled_lasts

/-! ## Loading in any order -/

/-- Assign values to symbols one after the other. -/
def assignEach (entries : List (String × Value K)) : Run K Unit :=
  entries.forM fun e => assign e.1 e.2

theorem assignEach_isBlank (hentries : entries ≠ []) (hs : s.registry.IsFiled)
    (h : (assignEach entries).Returns s () s') : s'.registry.IsBlank := by
  have hrest : ∀ entries : List (String × Value K), Run.Preserves
      (fun r => r.IsFiled ∧ r.IsBlank) (assignEach entries) := by
    intro entries
    induction entries with
    | nil => exact Steady.preserves (steady_pure _) _
    | cons e entries ih =>
      refine Preserves.bind (fun s _ s' hs h => ?_) fun _ => ih
      exact (renewed_isFiled.assign e.1 e.2 hs.1 h).1
  cases entries with
  | nil => exact absurd rfl hentries
  | cons e entries =>
    obtain ⟨_, s₁, h₁, h⟩ := returns_bind.1 h
    exact (hrest entries (renewed_isFiled.assign e.1 e.2 hs h₁).1 h).2

/-- Values for different symbols can be assigned in any order. -/
theorem assignEach_perm {entries' : List (String × Value K)} (hperm : entries.Perm entries')
    (hkeys : (entries.map (·.1)).Nodup) (hs : s.registry.IsFiled)
    (h : (assignEach entries).Returns s () s') : (assignEach entries').Returns s () s' := by
  induction hperm generalizing s with
  | nil => exact h
  | cons e _ ih =>
    rw [List.map_cons, List.nodup_cons] at hkeys
    obtain ⟨_, s₁, h₁, h⟩ := returns_bind.1 h
    have hs₁ := (renewed_isFiled.assign e.1 e.2 hs h₁).1.1
    exact returns_bind.2 ⟨(), s₁, h₁, ih hkeys.2 hs₁ h⟩
  | swap e e' entries =>
    have hne : e'.1 ≠ e.1 := by
      simp only [List.map_cons, List.nodup_cons, List.mem_cons, not_or] at hkeys
      exact hkeys.1.1
    obtain ⟨_, s₁, h₁, h⟩ := returns_bind.1 h
    obtain ⟨_, s₂, h₂, h⟩ := returns_bind.1 h
    obtain ⟨_, s₃, h₃, h₄⟩ :=
      returns_bind.1 (assign_comm hne hs (returns_bind.2 ⟨(), s₁, h₁, h₂⟩))
    exact returns_bind.2 ⟨(), s₃, h₃, returns_bind.2 ⟨(), s₂, h₄, h⟩⟩
  | trans hfirst _ ih ih' =>
    exact ih' ((hfirst.map _).nodup_iff.1 hkeys) hs (ih hkeys hs h)

/-- What has been assigned stays while values are assigned to other symbols. -/
theorem assignEach_stores {e : Entity K} (hother : e.symbol ∉ entries.map (·.1))
    (hs : s.registry.IsFiled) (he : s.registry.Stores e) (hforgotten : e.forget = e)
    (h : (assignEach entries).Returns s () s') : s'.registry.Stores e := by
  induction entries generalizing s with
  | nil =>
    obtain ⟨_, rfl⟩ := returns_pure.1 h
    exact he
  | cons entry entries ih =>
    simp only [List.map_cons, List.mem_cons, not_or] at hother
    obtain ⟨_, s₁, h₁, h⟩ := returns_bind.1 h
    obtain ⟨e', he', rfl⟩ := (returns_assign hs).1 h₁
    have hkept := he.invalidate
    rw [hforgotten] at hkept
    refine ih hother.2 (hs.invalidate.put _) (hkept.put ?_) h
    rw [e'.symbol_forget, he'.symbol_eq hs]
    exact fun hsame => hother.1 hsame.symm

/-- Values for different symbols are all stored, each as if it were the only one. -/
theorem assignEach_takes (hkeys : (entries.map (·.1)).Nodup) (hs : s.registry.IsFiled)
    (h : (assignEach entries).Returns s () s') {entry : String × Value K}
    (hentry : entry ∈ entries) :
    ∃ e, s.registry.Takes entry.1 entry.2 e ∧ s'.registry.Stores e.forget := by
  -- the order does not matter, so the entry may as well come first
  obtain ⟨before, after, rfl⟩ := List.append_of_mem hentry
  have hperm : (before ++ entry :: after).Perm (entry :: (before ++ after)) := List.perm_middle
  have h := assignEach_perm hperm hkeys hs h
  have hkeys := (hperm.map (·.1)).nodup_iff.1 hkeys
  obtain ⟨_, s₁, h₁, h⟩ := returns_bind.1 h
  obtain ⟨e, he, rfl⟩ := (returns_assign hs).1 h₁
  rw [List.map_cons, List.nodup_cons] at hkeys
  refine ⟨e, he, assignEach_stores ?_ (hs.invalidate.put _) ((he.holds hs).invalidate.stores_put)
    e.forget_forget h⟩
  rw [e.symbol_forget, he.symbol_eq hs]
  exact hkeys.1

/-- Whatever the order of its entries, data with different symbols loads to the same problem, with
all values stored and nothing computed left, so that the problem is built in the same way. -/
theorem load_any_order {w w' : Workspace K} {data data' : Table String (Value K)}
    (hw : w.problem.registry.IsFiled) (hdata : data.toList ≠ []) (hkeys : data.keys.Nodup)
    (hperm : data.toList.Perm data'.toList) (h : (Work.load data false).Returns w () w') :
    (Work.load data' false).Returns w () w' ∧ w'.problem.registry.IsBlank ∧
      (∀ entry ∈ data.toList, ∃ e, w.problem.registry.Takes entry.1 entry.2 e ∧
        w'.problem.registry.Stores e.forget) ∧
      (Work.load data' true).carry w = Work.build.carry w' ∧
      (Work.load data true).carry w = Work.build.carry w' := by
  obtain ⟨_, w₁, hassigned, hlast⟩ := Work.returns_bind.1 h
  obtain ⟨_, rfl⟩ := Work.returns_pure.1 hlast
  obtain ⟨s', hs', hw'⟩ := Work.returns_ofRun.1 hassigned
  have hs'' : (assignAll data').Returns ⟨w.problem.registry, w.warnings⟩ () s' :=
    assignEach_perm hperm hkeys hw hs'
  have hassigned' := Work.returns_ofRun.2 ⟨s', hs'', hw'⟩
  have hbuilds : ∀ {d : Table String (Value K)}, (Work.ofRun (assignAll d)).Returns w () w₁ →
      (Work.load d true).carry w = Work.build.carry w₁ := by
    intro d hd
    rw [Work.load, Work.carry_bind, hd]
    rfl
  refine ⟨Work.returns_bind.2 ⟨(), w₁, hassigned', Work.returns_pure.2 ⟨rfl, rfl⟩⟩, ?_, ?_,
    hbuilds hassigned', hbuilds hassigned⟩
  · rw [hw']
    exact assignEach_isBlank hdata hw hs'
  · intro entry hentry
    rw [hw']
    exact assignEach_takes hkeys hw hs' hentry

/-- A model that leaves a number, a set, a set of records and costs open, and derives a number. -/
def openModel : Work ℚ Unit :=
  Work.addScript false "int n=...; \x7bint\x7d S=...; tuple T \x7bint c;\x7d; \x7bT\x7d A=...;
    int p[S]=...; int m=n+1; dvar int x[S]; forall(a in A) p[a.c]*x[a.c]>=m;"

/-- Data for everything that is open, and for the number that is derived. -/
def openData : List (String × Value ℚ) :=
  [("m", .int 9), ("p", .map [.int 1, .int 2] [.int 5, .int 7]),
    ("A", .list [.seq [.int 1], .seq [.int 2]]), ("n", .int 3), ("S", .list [.int 1, .int 2])]

theorem load_any_order_open : ∃ w w' w'' : Workspace ℚ, w.problem.Reached ∧
    (Work.load ⟨openData⟩ false).Returns w () w' ∧
    (Work.load ⟨openData.reverse⟩ false).Returns w () w' ∧ w'.problem.registry.IsBlank ∧
    (∃ e, w.problem.registry.Takes "n" (.int 3) e ∧ w'.problem.registry.Stores e.forget) ∧
    (Work.load ⟨openData⟩ true).Returns w () w'' ∧
    (Work.load ⟨openData.reverse⟩ true).Returns w () w'' := by
  have hrun : ((do openModel; Work.load ⟨openData⟩ true).carry blankWorkspace).1.toOption =
      some () := by decide +kernel
  obtain ⟨w'', h⟩ := Work.returns_of_toOption hrun
  obtain ⟨_, w, hread, hbuilt⟩ := Work.returns_bind.1 h
  obtain ⟨_, w', hassigned, _⟩ := Work.returns_bind.1 hbuilt
  have hreached : w.problem.Reached := Problem.Reached.script (.start none none none) hread
  have hload : (Work.load ⟨openData⟩ false).Returns w () w' :=
    Work.returns_bind.2 ⟨(), w', hassigned, Work.returns_pure.2 ⟨rfl, rfl⟩⟩
  obtain ⟨hreverse, hblank, hstored, hbuild', hbuild⟩ := load_any_order hreached.isFiled
    (List.cons_ne_nil _ _) (by decide) (List.reverse_perm openData).symm hload
  refine ⟨w, w', w'', hreached, hload, hreverse, hblank, hstored ("n", .int 3) ?_, hbuilt,
    hbuild'.trans (hbuild.symm.trans hbuilt)⟩
  simp

end LinearModel
