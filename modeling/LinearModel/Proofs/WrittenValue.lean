import LinearModel.Proofs.EqualDoubles
import LinearModel.Proofs.Loading

/-!
# Written values

A value is written to a parameter by itself, at an index, among other values of the parameter, or
among data for other symbols. It is read again in the form that the type of the parameter gives it,
and parameters that were not written to are read as before. Two kinds of values are lost, without a
failure. A parameter with a definition forgets what is written to it, because whatever is derived is
forgotten after each assignment. And a scalar parameter that is written to at the empty index keeps
the value where no read looks for it.
-/
namespace LinearModel

open Run Parameter

variable {K : Type} {α κ : Type}

/-! ## Tables whose keys are compared -/

instance listPartialEquivBEq {α : Type} [BEq α] [PartialEquivBEq α] : PartialEquivBEq (List α) where
  symm {as bs} h := by
    induction as generalizing bs with
    | nil => cases bs <;> simp_all
    | cons a as ih =>
      cases bs with
      | nil => simp at h
      | cons b bs =>
        simp only [List.cons_beq_cons, Bool.and_eq_true] at h ⊢
        exact ⟨BEq.symm h.1, ih h.2⟩
  trans {as bs cs} h h' := by
    induction as generalizing bs cs with
    | nil => cases bs <;> simp_all
    | cons a as ih =>
      cases bs with
      | nil => simp at h
      | cons b bs =>
        cases cs with
        | nil => simp at h'
        | cons c cs =>
          simp only [List.cons_beq_cons, Bool.and_eq_true] at h h' ⊢
          exact ⟨BEq.trans h.1 h'.1, ih h.2 h'.2⟩

/-- Entering one key leaves the entries of those that do not equal it. -/
theorem Table.find?_insert_of_not_beq [BEq κ] [PartialEquivBEq κ] (t : Table κ α) {k k' : κ} (a : α)
    (h : (k == k') = false) : (t.insert k a).find? k' = t.find? k' := by
  obtain ⟨es⟩ := t
  simp only [insert, find?]
  induction es with
  | nil => simp [insertIn, findIn, h]
  | cons e es ih =>
    by_cases hk : (e.1 == k) = true
    · have hek : (e.1 == k') = false := by
        rw [Bool.eq_false_iff] at h ⊢
        exact fun hek => h (BEq.trans (BEq.symm hk) hek)
      simp [insertIn, findIn, hk, hek]
    · simp [insertIn, findIn, hk, ih]

/-! ## Parameters -/

variable [Scalar K]

/-- Two indices that values are stored at in the same place. -/
def Parameter.sameIndex (idx jdx : Index K) : Bool :=
  idx.map Value.normalize == jdx.map Value.normalize

namespace Parameter

variable {p q : Parameter K} {v : Value K} {idx jdx : Index K}

theorem get_set (h : p.set v = .ok q) : ∃ w, p.fitted v = .ok w ∧ q.get [] = .ok w := by
  obtain ⟨hindexed, w, hw, rfl⟩ := set_eq_ok.1 h
  have hindexed : isIndexed { p with value := some w } = false := hindexed
  exact ⟨w, hw, by simp [get, hindexed]⟩

theorem get_setAt (h : p.setAt idx v = .ok q) (hne : idx ≠ [])
    (hself : sameIndex idx idx = true) : ∃ w, p.fitted v = .ok w ∧ q.get idx = .ok w := by
  obtain ⟨hlength, hkeys, w, hw, rfl⟩ := setAt_eq_ok.1 h
  refine ⟨w, hw, ?_⟩
  have hfound := Table.find?_insert_of_beq hself p.values w
  have hlength : idx.length =
      dim { p with values := p.values.insert (idx.map Value.normalize) w } := hlength
  simp [get, hne, hlength, hkeys, hfound]

theorem get_setAt_other [PartialEquivBEq (Value K)] (h : p.setAt idx v = .ok q)
    (hother : sameIndex idx jdx = false) : q.get jdx = p.get jdx := by
  obtain ⟨_, _, w, _, rfl⟩ := setAt_eq_ok.1 h
  have hfound := Table.find?_insert_of_not_beq p.values w hother
  simp only [get, hfound]
  rfl

theorem get_setAll_other [PartialEquivBEq (Value K)] {entries : List (Value K × Value K)}
    (h : p.setAll entries = .ok q)
    (hother : ∀ e ∈ entries, sameIndex (indexOf e.1) jdx = false) : q.get jdx = p.get jdx := by
  induction entries generalizing p with
  | nil =>
    cases h
    rfl
  | cons e entries ih =>
    obtain ⟨p₁, hp₁, h⟩ := bind_eq_ok.1 h
    rw [List.forall_mem_cons] at hother
    rw [ih h hother.2, get_setAt_other hp₁ hother.1]

/-- The last of several values for an index is the one that is read. -/
theorem get_setAll [PartialEquivBEq (Value K)] {before after : List (Value K × Value K)}
    {k : Value K} (h : p.setAll (before ++ (k, v) :: after) = .ok q) (hne : indexOf k ≠ [])
    (hself : sameIndex (indexOf k) (indexOf k) = true)
    (hlast : ∀ e ∈ after, sameIndex (indexOf e.1) (indexOf k) = false) :
    ∃ w, p.fitted v = .ok w ∧ q.get (indexOf k) = .ok w := by
  rw [setAll, List.foldlM_append] at h
  obtain ⟨p₁, hbefore, h⟩ := bind_eq_ok.1 h
  obtain ⟨p₂, hentry, hafter⟩ := bind_eq_ok.1 h
  obtain ⟨w, hw, hget⟩ := get_setAt hentry hne hself
  obtain ⟨values, rfl⟩ := setAll_ok hbefore
  exact ⟨w, hw, (get_setAll_other hafter hlast).trans hget⟩

end Parameter

/-! ## Reads -/

section Reads

variable {s s' : Store K} {n : String} {p : Parameter K}

/-- A parameter without a definition is read as it is stored. -/
theorem start_readParameter (hp : s.registry.params.find? n = some p) (hgiven : p.definition = none)
    (idx : Index K) : (readParameter n idx).start s = (Run.ofExcept (p.get idx)).start s := by
  rw [show (readParameter n idx).start s = _ from start_lookup _ s]
  rw [show s.registry.lookup.parameter n idx =
    parameterValue (lookup (s.registry.size + (familyDepth - 1))) n idx from rfl]
  simp [parameterValue, storedValue, start_bind, hp, hgiven]

/-- Parameters without definitions that store the same at an index are read alike there. -/
theorem outcome_readParameter {q : Parameter K} (hp : s.registry.params.find? n = some p)
    (hq : s'.registry.params.find? n = some q) (hpgiven : p.definition = none)
    (hqgiven : q.definition = none) {idx : Index K} (hget : q.get idx = p.get idx) :
    ((readParameter n idx).start s').1 = ((readParameter n idx).start s).1 := by
  rw [start_readParameter hp hpgiven, start_readParameter hq hqgiven, hget]
  cases p.get idx <;> rfl

theorem gives_readParameter {t : Registry K} (hp : t.params.find? n = some p)
    (hgiven : p.definition = none) {idx : Index K} {w : Value K} (hw : p.get idx = .ok w) :
    (readParameter n idx).Gives t w := by
  intro warnings
  refine ⟨warnings, ?_⟩
  have hstart := start_readParameter (s := ⟨t, warnings⟩) hp hgiven idx
  rw [hw] at hstart
  exact hstart

end Reads

/-! ## Writes -/

/-- A value of a map that is the last one for its index. -/
def Value.EndsAt (m k v : Value K) : Prop :=
  ∃ keys values before after, m = .map keys values ∧ keys.zip values = before ++ (k, v) :: after ∧
    ∀ e ∈ after, sameIndex (indexOf e.1) (indexOf k) = false

/-- What becomes of a parameter when a value is written to it, at an index if one is given. -/
inductive Parameter.Receives (p q : Parameter K) : Option (Index K) → Value K → Prop
  | value {v : Value K} (h : p.set v = .ok q) : Receives p q none v
  | entry {idx : Index K} {v : Value K} (h : p.setAt idx v = .ok q) : Receives p q (some idx) v
  | entries {keys values : List (Value K)} {k v : Value K}
      (h : p.setAll (keys.zip values) = .ok q) (hk : (Value.map keys values).EndsAt k v) :
      Receives p q (some (indexOf k)) v

/-- What an assignment writes to a parameter: the symbols that are assigned to, the index that it is
written at, if any, and the value. Data goes to a parameter if no domain has its symbol. -/
inductive Registry.Writes (r : Registry K) (p : Parameter K) :
    Run K Unit → List String → Option (Index K) → Value K → Prop
  | value (v : Value K) : Writes r p (assignParameter p.symbol none v) [p.symbol] none v
  | entry (idx : Index K) (v : Value K) :
      Writes r p (assignParameter p.symbol (some idx) v) [p.symbol] (some idx) v
  | entries {m k v : Value K} (hk : m.EndsAt k v) :
      Writes r p (assignParameters p.symbol m) [p.symbol] (some (indexOf k)) v
  | loadedValue {data : Table String (Value K)} {v : Value K} (hkeys : data.keys.Nodup)
      (hdomain : r.domain? p.symbol = none) (hindexed : p.isIndexed = false)
      (hdata : (p.symbol, v) ∈ data.toList) : Writes r p (assignAll data) data.keys none v
  | loadedEntries {data : Table String (Value K)} {m k v : Value K} (hkeys : data.keys.Nodup)
      (hdomain : r.domain? p.symbol = none) (hindexed : p.isIndexed = true)
      (hdata : (p.symbol, m) ∈ data.toList) (hk : m.EndsAt k v) :
      Writes r p (assignAll data) data.keys (some (indexOf k)) v

namespace Parameter.Receives

variable {p q : Parameter K} {place : Option (Index K)} {v : Value K}

theorem sameDeclaration (h : p.Receives q place v) : p.SameDeclaration q := by
  cases h with
  | value h =>
    obtain ⟨_, w, _, rfl⟩ := set_eq_ok.1 h
    rfl
  | entry h =>
    obtain ⟨values, rfl⟩ := setAt_ok h
    rfl
  | entries h _ =>
    obtain ⟨values, rfl⟩ := setAll_ok h
    rfl

theorem get_written [PartialEquivBEq (Value K)] (h : p.Receives q place v)
    (hplace : place ≠ some []) (hself : ∀ idx ∈ place, sameIndex idx idx = true) :
    ∃ w, p.fitted v = .ok w ∧ q.get (place.getD []) = .ok w := by
  cases h with
  | value h => exact get_set h
  | entry h => exact get_setAt h (fun hidx => hplace (congrArg some hidx)) (hself _ rfl)
  | entries h hk =>
    obtain ⟨_, _, before, after, hm, hsplit, hlast⟩ := hk
    cases hm
    rw [hsplit] at h
    exact get_setAll h (fun hidx => hplace (congrArg some hidx)) (hself _ rfl) hlast

/-- What is written at the empty index is not read. -/
theorem get_unwritten (h : p.Receives q (some []) v) : q.get [] = p.get [] := by
  generalize hplace : some [] = place at h
  cases h with
  | value => cases hplace
  | entry h =>
    obtain ⟨values, rfl⟩ := setAt_ok h
    rfl
  | entries h =>
    obtain ⟨values, rfl⟩ := setAll_ok h
    rfl

end Parameter.Receives

namespace Registry.Writes

variable {s s' : Store K} {p : Parameter K} {x : Run K Unit} {names : List String}
  {place : Option (Index K)} {v : Value K}

/-- An assignment to one parameter puts it back as it is then. Data for several symbols leaves the
parameter so among others. -/
theorem alone_or_loaded (hp : s.registry.params.find? p.symbol = some p)
    (hx : s.registry.Writes p x names place v) (h : x.Returns s () s') :
    (∃ q, p.Receives q place v ∧ names = [p.symbol] ∧
      s'.registry = (s.registry.put (.parameter q)).invalidate) ∨
    ∃ data m, names = data.map (·.1) ∧ names.Nodup ∧ (assignEach data).Returns s () s' ∧
      (p.symbol, m) ∈ data ∧ ∀ {e}, s.registry.Takes p.symbol m e →
        ∃ q, e = .parameter q ∧ p.Receives q place v := by
  cases hx with
  | value v =>
    obtain ⟨q, hq, rfl⟩ := (returns_assignParameter hp none).1 h
    exact .inl ⟨q, .value hq, rfl, rfl⟩
  | entry idx v =>
    obtain ⟨q, hq, rfl⟩ := (returns_assignParameter hp (some idx)).1 h
    exact .inl ⟨q, .entry hq, rfl, rfl⟩
  | entries hk =>
    obtain ⟨keys, values, q, rfl, hq, rfl⟩ := (returns_assignParameters hp rfl).1 h
    exact .inl ⟨q, .entries hq hk, rfl, rfl⟩
  | loadedValue hkeys hdomain hindexed hdata =>
    refine .inr ⟨_, _, rfl, hkeys, h, hdata, fun he => ?_⟩
    cases he with
    | records hd | elements hd => simp [hdomain] at hd
    | values _ hp' hindexed' =>
      obtain rfl := Option.some.inj (hp.symm.trans hp')
      simp [hindexed] at hindexed'
    | value _ hp' _ hq =>
      obtain rfl := Option.some.inj (hp.symm.trans hp')
      exact ⟨_, rfl, .value hq⟩
  | loadedEntries hkeys hdomain hindexed hdata hk =>
    refine .inr ⟨_, _, rfl, hkeys, h, hdata, fun he => ?_⟩
    cases he with
    | records hd | elements hd => simp [hdomain] at hd
    | values _ hp' _ hm hq =>
      obtain rfl := Option.some.inj (hp.symm.trans hp')
      subst hm
      exact ⟨_, rfl, .entries hq hk⟩
    | value _ hp' hindexed' =>
      obtain rfl := Option.some.inj (hp.symm.trans hp')
      simp [hindexed] at hindexed'

theorem receives (hs : s.registry.IsFiled) (hp : s.registry.params.find? p.symbol = some p)
    (hx : s.registry.Writes p x names place v) (h : x.Returns s () s') :
    ∃ q, p.Receives q place v ∧ s'.registry.params.find? p.symbol = some q.forget := by
  have hfound : ∀ {q : Parameter K}, p.Receives q place v →
      s'.registry.Stores (.parameter q.forget) →
      s'.registry.params.find? p.symbol = some q.forget := by
    intro q hq hstores
    rwa [Stores, q.symbol_forget, hq.sameDeclaration.symbol] at hstores
  obtain ⟨q, hq, -, hs'⟩ | ⟨data, m, rfl, hkeys, hload, hdata, htakes⟩ := alone_or_loaded hp hx h
  · refine ⟨q, hq, hfound hq ?_⟩
    rw [hs']
    exact Stores.invalidate (e := .parameter q) (Table.find?_insert_self _ _ _)
  · obtain ⟨e, he, hstores⟩ := assignEach_takes hkeys hs hload hdata
    obtain ⟨q, rfl, hq⟩ := htakes he
    exact ⟨q, hq, hfound hq hstores⟩

/-- A parameter that is given and not assigned to stays as it is. -/
theorem unchanged (hs : s.registry.IsFiled) (hp : s.registry.params.find? p.symbol = some p)
    (hx : s.registry.Writes p x names place v) (h : x.Returns s () s') {n : String}
    {q : Parameter K} (hn : n ∉ names) (hq : s.registry.params.find? n = some q)
    (hgiven : q.definition = none) : s'.registry.params.find? n = some q := by
  obtain rfl := hs.params hq
  have hforgotten : q.forget = q := by simp [forget, hgiven]
  obtain ⟨p', hp', rfl, hs'⟩ | ⟨data, m, rfl, -, hload, -⟩ := alone_or_loaded hp hx h
  · have hother : p'.symbol ≠ q.symbol := by
      rw [hp'.sameDeclaration.symbol]
      exact fun hsame => hn (by simp [hsame])
    have hstores : ((s.registry.put (.parameter p')).invalidate).Stores (.parameter q.forget) :=
      Stores.invalidate (e := .parameter q) (Stores.put (e := .parameter q) hq hother)
    rw [hforgotten] at hstores
    rw [hs']
    exact hstores
  · exact assignEach_stores (e := .parameter q) hn hs hq (congrArg Entity.parameter hforgotten)
      hload

end Registry.Writes

section Main

variable {s s' : Store K} {p : Parameter K} {x : Run K Unit} {names : List String}
  {place : Option (Index K)} {v : Value K}

/-- A value that is written to a parameter without a definition is read at its index in the form of
the type of the parameter, unless it was written at the empty index. A parameter with a definition
is left without values, to be derived again. All other parameters without a definition are read as
before. -/
theorem written_value_read [PartialEquivBEq (Value K)] (hs : s.registry.IsFiled)
    (hp : s.registry.params.find? p.symbol = some p) (hx : s.registry.Writes p x names place v)
    (h : x.Returns s () s') :
    (p.definition = none →
      (place ≠ some [] → (∀ idx ∈ place, sameIndex idx idx = true) →
        ∃ w, p.fitted v = .ok w ∧ (readParameter p.symbol (place.getD [])).Gives s'.registry w) ∧
      (place = some [] → ((readParameter p.symbol []).start s').1 =
        ((readParameter p.symbol []).start s).1)) ∧
    (p.definition ≠ none → s'.registry.params.find? p.symbol = some p.clear) ∧
    ∀ {n q}, n ∉ names → s.registry.params.find? n = some q → q.definition = none → ∀ idx,
      ((readParameter n idx).start s').1 = ((readParameter n idx).start s).1 := by
  obtain ⟨q, hq, hfound⟩ := hx.receives hs hp h
  have hdefinition : q.definition = p.definition := hq.sameDeclaration.definition
  refine ⟨fun hgiven => ?_, fun hderived => ?_, fun {n q'} hn hq' hgiven idx => ?_⟩
  · have hforgotten : q.forget = q := by simp [forget, hdefinition, hgiven]
    rw [hforgotten] at hfound
    rw [← hdefinition] at hgiven
    constructor
    · intro hplace hself
      obtain ⟨w, hw, hget⟩ := hq.get_written hplace hself
      exact ⟨w, hw, gives_readParameter hfound hgiven hget⟩
    · rintro rfl
      exact outcome_readParameter hp hfound (hdefinition ▸ hgiven) hgiven hq.get_unwritten
  · have hforgotten : q.forget = p.clear := by
      rw [forget, hdefinition, if_pos (Option.isSome_iff_ne_none.2 hderived)]
      exact hq.sameDeclaration.clear
    rw [hfound, hforgotten]
  · exact outcome_readParameter hq' (hx.unchanged hs hp h hn hq' hgiven) hgiven hgiven rfl

end Main

/-- Prices that are left open, and a number that is given. -/
def priceModel : Run Float Unit := do
  let _ ← parseStatement false "range I = 1..2;"
  let _ ← parseStatement false "float price[I] = ...;"
  let _ ← parseStatement false "int number = 3;"

/-- Prices with two for the first index, by the number and by the sequence of a double. -/
def prices : Table String (Value Float) :=
  ⟨[("price", .map [.int 1, .int 2, .seq [.real 1]] [.int 4, .int 5, .int 6])]⟩

theorem written_value_read_prices : ∃ (s s' : Store Float) (w : Value Float),
    s.registry.IsFiled ∧ (assignAll prices).Returns s () s' ∧
    (readParameter "price" [.real 1]).Gives s'.registry w ∧ w.beq (.int 6) = true ∧
    ((readParameter "number" []).start s').1 = ((readParameter "number" []).start s).1 := by
  have hrun : ((do
      priceModel
      let r ← registry
      assignAll prices
      let w ← readParameter "price" [.real 1]
      return ((r.params.find? "price").any (fun p => p.definition.isNone && p.isIndexed),
        (r.params.find? "number").any (·.definition.isNone), (r.domain? "price").isNone,
        w.beq (.int 6)) : Run Float _).start {}).1.toOption = some (true, true, true, true) := by
    decide +kernel
  obtain ⟨_, h⟩ := returns_of_toOption hrun
  obtain ⟨_, s, hmodel, h⟩ := returns_bind.1 h
  replace h := returns_registry_bind.1 h
  obtain ⟨_, s', hload, h⟩ := returns_bind.1 h
  obtain ⟨w, _, hw, h⟩ := returns_bind.1 h
  have hanswer := (returns_pure.1 h).1
  simp only [Prod.mk.injEq, Option.any_eq_true, Bool.and_eq_true, Option.isNone_iff_eq_none]
    at hanswer
  obtain ⟨⟨p, hp, hgiven, hindexed⟩, ⟨q, hq, hqgiven⟩, hdomain, hsix⟩ := hanswer
  have hs : s.registry.IsFiled := by
    simp only [priceModel, returns_bind] at hmodel
    obtain ⟨_, _, hI, _, _, hprice, _, _, hnumber, hlast⟩ := hmodel
    obtain ⟨_, rfl⟩ := returns_pure.1 hlast
    have hread : ∀ {text : String} {stmt : Statement Float} {t t' : Store Float},
        t.registry.IsFiled → (parseStatement false text).Returns t stmt t' →
        t'.registry.IsFiled := fun ht h =>
      (parseStatement_leads Registry.readsTo_isFiled (Registry.forms_indexed _) rfl ht h).1
    exact hread (hread (hread Registry.isFiled_empty hI) hprice) hnumber
  have hsymbol := hs.params hp
  have hwrites : s.registry.Writes p (assignAll prices) prices.keys
      (some (indexOf (.seq [.real 1]))) (.int 6) :=
    .loadedEntries (by decide) (hsymbol ▸ hdomain) hindexed
      (m := .map [.int 1, .int 2, .seq [.real 1]] [.int 4, .int 5, .int 6])
      (by simp [prices, hsymbol])
      ⟨_, _, [(.int 1, .int 4), (.int 2, .int 5)], [], rfl, rfl, by simp⟩
  obtain ⟨hwritten, -, hothers⟩ := written_value_read hs (hsymbol.symm ▸ hp) hwrites hload
  obtain ⟨w', -, hw'⟩ := (hwritten hgiven).1 (by simp [indexOf]) fun idx hidx => by
    cases hidx
    decide +kernel
  rw [hsymbol] at hw'
  obtain ⟨_, hagain⟩ := hw' s'.warnings
  obtain ⟨rfl, -⟩ := hw.unique hagain
  exact ⟨s, s', w, hs, hload, hw', hsix, hothers (by decide) hq hqgiven []⟩

end LinearModel
