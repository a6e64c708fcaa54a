import LinearModel.Proofs.Substitution
import LinearModel.Grammar.Statement

/-!
# What the grammar reads

The grammar builds expressions from smaller ones. A property of expressions that is kept by each of
these steps holds of everything that is read, whatever the text of a statement is. One of them is
that every reference to a parameter by an index has at least one index.
-/
namespace LinearModel

open Expr

namespace Parser

variable {K : Type} {α β : Type} {P : α → Prop} {Q : β → Prop}

/-- What a step reads has a property. -/
def Yields (p : Parser K α) (P : α → Prop) : Prop :=
  ∀ ⦃c : Cursor K⦄ ⦃a : α⦄ ⦃c' : Cursor K⦄, p c = .ok (a, c') → P a

theorem yields_any (p : Parser K α) : p.Yields fun _ => True := fun _ _ _ _ => trivial

theorem yields_pure {a : α} (h : P a) : (pure a : Parser K α).Yields P := by
  intro c b c' hb
  cases hb
  exact h

theorem yields_fail {e : Cause K} : (fail e : Parser K α).Yields P := by
  intro c a c' h
  cases h

theorem yields_ofExcept {x : Except (Cause K) α} (h : ∀ a, x = .ok a → P a) :
    (Parser.ofExcept x).Yields P := by
  intro c a c' ha
  cases x with
  | error e => cases ha
  | ok b =>
    obtain ⟨rfl, rfl⟩ : b = a ∧ c = c' := by simpa [Parser.ofExcept, Except.map] using ha
    exact h b rfl

theorem Yields.bind {p : Parser K α} {f : α → Parser K β} (hp : p.Yields P)
    (hf : ∀ a, P a → (f a).Yields Q) : (p >>= f).Yields Q := by
  intro c b c' h
  change (p c >>= fun s => f s.1 s.2) = _ at h
  cases hpc : p c with
  | error e => simp [hpc, Bind.bind, Except.bind] at h
  | ok s =>
    simp only [hpc] at h
    exact hf s.1 (hp hpc) h

/-- A step whose answer does not matter. -/
theorem yields_after (p : Parser K α) {f : α → Parser K β} (hf : ∀ a, (f a).Yields Q) :
    (p >>= f).Yields Q :=
  (yields_any p).bind fun a _ => hf a

theorem yields_if {c : Prop} [Decidable c] {p q : Parser K α} (hp : p.Yields P) (hq : q.Yields P) :
    (if c then p else q).Yields P := by
  split
  exacts [hp, hq]

theorem yields_separated {item : Parser K α} (separator : String) (h : item.Yields P) :
    ∀ n, (separated separator item n).Yields fun as => as ≠ [] ∧ ∀ a ∈ as, P a
  | 0 => yields_fail
  | n + 1 => by
    refine h.bind fun a ha => yields_after _ fun b => yields_if ?_ ?_
    · refine (yields_separated separator h n).bind fun as has => yields_pure ?_
      exact ⟨List.cons_ne_nil a as, List.forall_mem_cons.2 ⟨ha, has.2⟩⟩
    · exact yields_pure ⟨List.cons_ne_nil a [], by simpa using ha⟩

theorem yields_bracketGroups {size : Nat} {item : Parser K α} (h : item.Yields P) :
    ∀ n, (bracketGroups size item n).Yields fun as => ∀ a ∈ as, P a
  | 0 => yields_fail
  | n + 1 => by
    refine yields_after _ fun b => yields_if ?_ (yields_pure (by simp))
    refine (yields_separated "," h size).bind fun as has => yields_after _ fun _ => ?_
    refine (yields_bracketGroups h n).bind fun bs hbs => yields_pure ?_
    exact List.forall_mem_append.2 ⟨has.2, hbs⟩

end Parser

open LinearModel.Parser

/-! ## Expressions -/

/-- What an iterator runs over, where the expressions in it have a property. The bounds of a range
are simplified as they are read. -/
def Source.Has {K : Type} [Scalar K] (P : Expr K → Prop) : Source K → Prop
  | .named _ outer => ∀ e, outer = some e → P e
  | .range a b => ∃ a' b', (P a' ∧ a'.simplify none = .ok a) ∧ P b' ∧ b'.simplify none = .ok b

/-- A property that every expression has which the grammar forms of expressions with that property,
reading names against a registry, and a property of iterators that goes with it. -/
structure Registry.Forms {K : Type} [Scalar K] (r : Registry K) (P : Expr K → Prop)
    (I : Iter K → Prop := fun _ => True) : Prop where
  num : ∀ x, P (.num x)
  str : ∀ s, P (.str s)
  name : ∀ s, P (.name s)
  resolve : ∀ {symbol idx e}, (∀ i ∈ idx, P i) → Grammar.resolve r symbol idx = .ok e → P e
  arith : ∀ op {l r}, P l → P r → P (.arith op l r)
  neg : ∀ {e}, P e → P (.neg e)
  rel : ∀ op {l r}, P l → P r → P (.rel op l r)
  logic : ∀ op {es}, es ≠ [] → (∀ e ∈ es, P e) → P (.logic op es)
  field : ∀ {e} f, P e → P (.field e f)
  item : ∀ set {key}, (∀ e ∈ key, P e) → P (.item set key)
  iter : ∀ s {src filter}, src.Has P → (∀ e, filter = some e → P e) → I (.mk s src filter)
  sum : ∀ {its body c}, (∀ it ∈ its, I it) → P body → (∀ e, c = some e → P e) → P (.sum its body c)

namespace Grammar

variable {K : Type} {P : Expr K → Prop} {I : Iter K → Prop} {p : Parser K (Expr K)}

/-- A grammar whose expressions have a property. -/
structure Yields (g : Grammar K) (P : Expr K → Prop) : Prop where
  expression : g.expression.Yields P
  arithmetic : g.arithmetic.Yields P
  term : g.term.Yields P

theorem Yields.any (g : Grammar K) : g.Yields fun _ => True :=
  ⟨yields_any _, yields_any _, yields_any _⟩

theorem yields_fields (hP : ∀ {e} f, P e → P (.field e f)) :
    ∀ (n : Nat) {e : Expr K}, P e → (fields e n).Yields P
  | 0, _, _ => yields_fail
  | n + 1, e, he => by
    refine yields_after _ fun t => yields_after _ fun t' => yields_if ?_ (yields_pure he)
    exact yields_after _ fun _ => yields_after _ fun f => yields_fields hP n (hP f he)

theorem yields_signed (hP : ∀ {e}, P e → P (.neg e)) (hp : p.Yields P) : ∀ n, (signed p n).Yields P
  | 0 => yields_fail
  | n + 1 => by
    refine yields_after _ fun b => yields_if ?_ (yields_after _ fun b' => yields_if ?_ hp)
    · exact (yields_signed hP hp n).bind fun e he => yields_pure (hP he)
    · exact yields_signed hP hp n

theorem yields_grouped (hP : ∀ op {l r}, P l → P r → P (.arith op l r)) {ops : List ArithOp}
    (hp : p.Yields P) : ∀ (n : Nat) {lhs : Expr K}, P lhs → (grouped ops p lhs n).Yields P
  | 0, _, _ => yields_fail
  | n + 1, lhs, hlhs => by
    refine yields_after _ fun o => ?_
    cases o with
    | none => exact yields_pure hlhs
    | some op =>
      refine yields_after _ fun _ => hp.bind fun rhs hrhs => ?_
      exact yields_grouped hP hp n (hP op hlhs hrhs)

theorem yields_connected {op : LogicOp} (hP : ∀ {es}, es ≠ [] → (∀ e ∈ es, P e) → P (.logic op es))
    (hp : p.Yields P) (size : Nat) : (connected op p size).Yields P := by
  refine (yields_separated op.symbol hp size).bind fun es hes => ?_
  match es with
  | [] | _ :: _ :: _ => exact yields_pure (hP hes.1 hes.2)
  | [e] => exact yields_pure (hes.2 e List.mem_cons_self)

namespace Yields

variable {g : Grammar K} {r : Registry K}

theorem tupleItems (hg : g.Yields P) : g.tupleItems.Yields fun es => ∀ e ∈ es, P e := by
  refine yields_after _ fun _ => (yields_separated "," hg.arithmetic g.size).bind fun es hes => ?_
  exact yields_after _ fun _ => yields_pure hes.2

variable [Scalar K]

theorem item (hP : r.Forms P I) (hg : g.Yields P) : g.item.Yields P := by
  have hend : ∀ set (key : List (Expr K)), (∀ e ∈ key, P e) → (do
      expect ")"
      return .item set key : Parser K (Expr K)).Yields P := fun set key hkey =>
    yields_after _ fun _ => yields_pure (hP.item set hkey)
  refine yields_after _ fun _ => yields_after _ fun _ => yields_after _ fun set => ?_
  refine yields_after _ fun _ => yields_after _ fun t => yields_if ?_ ?_
  · exact hg.tupleItems.bind fun key hkey => hend set key hkey
  · refine hg.arithmetic.bind fun e he => (yields_pure (P := fun key => ∀ e ∈ key, P e) ?_).bind
      fun key hkey => hend set key hkey
    simpa using he

theorem range (hg : g.Yields P) : g.range.Yields fun b => Source.Has P (.range b.1 b.2) := by
  refine hg.arithmetic.bind fun a' ha' => yields_after _ fun _ => ?_
  refine hg.arithmetic.bind fun b' hb' => ?_
  refine (yields_ofExcept fun a ha => ha).bind fun a ha => ?_
  refine (yields_ofExcept fun b hb => hb).bind fun b hb => ?_
  exact yields_pure ⟨a', b', ⟨ha', ha⟩, hb', hb⟩

theorem source (hg : g.Yields P) : (g.source r).Yields (Source.Has P) := by
  refine yields_after _ fun isNamed => yields_if ?_ ?_
  · refine yields_after _ fun symbol => yields_after _ fun isIndexed => yields_if ?_ ?_
    · refine hg.expression.bind fun e he => yields_after _ fun _ => yields_pure ?_
      rintro _ ⟨⟩
      exact he
    · exact yields_pure fun e he => by cases he
  · exact hg.range.bind fun b hb => yields_pure hb

/-- Iterators that are read, and the condition on them. -/
theorem iteratorList (hP : r.Forms P I) (hg : g.Yields P) : ∀ n, (g.iteratorList r n).Yields
    fun its => (∀ it ∈ its.1, I it) ∧ ∀ e, its.2 = some e → P e
  | 0 => yields_fail
  | n + 1 => by
    have hnone : ∀ e : Expr K, none = some e → P e := fun e he => by cases he
    have hsome : ∀ {f : Expr K}, P f → ∀ e, some f = some e → P e := fun hf e he =>
      Option.some.inj he ▸ hf
    refine yields_after _ fun symbol => yields_after _ fun _ => ?_
    refine hg.source.bind fun src hsrc => yields_after _ fun _ => yields_after _ fun b => ?_
    refine yields_if ?_ (yields_after _ fun goesOn => yields_if ?_ ?_)
    · refine hg.expression.bind fun f hf => yields_after _ fun goesOn => yields_if ?_ ?_
      · refine (iteratorList hP hg n).bind fun its hits => yields_pure ⟨?_, hits.2⟩
        exact List.forall_mem_cons.2 ⟨hP.iter symbol hsrc (hsome hf), hits.1⟩
      · exact yields_pure ⟨by simpa using hP.iter symbol hsrc hnone, hsome hf⟩
    · refine (iteratorList hP hg n).bind fun its hits => yields_pure ⟨?_, hits.2⟩
      exact List.forall_mem_cons.2 ⟨hP.iter symbol hsrc hnone, hits.1⟩
    · exact yields_pure ⟨by simpa using hP.iter symbol hsrc hnone, hnone⟩

theorem iterators (hP : r.Forms P I) (hg : g.Yields P) : (g.iterators r).Yields
    fun its => (∀ it ∈ its.1, I it) ∧ ∀ e, its.2 = some e → P e :=
  yields_after _ fun _ => hg.iteratorList hP g.size

theorem sum (hP : r.Forms P I) (hg : g.Yields P) : (g.sum r).Yields P := by
  refine yields_after _ fun _ => yields_after _ fun _ => (hg.iterators hP).bind fun its hits => ?_
  refine yields_after _ fun _ => hg.term.bind fun body hbody => yields_after _ fun _ => ?_
  exact yields_pure (hP.sum hits.1 hbody hits.2)

theorem reference (hP : r.Forms P I) (hg : g.Yields P) : (g.reference r).Yields P := by
  refine yields_after _ fun symbol => yields_after _ fun c => yields_if ?_ ?_
  · exact yields_pure (hP.name symbol)
  · cases (predefined? symbol : Option K) with
    | some x => exact yields_pure (hP.num x)
    | none =>
      refine (yields_bracketGroups hg.arithmetic g.size).bind fun idx hidx => ?_
      exact yields_ofExcept fun e he => hP.resolve hidx he

theorem primary (hP : r.Forms P I) (hg : g.Yields P) : (g.primary r).Yields P := by
  refine yields_after _ fun t => ?_
  cases t.lexeme with
  | number n =>
    refine yields_after _ fun _ => ?_
    cases n with
    | int i => exact yields_after _ fun x => yields_pure (hP.num x)
    | real x => exact yields_pure (hP.num x)
  | text s => exact yields_after _ fun _ => yields_pure (hP.str s)
  | operator =>
    refine yields_if ?_ (yields_if yields_fail yields_fail)
    refine yields_after _ fun _ => hg.expression.bind fun e he => ?_
    exact yields_after _ fun _ => yields_pure he
  | identifier =>
    refine yields_after _ fun t' => yields_if ?_ (hg.reference hP)
    exact yields_if (hg.sum hP) (yields_if (hg.item hP) yields_fail)
  | stop => exact yields_fail

theorem operand (hP : r.Forms P I) (hg : g.Yields P) : (g.operand r).Yields P :=
  (hg.primary hP).bind fun _ he => yields_fields hP.field g.size he

theorem termOf (hP : r.Forms P I) (hg : g.Yields P) : (g.termOf r).Yields P :=
  have hoperand := yields_signed (P := P) hP.neg (hg.operand hP) g.size
  hoperand.bind fun _ he => yields_grouped hP.arith hoperand g.size he

theorem arithmeticOf (hP : r.Forms P I) (hg : g.Yields P) : (g.arithmeticOf r).Yields P :=
  (hg.termOf hP).bind fun _ he => yields_grouped hP.arith (hg.termOf hP) g.size he

theorem comparison (hP : r.Forms P I) (hg : g.Yields P) : (g.comparison r).Yields P := by
  refine (hg.arithmeticOf hP).bind fun lhs hlhs => yields_after _ fun t => ?_
  cases RelOp.ofSymbol? t.literal with
  | some op =>
    refine yields_after _ fun _ => (hg.arithmeticOf hP).bind fun rhs hrhs => yields_pure ?_
    exact hP.rel op hlhs hrhs
  | none => exact yields_if yields_fail (yields_pure hlhs)

theorem negation (hP : r.Forms P I) (hg : g.Yields P) : ∀ n, (g.negation r n).Yields P
  | 0 => yields_fail
  | n + 1 => by
    refine yields_after _ fun b => yields_if ?_ (hg.comparison hP)
    refine (negation hP hg n).bind fun e he => yields_pure (hP.logic .not (by simp) ?_)
    simpa using he

theorem expressionOf (hP : r.Forms P I) (hg : g.Yields P) : (g.expressionOf r).Yields P :=
  yields_connected (hP.logic .or)
    (yields_connected (hP.logic .and) (hg.negation hP g.size) g.size) g.size

end Yields

end Grammar

/-- The grammar reads expressions with every property that it forms. -/
theorem grammar_yields {K : Type} [Scalar K] {r : Registry K} {P : Expr K → Prop}
    {I : Iter K → Prop} (hP : r.Forms P I) (size : Nat) : ∀ n, (grammar r size n).Yields P
  | 0 => ⟨yields_fail, yields_fail, yields_fail⟩
  | n + 1 =>
    have hg := grammar_yields hP size n
    ⟨hg.expressionOf hP, hg.arithmeticOf hP, hg.termOf hP⟩

/-! ## Rules -/

section Rules

variable {K : Type} {P : Expr K → Prop}

/-- A constraint that a rule states, at any depth. -/
inductive Rule.States (c : Constraint K) : Rule K → Prop
  | single : States c (.single c)
  | family {literal : String} {its : List (Iter K)} {condition : Option (Expr K)}
      {body : List (Rule K)} {r : Rule K} (hr : r ∈ body) (h : States c r) :
      States c (.family literal its condition body)

/-- A rule the sides of whose constraints have a property. -/
def Rule.Has (P : Expr K → Prop) (r : Rule K) : Prop :=
  ∀ c : Constraint K, r.States c → P c.lhs ∧ P c.rhs

/-- A rule whose constraints refer to parameters by proper indices. -/
def Rule.WellIndexed (r : Rule K) : Prop :=
  ∀ c : Constraint K, r.States c → c.lhs.Indexed ∧ c.rhs.Indexed

theorem Rule.has_single {c : Constraint K} (hl : P c.lhs) (hr : P c.rhs) :
    (Rule.single c).Has P := by
  rintro _ ⟨⟩
  exact ⟨hl, hr⟩

theorem Rule.has_family {literal : String} {its : List (Iter K)} {condition : Option (Expr K)}
    {body : List (Rule K)} (h : ∀ r ∈ body, r.Has P) :
    (Rule.family literal its condition body).Has P := by
  rintro c (_ | ⟨hr, hc⟩)
  exact h _ hr c hc

theorem Grammar.Yields.goal {g : Grammar K} (hg : g.Yields P) (sense : Sense) :
    (g.goal sense).Yields fun goal => P goal.body := by
  refine yields_after _ fun c => yields_after _ fun _ => yields_after _ fun t => ?_
  refine yields_after _ fun t' => ?_
  have hend : ∀ name : Option String, (do
      let body ← g.arithmetic
      return { literal := String.ofList c.text, sense, name, body } :
        Parser K (Goal K)).Yields fun goal => P goal.body := fun name =>
    hg.arithmetic.bind fun body hbody => yields_pure hbody
  refine yields_if ?_ (yields_after _ hend)
  exact yields_after _ fun _ => yields_after _ fun _ => yields_after _ hend

theorem Grammar.yields_block {p : Parser K (Rule K)} (hp : p.Yields (Rule.Has P)) :
    ∀ n, (Grammar.block p n).Yields fun rs => ∀ r ∈ rs, r.Has P
  | 0 => yields_fail
  | n + 1 => by
    refine yields_after _ fun t => yields_if (yields_after _ fun _ => yields_pure (by simp)) ?_
    refine hp.bind fun r hr => yields_after _ fun _ => ?_
    refine (yields_block hp n).bind fun rs hrs => yields_pure ?_
    exact List.forall_mem_cons.2 ⟨hr, hrs⟩

end Rules

namespace Grammar.Yields

variable {K : Type} [Scalar K] {P : Expr K → Prop} {g : Grammar K} {r : Registry K}

omit [Scalar K] in
theorem labelled {c : Constraint K} (hl : P c.lhs) (hr : P c.rhs)
    (iterators : Option (List (Iter K) × Option (Expr K))) : (match iterators with
    | none => return .single c
    | some (its, condition) => do
      closeScope
      return .family c.literal its condition [.single c] : Parser K (Rule K)).Yields
        (Rule.Has P) := by
  have hc := Rule.has_single hl hr
  rcases iterators with _ | ⟨its, condition⟩
  · exact yields_pure hc
  · exact yields_after _ fun _ => yields_pure (Rule.has_family (by simpa using hc))

theorem constraint (hg : g.Yields P) : (g.constraint r).Yields (Rule.Has P) := by
  refine yields_after _ fun start => yields_after _ fun label => ?_
  refine hg.arithmetic.bind fun lhs hlhs => yields_after _ fun op => ?_
  refine hg.arithmetic.bind fun rhs hrhs => yields_after _ fun t => ?_
  refine yields_if (yields_after _ fun _ => ?_) ?_
  · exact yields_after _ fun literal => labelled hlhs hrhs label.iterators
  · exact yields_after _ fun literal => labelled hlhs hrhs label.iterators

theorem family {p : Parser K (Rule K)} (hp : p.Yields (Rule.Has P)) :
    (g.family r p).Yields (Rule.Has P) := by
  have hend : ∀ start its condition (body : List (Rule K)), (∀ r ∈ body, r.Has P) → (do
      closeScope
      return .family (← textSince start) its condition body :
        Parser K (Rule K)).Yields (Rule.Has P) := fun start its condition body hbody =>
    yields_after _ fun _ => yields_after _ fun _ => yields_pure (Rule.has_family hbody)
  refine yields_after _ fun start => yields_after _ fun _ => yields_after _ fun _ => ?_
  refine yields_after _ fun its => yields_after _ fun _ => yields_after _ fun b => yields_if ?_ ?_
  · exact (yields_block hp g.size).bind fun body hbody => hend start _ _ body hbody
  · refine hp.bind fun c hc => (yields_pure (P := fun body => ∀ r ∈ body, r.Has P) ?_).bind
      fun body hbody => hend start _ _ body hbody
    simpa using hc

theorem rule (hg : g.Yields P) : ∀ n, (g.rule r n).Yields (Rule.Has P)
  | 0 => yields_fail
  | n + 1 => by
    refine yields_after _ fun t => yields_if ?_ hg.constraint
    exact family (rule hg n)

end Grammar.Yields

/-! ## Indices of parameters -/

section Indices

variable {K : Type}

theorem Expr.allIndexed_iff {es : List (Expr K)} : AllIndexed es ↔ ∀ e ∈ es, e.Indexed := by
  induction es with
  | nil => simp [AllIndexed]
  | cons e es ih => simp [AllIndexed, ih]

theorem Grammar.resolve_indexed {r : Registry K} {symbol : String} {idx : List (Expr K)}
    {e : Expr K} (hidx : ∀ i ∈ idx, i.Indexed) (h : resolve r symbol idx = .ok e) : e.Indexed := by
  unfold resolve at h
  split at h
  · split at h <;> cases h <;> simp only [Indexed]
  · split at h
    · split at h <;> cases h <;> simp only [Indexed]
    · split at h
      · cases h
        simp only [Indexed]
      · rename_i hne
        cases h
        exact ⟨by simpa using hne, allIndexed_iff.2 hidx⟩

theorem Registry.forms_any [Scalar K] (r : Registry K) : r.Forms fun _ => True := by
  constructor <;> intros <;> trivial

/-- References that the grammar reads have proper indices. -/
theorem Registry.forms_indexed [Scalar K] (r : Registry K) : r.Forms Indexed where
  num _ := by simp only [Indexed]
  str _ := by simp only [Indexed]
  name _ := by simp only [Indexed]
  resolve := Grammar.resolve_indexed
  arith _ _ _ hl hr := by simpa only [Indexed] using ⟨hl, hr⟩
  neg he := by simpa only [Indexed] using he
  rel _ _ _ hl hr := by simpa only [Indexed] using ⟨hl, hr⟩
  logic _ _ _ hes := by simpa only [Indexed] using allIndexed_iff.2 hes
  field _ he := by simpa only [Indexed] using he
  item _ _ _ := by simp only [Indexed]
  iter _ _ _ _ _ := trivial
  sum _ hbody _ := by simpa only [Indexed] using hbody

end Indices

end LinearModel
