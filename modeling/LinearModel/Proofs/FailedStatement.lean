import LinearModel.Proofs.Declaration
import LinearModel.Proofs.Linearization
import LinearModel.Proofs.Exact

/-!
# Failed statements

Reading a statement evaluates the elements of sets and the values of parameters, which changes
nothing that is declared, whether the evaluation returns or fails. What a statement declares is
entered once it has been read. The one thing that can go wrong after that is a token that follows
the statement, and then the entity stays declared.
-/
namespace LinearModel

open Run Registry
open LinearModel.Parser
open LinearModel.Reading

variable {K : Type} {α β : Type}

/-- An entity has been declared on top of a registry with an invariant. -/
def Registry.Extends (Inv : Registry K → Prop) (t' : Registry K) : Prop :=
  ∃ t e, Inv t ∧ t.declare e = .ok t'

variable [Scalar K]

/-- An invariant of the registry that evaluation keeps, whether it returns or fails. -/
abbrev Registry.Withstands (Inv : Registry K → Prop) : Prop := (Invariant.throughout Inv).IsKept

/-- Evaluation changes nothing that is declared. -/
theorem Registry.withstands_isStateOf (r : Registry K) : Withstands (·.IsStateOf r) where
  value e := (r.single_unrestricted.evaluateValue e fun _ _ => trivial).maintains.meets
  elements symbol := by
    have hsees : (Regime.comparison r.single_unrestricted.lawful).sees Env.empty Env.empty :=
      (r.single_unrestricted.meets Env.empty).sees
    refine (Regime.Rel.maintains (r.single_unrestricted.looking fun n => ?_)).meets
    exact (r.single_unrestricted.deep n).lookups.elements symbol none hsees trivial

section Failing

variable {Inv : Registry K → Prop} {s s' : Store K} {f : Failure K}

/-- Where reading a statement fails, an invariant that evaluation keeps still holds, unless an
entity was declared before a token that should not follow. -/
theorem readStatement_fails (hInv : Withstands Inv) (hs : Inv s.registry) {text : String}
    (h : (readStatement text).Fails s f s') : Inv s'.registry ∨
      (∃ literal, f.cause = .trailingToken literal) ∧ Extends Inv s'.registry := by
  simp only [readStatement, fails_bind, fails_ofExcept, returns_ofExcept, not_fails_registry,
    returns_registry, false_or] at h
  obtain ⟨_, _, _, rfl⟩ | ⟨c, _, ⟨_, rfl⟩, r, _, ⟨rfl, rfl⟩, h⟩ := h
  · exact .inl hs
  have hstatement : ((c.grammar s.registry).statement s.registry text).Leads (.throughout Inv)
      (fun t => Inv t ∨ Extends Inv t) (Statement.Has fun _ => True) :=
    Grammar.Yields.statement (grammar_yields s.registry.forms_any _ _)
      (Grammar.declares_new hInv) .inl
      (fun ht _ h => .inr ⟨_, _, ht, h⟩) text
  have hread := hstatement c hs
  obtain h | ⟨⟨stmt, c'⟩, s₁, h₁, h₂⟩ := h
  · exact .inl (hread.2 h)
  · obtain ⟨_, h⟩ | ⟨_, h⟩ := fails_if.1 h₂
    · exact absurd h not_fails_pure
    · obtain ⟨rfl, rfl⟩ := fails_fail.1 h
      exact (hread.1 h₁).1.imp id fun hextends => ⟨⟨_, rfl⟩, hextends⟩

theorem writtenOut_maintains (text : String) : (writtenOut text : Run K String).Maintains Inv := by
  refine (Run.maintains_ofExcept _).bind fun c => Run.maintains_registry.bind fun r => ?_
  split
  · exact (Run.maintains_ofExcept _).bind fun _ => Run.maintains_pure _
  · exact Run.maintains_pure _

theorem parseStatement_fails (hInv : Withstands Inv) (hs : Inv s.registry) {textual : Bool}
    {text : String} (h : (parseStatement textual text).Fails s f s') : Inv s'.registry ∨
      (∃ literal, f.cause = .trailingToken literal) ∧ Extends Inv s'.registry := by
  have hread : ∀ {written : String} {s₁ : Store K}, Inv s₁.registry →
      (mapFailure (·.inStatement written) (readStatement written)).Fails s₁ f s' → Inv s'.registry ∨
        (∃ literal, f.cause = .trailingToken literal) ∧ Extends Inv s'.registry := by
    intro written s₁ hs₁ h
    obtain ⟨e, he, rfl⟩ := fails_mapFailure.1 h
    rw [Failure.cause_inStatement]
    exact readStatement_fails hInv hs₁ he
  cases textual with
  | false =>
    obtain h | ⟨written, s₁, h₁, h₂⟩ := fails_bind.1 h
    · exact absurd h not_fails_pure
    · obtain ⟨rfl, rfl⟩ := returns_pure.1 h₁
      exact hread hs h₂
  | true =>
    have hwritten : ∀ t, Run.Maintains Inv
        (mapFailure (·.inStatement t) (writtenOut t) : Run K String) := fun t =>
      maintains_mapFailure _ (writtenOut_maintains t)
    obtain h | ⟨written, s₁, h₁, h₂⟩ := fails_bind.1 h
    · exact .inl ((hwritten _).fails hs h)
    · exact hread ((hwritten _).returns hs h₁) h₂

omit [Scalar K] in
theorem Registry.isDeclared_put (r : Registry K) (e : Entity K) :
    (r.put e).isDeclared e.symbol = true := by
  cases e with
  | domain d =>
    cases d <;> simp [put, putDomain, isDeclared, domain?, Entity.symbol, Domain.symbol,
      Table.find?_insert_self]
  | _ =>
    simp [put, putParameter, isDeclared, Entity.symbol, Table.contains, Table.find?_insert_self]

omit [Scalar K] in
theorem Registry.declare_again {r r' : Registry K} {e e' : Entity K} (h : r.declare e = .ok r')
    (he : e'.symbol = e.symbol) : r'.declare e' = .error (.alreadyDeclared e.symbol) := by
  unfold declare at h
  split at h
  · cases h
  · cases h
    rw [declare, he, if_pos (r.isDeclared_put e)]

/-- A statement that fails to be read leaves all that is declared as it was. The exception is a
declaration that is followed by a token too many: it is entered, so that the symbol cannot be
declared again. -/
theorem failed_statement_leaves (hs : s.registry.Keyed) {textual : Bool} {text : String}
    (h : (parseStatement textual text).Fails s f s') :
    s'.registry.invalidate = s.registry.invalidate ∨
      ∃ (literal : String) (t : Registry K) (e : Entity K),
        f.cause = .trailingToken literal ∧ t.invalidate = s.registry.invalidate ∧
        t.declare e = .ok s'.registry ∧
        ∀ e' : Entity K, e'.symbol = e.symbol →
          s'.registry.declare e' = .error (.alreadyDeclared e.symbol) := by
  have hfails := parseStatement_fails s.registry.withstands_isStateOf ⟨hs, rfl⟩ h
  obtain hstate | ⟨⟨literal, hcause⟩, t, e, ht, hdeclare⟩ := hfails
  · exact .inl hstate.same
  · exact .inr ⟨literal, t, e, hcause, ht.same, hdeclare, fun _ => declare_again hdeclare⟩

end Failing

/-- A declaration that is followed by a number too many. -/
def surplusNumber : Run ℚ (Statement ℚ) := parseStatement false "int p = 5 6;"

theorem failed_statement_leaves_surplus : ∃ (f : Failure ℚ) (s' : Store ℚ),
    surplusNumber.Fails {} f s' ∧
      ((parseStatement false "int p = 5;").start s').1.toOption.isNone ∧
      ∃ (literal : String) (t : Registry ℚ) (e : Entity ℚ),
        f.cause = .trailingToken literal ∧ t.invalidate = ({} : Registry ℚ).invalidate ∧
        t.declare e = .ok s'.registry := by
  have hfails : (surplusNumber.start {}).1.toOption.isNone := by decide +kernel
  have hagain : ((parseStatement false "int p = 5;").start
      (surplusNumber.start {}).2).1.toOption.isNone := by
    decide +kernel
  have hkept : (surplusNumber.start {}).2.registry.invalidate.params.toList.length = 1 := by
    decide +kernel
  obtain ⟨f, s', h⟩ := fails_of_toOption (Option.isNone_iff_eq_none.1 hfails)
  rw [h] at hagain hkept
  refine ⟨f, s', h, hagain, ?_⟩
  have hempty : ({} : Registry ℚ).Keyed := .of_entries (by decide) (by decide) (by decide)
  obtain hsame | ⟨literal, t, e, hcause, hsame, hdeclare, _⟩ := failed_statement_leaves hempty h
  · rw [hsame] at hkept
    exact absurd hkept (by decide)
  · exact ⟨literal, t, e, hcause, hsame, hdeclare⟩

end LinearModel
