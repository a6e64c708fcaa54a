import LinearModel.Proofs.Doubles
import LinearModel.Proofs.Repetition
import LinearModel.Proofs.Replay
import LinearModel.Proofs.UndisturbedReads

/-!
# Resolving a domain

What a declared domain resolves to depends on the registry and, for a family of sets, on the outer
index. Whatever else an environment binds is not seen. Nor does it matter what has been resolved
before: a domain that was resolved is found again, and where no definition leads back to itself a
resolution that failed fails again in the same way.

A family that leads back to itself is different. Its members are kept by outer index, and while a
member is computed the one at an index that compares equal may be found and kept in its place.
-/
namespace LinearModel

open Run Registry

variable {K : Type} [Scalar K] {given : Option (Value K)} {s : Store K}

/-! ## Environments -/

/-- Two environments bind the outer iterator of a domain alike, if it is a family of sets and no
outer index is given. -/
def Registry.SameOuter (r : Registry K) (symbol : String) (given : Option (Value K))
    (a b : Env K) : Prop :=
  ∀ d outer, r.domain? symbol = some (.computed d) → d.outer = some outer →
    given = none ∨ given = some .null → a.get? outer.symbol = b.get? outer.symbol

theorem outerIndex_congr {d : ComputedSet K} {outer : Iter K} {a b : Env K}
    (h : given = none ∨ given = some .null → a.get? outer.symbol = b.get? outer.symbol) :
    outerIndex d outer b given = outerIndex d outer a given := by
  cases given with
  | none => simp only [outerIndex, h (.inl rfl)]
  | some v =>
    cases v with
    | null => simp only [outerIndex, h (.inr rfl)]
    | _ => rfl

/-- A domain is resolved alike in environments that bind its outer iterator alike. -/
theorem resolveDomain_congr (hkeyed : s.registry.Keyed) (hdata : s.registry.IsData)
    {symbol : String} {a b : Env K} (hab : s.registry.SameOuter symbol given a b) :
    (resolveDomain symbol a given).start s = (resolveDomain symbol b given).start s := by
  have hs : s.registry.IsStateOf s.registry := ⟨hkeyed, rfl⟩
  obtain ⟨n, hn⟩ : ∃ n, s.registry.lookup = lookup (n + 1) := ⟨s.registry.size + 499, rfl⟩
  have hL := lookup_forgets hdata n
  rw [resolveDomain, resolveDomain, start_lookup, start_lookup, hn]
  change (domainElements (lookup n) symbol a given).start s =
    (domainElements (lookup n) symbol b given).start s
  simp only [domainElements, start_bind, start_registry]
  cases hd : s.registry.domain? symbol with
  | none => rfl
  | some d =>
    have hddata := hdata.domains hd
    cases d with
    | tuples d | primitive d | index d => rfl
    | range d => exact (rangeElements_forgets hL hddata).2 hs
    | computed d =>
      exact (memberElements_forgets hL hddata fun outer houter =>
        outerIndex_congr (hab d outer hd houter)).2 hs

/-! ## Resolving again -/

/-- A domain that was resolved is resolved to the same elements again. -/
theorem resolveDomain_repeats (hself : ∀ {v w : Value K}, (v == w) = true → (w == w) = true)
    {s s' : Store K} (hs : s.registry.Keyed) {symbol : String} {env : Env K} {vs : List (Value K)}
    (h : (resolveDomain symbol env given).Returns s vs s') :
    ((resolveDomain symbol env given).start s').1 = .ok vs := by
  have hrepeats : Simulation.repeating.rel (resolveDomain symbol env given)
      (resolveDomain symbol env given) :=
    Simulation.repeating_lookup fun n => (lookup_repeats hself n).elements symbol given rfl
  obtain ⟨s'', hagain, -⟩ := (hrepeats hs h).2 (.refl s'.registry) s'.warnings
  exact congrArg Prod.fst hagain

/-- A resolution that ends in a current registry gives what the domain means, and leaves the
registry current. -/
theorem resolveDomain_meant {B : Registry K} (hB : B.Keyed) (hdata : B.IsData)
    (hfamilies : B.FamiliesAgree) (hs : s.registry.CurrentFor B) (symbol : String)
    (env : Env K) (given : Option (Value K)) :
    ((resolveDomain symbol env given).start s).2.registry.CurrentFor B ∧
      (Ends ((resolveDomain symbol env given).start s).1 →
        ((resolveDomain symbol env given).start s).1 =
          B.meant (fun _ => False) (.elements symbol env.bare given)) := by
  have hisData : s.registry.IsData := isData_invalidate.1 (hs.base ▸ hdata)
  rw [resolveDomain, start_lookup, Registry.lookup]
  refine ⟨elements_current hB hdata hfamilies _ symbol env given hs, fun hends => ?_⟩
  have hbare := ((lookup_forgets hisData (s.registry.size + familyDepth)).elements (a := env)
    (b := env.bare) symbol given rfl).2 ⟨hs.keyed, rfl⟩
  rw [hbare, (lookup_asks _).elements] at hends ⊢
  have hplain : (Question.elements symbol env.bare given).IsPlain := rfl
  exact (((resolving_amounts hB hdata hfamilies _ hplain hs).2 hends).meant_eq hB hdata hplain).symm

/-- A domain resolves alike in environments that bind its outer iterator alike, and resolving it in
the one first does not change what it resolves to in the other, unless the first resolution fails
at a definition that leads back to itself. Then this is so if both end, everything that was
computed before is what it amounts to, and members of families agree at outer indices that compare
equal. -/
theorem resolution_independent {s : Store Float} (hkeyed : s.registry.Keyed)
    (hdata : s.registry.IsData) {symbol : String} {given : Option (Value Float)} {a b : Env Float}
    (hab : s.registry.SameOuter symbol given a b) :
    let first := (resolveDomain symbol a given).start s
    let second := (resolveDomain symbol b given).start s
    let again := (resolveDomain symbol b given).start first.2
    first.1 = second.1 ∧
      (∀ vs, first.1 = .ok vs → again.1 = second.1) ∧
      (s.registry.IsGrounded → again.1 = second.1) ∧
      (s.registry.IsCurrent → s.registry.invalidate.FamiliesAgree → Ends second.1 →
        Ends again.1 → again.1 = second.1) := by
  intro first second again
  have hfirst : first = second := resolveDomain_congr hkeyed hdata hab
  have hagain : again = (resolveDomain symbol b given).start second.2 := by
    simp only [again, hfirst]
  rw [hagain, hfirst]
  refine ⟨rfl, fun vs hvs => ?_, fun hg => ?_, fun hcurrent hfamilies hends hends' => ?_⟩
  · have hreturns : (resolveDomain symbol b given).Returns s vs second.2 := Prod.ext hvs rfl
    rw [resolveDomain_repeats Value.beq_self hkeyed hreturns, hvs]
  · exact resolveDomain_replays Value.beq_self_left Value.beq_self hkeyed hdata hg symbol b given
  · have hmeant := fun {t : Store Float} (ht : t.registry.CurrentFor s.registry.invalidate) =>
      resolveDomain_meant hkeyed.invalidate (isData_invalidate.2 hdata) hfamilies ht symbol
        b given
    obtain ⟨hleft, hsecond⟩ := hmeant hcurrent.current
    rw [(hmeant hleft).2 hends', hsecond hends]

/-! ## Multiples and signed zeros -/

/-- Multiples of an index, where the parameter in their condition has no value yet. -/
def multiplesScript : List String :=
  ["int n = 3;", "int p = ...;", "range I = 1..n;", "{int} S[i in I] = {k*i | k in I : k + p > 0};"]

/-- The store in which a script has been read. -/
def Store.reading (texts : List String) : Store K :=
  match Workspace.addingWhile holdsData texts blankWorkspace with
  | some w => ⟨w.problem.registry, w.warnings⟩
  | none => { registry := {} }

def openMultiples : Store Float := .reading multiplesScript

/-- Where a definition of the multiples stands above what it mentions. -/
def rankInMultiples : Mention → Nat
  | .domain "S" => 2
  | .domain "I" => 1
  | _ => 0

/-- The index at which a member is asked for, and something that the family does not see. -/
def atSecond (symbol : String) : Env Float :=
  (Env.empty.bind "i" (.int 2)).bind symbol (.int 7)

/-- The last element of a range, where it is known. -/
def Registry.knownLast (r : Registry K) (symbol : String) : Option Int :=
  (r.boundRanges.find? symbol).bind (·.knownLast)

/-- Registries of data in which every entry stands under its symbol. -/
def Registry.isProperData (r : Registry K) : Bool :=
  r.holdsData && r.params.toList.all (fun e => e.2.symbol == e.1) &&
    r.boundRanges.toList.all (fun e => e.2.symbol == e.1) &&
    r.computedSets.toList.all (fun e => e.2.symbol == e.1)

omit [Scalar K] in
theorem Registry.keyed_of_isProperData {r : Registry K} (h : r.isProperData = true) :
    r.Keyed ∧ r.IsData := by
  simp only [isProperData, Bool.and_eq_true, List.all_eq_true, beq_iff_eq] at h
  obtain ⟨⟨⟨hdata, hparams⟩, hranges⟩, hsets⟩ := h
  exact ⟨.of_entries hparams hranges hsets, isData_of_holdsData hdata⟩

theorem openMultiples_evaluated : openMultiples.registry.isProperData = true ∧
    (∀ m ∈ openMultiples.registry.definitions, ∀ q ∈ openMultiples.registry.mentionsOf m,
      rankInMultiples q.2 < rankInMultiples m ∧ q.2.isDexpr = false) ∧
    (openMultiples.registry.computedSets.find? "S").map
      (fun d => d.outer.map (·.symbol)) = some (some "i") ∧
    ((resolveDomain "S" (atSecond "k") none).start openMultiples).1.toOption = none ∧
    openMultiples.registry.knownLast "I" = none ∧
    ((resolveDomain "S" (atSecond "k") none).start openMultiples).2.registry.knownLast "I" =
      some 3 := by
  decide +kernel

/-- A resolution that fails leaves the bounds of the range, and the next one fails in the same way.
-/
theorem resolution_independent_multiples :
    let first := (resolveDomain "S" (atSecond "k") none).start openMultiples
    openMultiples.registry.SameOuter "S" none (atSecond "k") (atSecond "n") ∧
      openMultiples.registry.IsGrounded ∧ openMultiples.registry.knownLast "I" = none ∧
      first.1.toOption = none ∧ first.2.registry.knownLast "I" = some 3 ∧
      ((resolveDomain "S" (atSecond "n") none).start first.2).1 =
        ((resolveDomain "S" (atSecond "n") none).start openMultiples).1 := by
  obtain ⟨hproper, hrank, houter, hfails, hunknown, hknown⟩ := openMultiples_evaluated
  obtain ⟨hkeyed, hdata⟩ := keyed_of_isProperData hproper
  have hgrounded : openMultiples.registry.IsGrounded := .of_rank rankInMultiples hrank
  have hsame : openMultiples.registry.SameOuter "S" none (atSecond "k") (atSecond "n") := by
    intro d outer hd hd' _
    rw [find?_of_domain?_computed hd, Option.map_some, hd', Option.map_some,
      Option.some_inj, Option.some_inj] at houter
    rw [houter]
    rfl
  exact ⟨hsame, hgrounded, hunknown, hfails, hknown,
    (resolution_independent hkeyed hdata hsame).2.2.1 hgrounded⟩

/-- A family whose members at positive numbers ask for the members at the records of an open set. -/
def negativesScript : List String :=
  ["tuple T { float f; };", "{T} B = ...;", "int p = ...;",
    "{int} S[a in B] = {k | k in 1..1 : 1/a.f < 0 || sum(b in B, s in S[b]) p > 0};"]

/-- The open set has a record with the negative zero. -/
def negativeZero : Store Float :=
  ((assignRecords "B" (.list [.list [.real (-Scalar.zero)]])).start (.reading negativesScript)).2

/-- The record with the positive zero. -/
def positiveZero : Value Float := .record ⟨"T", [("f", .float)], []⟩ [.real Scalar.zero]

theorem negativeZero_evaluated : negativeZero.registry.isProperData = true ∧
    ((resolveDomain "S" Env.empty (some positiveZero)).start negativeZero).1.toOption = none ∧
    ((resolveDomain "S" Env.empty (some positiveZero)).start
      ((resolveDomain "S" Env.empty (some positiveZero)).start negativeZero).2).1.toOption.map
        (·.length) = some 1 := by
  decide +kernel

/-- A resolution that fails leaves the member at the negative zero, which is found at the positive
one when it is tried again. -/
theorem failed_resolution_then_found : negativeZero.registry.Keyed ∧ negativeZero.registry.IsData ∧
    let first := (resolveDomain "S" Env.empty (some positiveZero)).start negativeZero
    ((resolveDomain "S" Env.empty (some positiveZero)).start first.2).1 ≠ first.1 := by
  obtain ⟨hproper, hfails, hfound⟩ := negativeZero_evaluated
  obtain ⟨hkeyed, hdata⟩ := keyed_of_isProperData hproper
  refine ⟨hkeyed, hdata, fun hsame => ?_⟩
  rw [hsame, hfails] at hfound
  cases hfound

end LinearModel
