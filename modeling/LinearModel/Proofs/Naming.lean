import LinearModel.Double
import LinearModel.Proofs.Declared

/-!
# Names of variables

The name of a variable at an index is its symbol, followed by the parts of the index with
underscores between them. Nothing marks where the symbol ends, and a part may hold an underscore
itself. So different variables may have the same name. The only case that is checked is that of a
scalar variable. What can collide otherwise is told apart here: two symbols of which one begins with
the other, an index of several parts with an underscore in one of them, and parts that read the same
although they differ.
-/
namespace LinearModel

open Run Variable

variable {K : Type}

/-! ## Texts of whole numbers -/

theorem minus_not_mem_toDigits (n : Nat) : '-' ∉ Nat.toDigits 10 n := fun h => by
  have hdigit := Nat.isDigit_of_mem_toDigits (b := 10) (by decide) (by decide) h
  revert hdigit
  decide

theorem toList_intText (i : Int) :
    (intText i).toList =
      if i < 0 then '-' :: Nat.toDigits 10 i.natAbs else Nat.toDigits 10 i.natAbs := by
  unfold intText
  split <;> simp

theorem underscore_not_mem_intText (i : Int) : '_' ∉ (intText i).toList := by
  rw [toList_intText]
  split <;> simp

/-- Different whole numbers are written differently. -/
theorem intText_injective {i j : Int} (h : intText i = intText j) : i = j := by
  have hlists := congrArg String.toList h
  simp only [toList_intText] at hlists
  have habs : ∀ {m n : Nat}, Nat.toDigits 10 m = Nat.toDigits 10 n → m = n := fun {m n} hmn => by
    rw [← Nat.ofDigitChars_ten_toDigits (n := m), hmn, Nat.ofDigitChars_ten_toDigits]
  -- a minus sign is no digit, so both numbers have the same sign
  split at hlists <;> split at hlists
  · have := habs (List.cons.inj hlists).2
    omega
  · exact absurd (hlists ▸ List.mem_cons_self) (minus_not_mem_toDigits _)
  · exact absurd (hlists ▸ List.mem_cons_self) (minus_not_mem_toDigits _)
  · have := habs hlists
    omega

/-! ## Names and indices -/

/-- Two references are to the same variable: the symbols are the same, and so are the indices. -/
def Origin.Same [Scalar K] (o p : Origin K) : Prop :=
  o.1 = p.1 ∧ List.Forall₂ (fun x y => x = y ∨ (x == y) = true) (o.2.getD []) (p.2.getD [])

/-- The ways in which different variables come to have the same name. -/
inductive Origin.Clashes [Scalar K] (o p : Origin K) : Prop
  /-- One symbol begins with the other, and both variables have an index. -/
  | symbols (hne : o.1 ≠ p.1) (h : o.1.toList <+: p.1.toList ∨ p.1.toList <+: o.1.toList)
      (ho : o.2.getD [] ≠ []) (hp : p.2.getD [] ≠ [])
  /-- Of an index with several parts, one that is no whole number holds an underscore. -/
  | underscore (hsame : o.1 = p.1) (hseveral : 2 ≤ (o.2.getD []).length) (x : Value K)
      (hx : x ∈ o.2.getD [] ∨ x ∈ p.2.getD []) (hwhole : ∀ i, x ≠ .int i)
      (h : '_' ∈ (namePart x).toList)
  /-- At one place of the index, two different parts that are not both whole numbers read the same.
  -/
  | alike (hsame : o.1 = p.1) (k : Nat) (x y : Value K) (hx : (o.2.getD [])[k]? = some x)
      (hy : (p.2.getD [])[k]? = some y) (hwhole : ∀ i j, ¬ (x = .int i ∧ y = .int j))
      (hne : x ≠ y ∧ (x == y) = false) (h : namePart x = namePart y)

variable [Scalar K]

namespace Variable

theorem toList_nameAt (symbol : String) (idx : Index K) : (nameAt symbol idx).toList =
      symbol.toList ++ ['_'].intercalate (idx.map fun x => (namePart x).toList) := by
  simp [nameAt, String.toList_intercalate, Function.comp_def]

/-- Where no part holds an underscore, or there is one part only, a name can be taken apart. -/
theorem nameParts_of_nameAt_eq {symbol : String} {idx idx' : Index K}
    (hlength : idx.length = idx'.length)
    (hplain : idx.length ≤ 1 ∨ ∀ x, x ∈ idx ∨ x ∈ idx' → '_' ∉ (namePart x).toList)
    (h : nameAt symbol idx = nameAt symbol idx') : idx.map namePart = idx'.map namePart := by
  have hlists := congrArg String.toList h
  rw [toList_nameAt, toList_nameAt, List.append_cancel_left_eq] at hlists
  suffices hparts :
      idx.map (fun x => (namePart x).toList) = idx'.map fun x => (namePart x).toList by
    have := congrArg (List.map String.ofList) hparts
    simpa [Function.comp_def] using this
  rcases hplain with hshort | hplain
  · match idx, idx', hlength, hshort, hlists with
    | [], [], _, _, _ => rfl
    | [x], [y], _, _, hlists => simpa using hlists
  · by_cases hempty : idx = []
    · subst hempty
      rw [List.length_eq_zero_iff.1 hlength.symm]
    have hempty' : idx' ≠ [] := fun h' => hempty (by simpa [h'] using hlength)
    -- splitting at underscores gives the parts back
    have hsplit : ∀ {xs : Index K}, xs ≠ [] → (∀ x ∈ xs, '_' ∉ (namePart x).toList) →
        List.splitOn '_' (['_'].intercalate (xs.map fun x => (namePart x).toList))
          = xs.map fun x => (namePart x).toList := fun {xs} hne hxs =>
      List.splitOn_intercalate '_' (by simpa using hxs) (by simpa using hne)
    rw [← hsplit hempty fun x hx => hplain x (.inl hx), hlists,
      hsplit hempty' fun x hx => hplain x (.inr hx)]

end Variable

/-! ## References with the same name -/

theorem Origin.clashes_of_parts {o p : Origin K} (hsame : o.1 = p.1)
    (hparts : (o.2.getD []).map namePart = (p.2.getD []).map namePart) :
    o.Same p ∨ o.Clashes p := by
  by_cases hall : ∀ (k : Nat) (x y : Value K),
      (o.2.getD [])[k]? = some x → (p.2.getD [])[k]? = some y →
      x = y ∨ (x == y) = true
  · refine .inl ⟨hsame, List.forall₂_iff_get.2 ⟨by simpa using congrArg List.length hparts, ?_⟩⟩
    intro k hk hk'
    exact hall k _ _ (List.getElem?_eq_getElem hk) (List.getElem?_eq_getElem hk')
  · push Not at hall
    obtain ⟨k, x, y, hx, hy, hne, hne'⟩ := hall
    have hpart : namePart x = namePart y := by
      have hk := congrArg (·[k]?) hparts
      simpa [hx, hy] using hk
    refine .inr (.alike hsame k x y hx hy ?_ ⟨hne, by simpa using hne'⟩ hpart)
    rintro i j ⟨rfl, rfl⟩
    exact hne (by rw [intText_injective hpart])

namespace Registry.Names

variable {r : Registry K} {n : String} {o p : Origin K}

/-- The indices of two references to one symbol have the same length. -/
theorem length_eq (ho : r.Names n o) (hp : r.Names n p) (hsame : o.1 = p.1) :
    (o.2.getD []).length = (p.2.getD []).length := by
  obtain ⟨v, hv, hlength⟩ := ho.declared
  obtain ⟨u, hu, hlength'⟩ := hp.declared
  rw [hsame, hu] at hv
  obtain rfl := Option.some.inj hv
  rw [hlength, hlength']

/-- A scalar variable has its name for itself. -/
theorem symbol_eq_of_scalar (ho : r.Names n o) (hp : r.Names n p) (hscalar : o.2.getD [] = []) :
    o.1 = p.1 := by
  have hn : n = o.1 := by rw [ho.named, hscalar, nameAt_nil]
  obtain ⟨v, hv, hlength⟩ := ho.declared
  by_contra hne
  refine hp.free (hn ▸ hne) v (hn ▸ hv) ?_
  rw [← hlength, hscalar]
  rfl

/-- Two references with the same name are to the same variable, or clash. -/
theorem same_or_clashes (ho : r.Names n o) (hp : r.Names n p) : o.Same p ∨ o.Clashes p := by
  have hname : nameAt o.1 (o.2.getD []) = nameAt p.1 (p.2.getD []) :=
    ho.named.symm.trans hp.named
  by_cases hsame : o.1 = p.1
  · have hlength := ho.length_eq hp hsame
    rw [hsame] at hname
    by_cases hplain : (o.2.getD []).length ≤ 1 ∨ ∀ x, x ∈ o.2.getD [] ∨ x ∈ p.2.getD [] →
        '_' ∉ (namePart x).toList
    · exact Origin.clashes_of_parts hsame (nameParts_of_nameAt_eq hlength hplain hname)
    · push Not at hplain
      obtain ⟨hseveral, x, hx, hunderscore⟩ := hplain
      refine .inr (.underscore hsame hseveral x hx ?_ hunderscore)
      rintro i rfl
      exact underscore_not_mem_intText i hunderscore
  · refine .inr (.symbols hsame ?_ (fun hscalar => hsame (ho.symbol_eq_of_scalar hp hscalar))
      fun hscalar => hsame (hp.symbol_eq_of_scalar ho hscalar).symm)
    have hlists := congrArg String.toList hname
    rw [toList_nameAt, toList_nameAt] at hlists
    exact List.prefix_or_prefix_of_prefix ⟨_, hlists⟩ (List.prefix_append _ _)

end Registry.Names

/-- Two references of a built model with the same name are to the same variable, unless their
symbols, underscores in their indices or parts of these that read alike make their names clash. The
references are those in the equations and the objective, and every variable of the model is among
them. -/
theorem references_same_or_clash {w w' : Workspace K} (hw : w.problem.Reached)
    (h : Work.build.Returns w () w') : ∃ qs s',
      (referencesOf w.problem.statements).Returns ⟨w.problem.registry, w.warnings⟩ qs s' ∧
      w'.problem.model.RefersTo qs ∧
      ∀ p ∈ qs, ∀ q ∈ qs, p.1 = q.1 → p.2.Same q.2 ∨ p.2.Clashes q.2 := by
  obtain ⟨-, qs, s', hqs, -, hrefers, hnames⟩ := hw.isDeclared.build h
  refine ⟨qs, s', hqs, hrefers, fun p hp q hq hpq => ?_⟩
  have hq' := hnames q hq
  rw [← hpq] at hq'
  exact (hnames p hp).same_or_clashes hq'

/-- The variable at twelve of one family, and the one at two of another whose symbol ends in one. -/
def twelveTwice : Work Float Unit :=
  Work.addScript false "range A = 12..12; range B = 2..2; dvar float x[A]; dvar float x1[B];
    c: x[12] + 3*x1[2] <= 1;"

theorem references_same_or_clash_twelveTwice :
    ∃ (w w' : Workspace Float) (qs : List (Reference Float)) (s' : Store Float),
      w.problem.Reached ∧ Work.build.Returns w () w' ∧
      (referencesOf w.problem.statements).Returns ⟨w.problem.registry, w.warnings⟩ qs s' ∧
      ("x12", "x", some [.int 12]) ∈ qs ∧ ("x12", "x1", some [.int 2]) ∈ qs ∧
      Origin.Clashes (K := Float) ("x", some [.int 12]) ("x1", some [.int 2]) := by
  have hbuilt : ((do twelveTwice; Work.build : Work Float Unit).carry blankWorkspace).1.toOption
      = some () := by
    decide +kernel
  have hlisted : ((do
      twelveTwice
      let p ← Work.problem
      let qs ← Work.ofRun (referencesOf p.statements)
      return (qs.any (Reference.isAt "x12" "x" 12), qs.any (Reference.isAt "x12" "x1" 2)) :
        Work Float (Bool × Bool)).carry blankWorkspace).1.toOption = some (true, true) := by
    decide +kernel
  obtain ⟨w', h⟩ := Work.returns_of_toOption hbuilt
  obtain ⟨_, w, hscript, hbuild⟩ := Work.returns_bind.1 h
  obtain ⟨_, h⟩ := Work.returns_of_toOption hlisted
  obtain ⟨_, _, hscript', h⟩ := Work.returns_bind.1 h
  obtain ⟨_, rfl⟩ := hscript.unique hscript'
  replace h := Work.returns_problem_bind.1 h
  obtain ⟨qs, _, hqs, h⟩ := Work.returns_bind.1 h
  obtain ⟨hfirst, hsecond⟩ := Prod.mk.inj (Work.returns_pure.1 h).1
  have hw := Problem.Reached.script (.start none none none) hscript
  obtain ⟨qs', s', hqs', _, hsame⟩ := references_same_or_clash hw hbuild
  obtain ⟨_, hqs, _⟩ := Work.returns_ofRun.1 hqs
  obtain ⟨rfl, rfl⟩ := hqs.unique hqs'
  have hq₁ := mem_of_any_isAt hfirst
  have hq₂ := mem_of_any_isAt hsecond
  refine ⟨w, w', qs, _, hw, hbuild, hqs, hq₁, hq₂, ?_⟩
  exact (hsame _ hq₁ _ hq₂ rfl).resolve_left fun hsame => absurd hsame.1 (by decide)

end LinearModel
