import LinearModel.Proofs.Splitting

/-!
# Comments and literals

A scan from left to right finds the literals of a text, that is its parts in quotes, and passes over
comments. Once comments are removed, quotes alone tell where the literals are. A comment leaves a
blank or ends at a line break, so nothing that stood on its two sides forms a new comment.
-/
namespace LinearModel.Script

/-! ## Literals -/

/-- A literal after its opening quote, and the text after it. A backslash takes the next character
with it, and a literal that is not closed goes on to the end. -/
def literalSpan : List Char → List Char × List Char
  | [] => ([], [])
  | '\\' :: c :: cs => ('\\' :: c :: (literalSpan cs).1, (literalSpan cs).2)
  | '"' :: cs => (['"'], cs)
  | c :: cs => (c :: (literalSpan cs).1, (literalSpan cs).2)

/-- The text after the end of a comment that began with a slash and a star. -/
def afterBlock : List Char → List Char
  | [] => []
  | '*' :: '/' :: cs => cs
  | _ :: cs => afterBlock cs

theorem literalSpan_append (cs : List Char) : (literalSpan cs).1 ++ (literalSpan cs).2 = cs := by
  fun_induction literalSpan cs <;> simp_all

theorem length_literalSpan_le (cs : List Char) : (literalSpan cs).2.length ≤ cs.length := by
  have hlength := congrArg List.length (literalSpan_append cs)
  rw [List.length_append] at hlength
  omega

theorem length_afterBlock_le (cs : List Char) : (afterBlock cs).length ≤ cs.length := by
  fun_induction afterBlock cs <;> simp_all <;> omega

/-- The literals of a text that stand outside comments, with their quotes and backslashes. -/
def literals : List Char → List (List Char)
  | [] => []
  | '"' :: cs => ('"' :: (literalSpan cs).1) :: literals (literalSpan cs).2
  | '/' :: '/' :: cs => literals (cs.dropWhile (· != '\n'))
  | '/' :: '*' :: cs => literals (afterBlock cs)
  | _ :: cs => literals cs
  termination_by cs => cs.length
  decreasing_by
    · exact Nat.lt_succ_of_le (length_literalSpan_le cs)
    · exact Nat.lt_succ_of_le (Nat.le_succ_of_le (List.length_dropWhile_le _ cs))
    · exact Nat.lt_succ_of_le (Nat.le_succ_of_le (length_afterBlock_le cs))
    · exact Nat.lt_succ_self _

/-- The literals of a text by its quotes alone. -/
def quotations : List Char → List (List Char)
  | [] => []
  | '"' :: cs => ('"' :: (literalSpan cs).1) :: quotations (literalSpan cs).2
  | _ :: cs => quotations cs
  termination_by cs => cs.length
  decreasing_by
    · exact Nat.lt_succ_of_le (length_literalSpan_le cs)
    · exact Nat.lt_succ_self _

/-! ## Where comments and literals end -/

theorem stripFrom_line (cs : List Char) :
    stripFrom .line cs = stripFrom .code (cs.dropWhile (· != '\n')) := by
  induction cs with
  | nil => rfl
  | cons c cs ih =>
    by_cases hc : c = '\n'
    · subst hc
      rfl
    · simpa [stripFrom, hc] using ih

theorem stripFrom_block (cs : List Char) :
    stripFrom .block cs = stripFrom .code (afterBlock cs) := by
  fun_induction afterBlock cs with
  | case1 => rfl
  | case2 cs => rfl
  | case3 c cs hstar ih =>
    rw [← ih, stripFrom.eq_def]
    split <;> simp_all

theorem stripFrom_text (cs : List Char) :
    stripFrom .text cs = (literalSpan cs).1 ++ stripFrom .code (literalSpan cs).2 := by
  fun_induction literalSpan cs with
  | case1 => rfl
  | case2 c cs ih => simp [stripFrom, ih]
  | case3 cs => rfl
  | case4 c cs hescape hquote ih =>
    rw [List.cons_append, ← ih, stripFrom.eq_def]
    split <;> simp_all

/-- A literal ends where it ended, whatever follows it. One that is not closed has nothing after it.
-/
theorem literalSpan_again (cs : List Char) {u : List Char} (hu : (literalSpan cs).2 = [] → u = []) :
    literalSpan ((literalSpan cs).1 ++ u) = ((literalSpan cs).1, u) := by
  fun_induction literalSpan cs with
  | case1 => simp [hu rfl, literalSpan]
  | case2 c cs ih => simp [literalSpan, ih hu]
  | case3 cs => simp [literalSpan]
  | case4 c cs hescape hquote ih =>
    rw [List.cons_append, literalSpan.eq_def]
    by_cases hc : c = '\\'
    · -- a backslash stands alone only at the end
      subst hc
      obtain rfl : cs = [] := List.eq_nil_iff_forall_not_mem.2 fun d hd => by
        obtain ⟨e, es, rfl⟩ := List.exists_cons_of_ne_nil (List.ne_nil_of_mem hd)
        exact hescape e es rfl rfl
      simp [literalSpan, hu rfl]
    · split <;> simp_all

/-- No comment begins where one was removed: the next character is kept unless it is a slash. -/
theorem head?_stripFrom_code {cs : List Char} (hcs : cs.head? ≠ some '/') :
    (stripFrom .code cs).head? = cs.head? := by
  cases cs with
  | nil => rfl
  | cons c cs =>
    by_cases hquote : c = '"'
    · subst hquote
      rfl
    · rw [stripFrom_code_cons hquote fun hslash => absurd (congrArg some hslash) hcs]
      rfl

/-! ## Without comments -/

theorem opens_no_comment {c : Char} {cs : List Char}
    (hline : ∀ ds, c = '/' → cs = '/' :: ds → False)
    (hblock : ∀ ds, c = '/' → cs = '*' :: ds → False) :
    c = '/' → ∀ d ∈ cs.head?, d ≠ '/' ∧ d ≠ '*' := by
  intro hslash d hd
  obtain ⟨ds, rfl⟩ := List.head?_eq_some_iff.1 hd
  exact ⟨fun h => hline ds hslash (h ▸ rfl), fun h => hblock ds hslash (h ▸ rfl)⟩

theorem stripFrom_code_idempotent (cs : List Char) :
    stripFrom .code (stripFrom .code cs) = stripFrom .code cs := by
  fun_induction literals cs with
  | case1 => rfl
  | case2 cs ih =>
    have hagain := literalSpan_again cs (u := stripFrom .code (literalSpan cs).2)
      fun hrest => by rw [hrest]; rfl
    rw [stripFrom, stripFrom_text, stripFrom, stripFrom_text, hagain, ih]
  | case3 cs ih => rwa [stripFrom, stripFrom_line]
  | case4 cs ih =>
    rw [stripFrom, stripFrom_block, stripFrom_code_cons (by decide) (by simp), ih]
  | case5 c cs hquote hline hblock ih =>
    have hnext := opens_no_comment hline hblock
    rw [stripFrom_code_cons hquote hnext, stripFrom_code_cons hquote, ih]
    intro hslash d hd
    rw [head?_stripFrom_code fun h => (hnext hslash _ h).1 rfl] at hd
    exact hnext hslash d hd

theorem quotations_stripFrom (cs : List Char) : quotations (stripFrom .code cs) = literals cs := by
  fun_induction literals cs with
  | case1 => simp [stripFrom, quotations]
  | case2 cs ih =>
    have hagain := literalSpan_again cs (u := stripFrom .code (literalSpan cs).2)
      fun hrest => by rw [hrest]; rfl
    rw [stripFrom, stripFrom_text, quotations, hagain, ih]
  | case3 cs ih => rw [stripFrom, stripFrom_line, ih]
  | case4 cs ih => rw [stripFrom, stripFrom_block, quotations, ih]; simp
  | case5 c cs hquote hline hblock ih =>
    rw [stripFrom_code_cons hquote (opens_no_comment hline hblock), quotations, ih]
    exact hquote

/-- Comments are removed once and for all, and the literals outside comments are kept: they are
those that quotes alone tell in the text without comments. -/
theorem stripComments_keeps_literals (t : List Char) :
    stripComments (stripComments t) = stripComments t ∧ quotations (stripComments t) = literals t ∧
      literals (stripComments t) = literals t := by
  have hagain := stripFrom_code_idempotent t
  refine ⟨hagain, quotations_stripFrom t, ?_⟩
  rw [stripComments, ← quotations_stripFrom, hagain, quotations_stripFrom]

end LinearModel.Script
