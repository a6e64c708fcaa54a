import LinearModel.Double
import LinearModel.Token.Lexer
import Mathlib.Data.List.Find
import Mathlib.Data.List.TakeWhile

/-!
# Lexing

How far a token reaches depends on up to two characters after it. A character that belongs to no
word and no number, and that no operator goes on with, separates what stands before it from what
stands after it. The tokens of a text that falls apart at such a character are those of its parts.
The exception is a whole number with a point at the end of the first part: the point belongs to the
number if a blank follows, and is a token of its own if nothing does.
-/
namespace LinearModel

namespace Text

def blankCodes : List Nat := blanks.flatMap fun r => List.range' r.1 (r.2 - r.1 + 1)

theorem toNat_mem_blankCodes {c : Char} (h : isBlank c = true) : c.toNat ∈ blankCodes := by
  obtain ⟨r, hr, hlow, hhigh⟩ := inRanges_iff.1 h
  exact List.mem_flatMap.2 ⟨r, hr, List.mem_range'_1.2 ⟨hlow, by omega⟩⟩

/-- Whatever no blank is. -/
theorem eq_false_of_isBlank {p : Char → Bool} (hp : ∀ n ∈ blankCodes, p (Char.ofNat n) = false)
    {c : Char} (h : isBlank c = true) : p c = false := by
  rw [← Char.ofNat_toNat c]
  exact hp _ (toNat_mem_blankCodes h)

end Text

/-- What a token may be. -/
inductive TokenKind where
  | text
  | number
  | identifier
  | operator

/-- What a token is that starts with a character. -/
def TokenKind.ofFirst (c : Char) : TokenKind :=
  if c = '"' then .text
  else if Text.isAnyDigit c then .number
  else if Text.isWordStart c then .identifier
  else .operator

/-- What a token is, unless it marks the end. -/
def Lexeme.kind? {K : Type} : Lexeme K → Option TokenKind
  | .text _ => some .text
  | .number _ => some .number
  | .identifier => some .identifier
  | .operator => some .operator
  | .stop => none

/-- A token further on in a text. -/
def Token.shift {K : Type} (n : Nat) (t : Token K) : Token K :=
  { t with position := t.position + n }

namespace Lexer

open Text

variable {K : Type} [Scalar K] {c d : Char} {cs u ws : List Char}

/-! ## Tokens without the end -/

/-- The token at the front of a text, if there is one. -/
def span? (c : Char) (cs : List Char) : Option (Span K) := (spanAt "" 0 c cs).toOption

/-- The tokens of a text without the one that marks its end. -/
def lex (position skip : Nat) : List Char → Option (List (Token K))
  | [] => some []
  | c :: cs =>
    match skip with
    | n + 1 => lex (position + 1) n cs
    | 0 =>
      if isBlank c then lex (position + 1) 0 cs
      else do
        let t ← span? c cs
        let ts ← lex (position + 1) (t.length - 1) cs
        return ⟨t.lexeme, t.literal, position⟩ :: ts

theorem lex_of_isBlank (hc : isBlank c = true) (position : Nat) (cs : List Char) :
    lex (K := K) position 0 (c :: cs) = lex (position + 1) 0 cs := by
  simp only [lex, hc, if_true]

theorem lex_of_not_isBlank (hc : ¬ isBlank c = true) (position : Nat) (cs : List Char) :
    lex (K := K) position 0 (c :: cs) = do
      let t ← span? c cs
      let ts ← lex (position + 1) (t.length - 1) cs
      return ⟨t.lexeme, t.literal, position⟩ :: ts := by
  simp only [lex, if_neg hc]

omit [Scalar K] in
theorem toOption_bind {α β : Type} (x : Except (Cause K) α) (f : α → Except (Cause K) β) :
    (x >>= f).toOption = x.toOption >>= fun a => (f a).toOption := by
  cases x <;> rfl

theorem toOption_spanAt (text : String) (position : Nat) (c : Char) (cs : List Char) :
    (spanAt (K := K) text position c cs).toOption = span? c cs := by
  simp only [span?, spanAt]
  repeat' split
  all_goals rfl

theorem toOption_scan (text : String) (position skip : Nat) (cs : List Char) :
    (scan (K := K) text position skip cs).toOption =
      (lex position skip cs).map (· ++ [⟨.stop, "", position + cs.length⟩]) := by
  induction cs generalizing position skip with
  | nil => rfl
  | cons c cs ih =>
    have hlength : position + (c :: cs).length = position + 1 + cs.length := by
      rw [List.length_cons]; omega
    rw [hlength]
    cases skip with
    | succ n => exact ih _ _
    | zero =>
      simp only [scan, lex]
      split
      · exact ih _ _
      · simp only [toOption_bind, toOption_spanAt, ih]
        cases span? (K := K) c cs with
        | none => rfl
        | some t =>
          cases hlex : lex (K := K) (position + 1) (t.length - 1) cs with
          | none => simp [hlex]
          | some ts => simp [hlex, pure, Except.pure, Except.toOption]

/-! ## How far a token reaches -/

theorem length_takeWhile_le (p : Char → Bool) (cs : List Char) :
    (cs.takeWhile p).length ≤ cs.length := (List.takeWhile_sublist p).length_le

theorem fractionLength_le (cs : List Char) : fractionLength cs ≤ cs.length := by
  fun_cases fractionLength cs with
  | case1 c cs _ =>
    have hcount := length_takeWhile_le isAnyDigit (c :: cs)
    simp only [digitCount, List.length_cons] at hcount ⊢
    omega
  | _ => simp

theorem signLength_le (cs : List Char) : signLength cs ≤ cs.length := by
  fun_cases signLength cs <;> simp

theorem exponentLength_le (cs : List Char) : exponentLength cs ≤ cs.length := by
  have hcount := length_takeWhile_le isAnyDigit
  cases cs with
  | nil => simp [exponentLength]
  | cons c cs =>
    have hdigits := hcount (cs.drop (signLength cs))
    simp only [exponentLength, digitCount, List.length_cons]
    grind

theorem numberSpan_le (cs : List Char) : (numberSpan cs).1 ≤ cs.length := by
  have hwhole := length_takeWhile_le isAnyDigit cs
  have hfraction := fractionLength_le (cs.drop (digitCount cs))
  have hexponent := exponentLength_le
    (cs.drop (digitCount cs + fractionLength (cs.drop (digitCount cs))))
  simp only [numberSpan, digitCount, List.length_drop] at *
  omega

theorem scanText?_le {content : List Char} {n : Nat} (h : scanText? cs = some (content, n)) :
    n ≤ cs.length := by
  fun_induction scanText? cs generalizing content n with
  | case1 => cases h
  | case2 c cs ih =>
    obtain ⟨⟨content', n'⟩, hrest, heq⟩ := Option.map_eq_some_iff.1 h
    cases heq
    exact Nat.add_le_add_right (ih hrest) 2
  | case3 cs =>
    cases h
    exact Nat.le_add_left 1 _
  | case4 c cs _ _ ih =>
    obtain ⟨⟨content', n'⟩, hrest, heq⟩ := Option.map_eq_some_iff.1 h
    cases heq
    exact Nat.add_le_add_right (ih hrest) 1

theorem length_operatorAt?_le {s : String} (h : operatorAt? cs = some s) :
    s.length ≤ cs.length := by
  have hprefix := List.find?_some h
  exact (List.isPrefixOf_iff_prefix.1 hprefix).length_le

/-- A token is of one of five forms, each with its own reach. -/
theorem span?_cases {t : Span K} (h : span? c cs = some t) : t.lexeme.kind? = some (.ofFirst c) ∧
    ((c = '"' ∧ ∃ content n, scanText? cs = some (content, n) ∧
        t.literal = String.ofList (c :: cs.take n) ∧ t.length = n + 1) ∨
      (isAnyDigit c = true ∧ t.length = (numberSpan (c :: cs)).1 ∧
        t.literal = String.ofList ((c :: cs).take t.length)) ∨
      (isWordStart c = true ∧ t.literal = String.ofList ((c :: cs).takeWhile isWordChar) ∧
        t.length = t.literal.length) ∨
      (alias? c = some t.literal ∧ t.length = 1) ∨
      (alias? c = none ∧ operatorAt? (c :: cs) = some t.literal ∧
        t.length = t.literal.length)) := by
  simp only [span?, spanAt] at h
  simp only [TokenKind.ofFirst]
  split at h
  · rename_i hquote
    split at h <;> cases h
    rename_i content n htext
    exact ⟨by rw [if_pos hquote]; rfl, .inl ⟨hquote, content, n, htext, rfl, rfl⟩⟩
  · rename_i hquote
    rw [if_neg hquote]
    split at h
    · rename_i hdigit
      rw [if_pos hdigit]
      cases hnumber : readNumber (K := K) (numberSpan (c :: cs)).2
        ((c :: cs).take (numberSpan (c :: cs)).1) with
      | error e => simp [hnumber, bind, Except.bind, Except.toOption] at h
      | ok x =>
        simp only [hnumber, bind, Except.bind, pure, Except.pure, Except.toOption,
          Option.some.injEq] at h
        subst h
        exact ⟨rfl, .inr (.inl ⟨hdigit, rfl, rfl⟩)⟩
    · rename_i hdigit
      rw [if_neg hdigit]
      split at h
      · rename_i hword
        cases h
        exact ⟨by rw [if_pos hword]; rfl,
          .inr (.inr (.inl ⟨hword, rfl, (String.length_ofList).symm⟩))⟩
      · rename_i hword
        rw [if_neg hword]
        split at h
        · rename_i s hs
          cases h
          exact ⟨rfl, .inr (.inr (.inr (.inl ⟨hs, rfl⟩)))⟩
        · rename_i hsign
          split at h <;> cases h
          rename_i s hs
          exact ⟨rfl, .inr (.inr (.inr (.inr ⟨hsign, hs, rfl⟩)))⟩

/-- A token lies within its text. -/
theorem length_span?_le {t : Span K} (h : span? c cs = some t) : t.length ≤ cs.length + 1 := by
  obtain ⟨-, ⟨-, content, n, htext, -, hn⟩ | ⟨-, hn, -⟩ | ⟨-, hword, hn⟩ | ⟨-, hn⟩ |
    ⟨-, hs, hn⟩⟩ :=
    span?_cases h <;> rw [hn]
  · exact Nat.succ_le_succ (scanText?_le htext)
  · exact numberSpan_le (c :: cs)
  · rw [hword, String.length_ofList]
    exact length_takeWhile_le isWordChar (c :: cs)
  · exact Nat.le_add_left 1 _
  · exact length_operatorAt?_le hs

/-! ## Separators -/

/-- A character that separates what stands before it from what stands after it. -/
def isSeparator (d : Char) : Bool := !isWordChar d && !".=&|+-\"".toList.contains d

theorem isSeparator_of_isBlank (h : isBlank d = true) : isSeparator d = true := by
  have hnot := eq_false_of_isBlank (p := fun c => !isSeparator c) (by decide +kernel) h
  simpa using hnot

/-- Whether a text ends in a whole number and a point, as the lexer comes to them after the tokens
before. The first `skip` characters belong to one of these. -/
def endsInPoint (skip : Nat) : List Char → Bool
  | [] => false
  | c :: cs =>
    match skip with
    | n + 1 => endsInPoint n cs
    | 0 =>
      if isBlank c then endsInPoint 0 cs
      else isAnyDigit c && (c :: cs).dropWhile isAnyDigit == ['.'] ||
        (span? (K := K) c cs).any fun t => endsInPoint (t.length - 1) cs

theorem takeWhile_append_of_neg {p : Char → Bool} (hd : p d = false) (cs u : List Char) :
    (cs ++ d :: u).takeWhile p = cs.takeWhile p := by
  induction cs with
  | nil => simp [hd]
  | cons c cs ih => by_cases hc : p c = true <;> simp [hc, ih]

/-- A text in quotes ends where it ended, whatever follows it. -/
theorem scanText?_append {r : List Char × Nat} (h : scanText? cs = some r) (u : List Char) :
    scanText? (cs ++ u) = some r := by
  fun_induction scanText? cs generalizing r with
  | case1 => cases h
  | case2 c cs ih =>
    obtain ⟨r', hrest, rfl⟩ := Option.map_eq_some_iff.1 h
    simp [scanText?, ih hrest]
  | case3 cs => simpa [scanText?] using h
  | case4 c cs hslash hquote ih =>
    obtain ⟨r', hrest, rfl⟩ := Option.map_eq_some_iff.1 h
    have hne : c ≠ '\\' := by
      rintro rfl
      cases cs with
      | nil => cases hrest
      | cons c cs => exact hslash c cs rfl rfl
    simp [scanText?, hne, ih hrest]

/-- A text that is not closed stays so if no quote follows. -/
theorem scanText?_append_of_none (h : scanText? cs = none) (hu : '"' ∉ u) :
    scanText? (cs ++ u) = none := by
  have hnone : ∀ {v : List Char}, '"' ∉ v → scanText? v = none := by
    intro v hv
    fun_induction scanText? v <;> simp_all
  fun_induction scanText? cs with
  | case1 => exact hnone hu
  | case2 c cs ih => simpa [scanText?] using ih (Option.map_eq_none_iff.1 h)
  | case3 cs => cases h
  | case4 c cs hslash hquote ih =>
    by_cases hc : c = '\\'
    · subst hc
      cases cs with
      | nil => exact hnone (by simpa using hu)
      | cons c cs => exact absurd rfl (hslash c cs rfl)
    · simp [scanText?, hc, ih (Option.map_eq_none_iff.1 h)]

theorem isPrefixOf_append_of_not_mem {s : List Char} (hd : d ∉ s) (cs u : List Char) :
    s.isPrefixOf (cs ++ d :: u) = s.isPrefixOf cs := by
  induction s generalizing cs with
  | nil => rfl
  | cons e es ih =>
    rw [List.mem_cons, not_or] at hd
    cases cs with
    | nil => simp [List.isPrefixOf, Ne.symm hd.1]
    | cons c cs => simp [List.isPrefixOf, ih hd.2]

section Separated

variable (hd : isSeparator d = true)

include hd

theorem not_isWordChar_of_isSeparator : isWordChar d = false := by
  simp only [isSeparator, Bool.and_eq_true, Bool.not_eq_true'] at hd
  exact hd.1

theorem not_isAnyDigit_of_isSeparator : isAnyDigit d = false := by
  have hword := not_isWordChar_of_isSeparator hd
  simp only [isWordChar, Bool.or_eq_false_iff] at hword
  exact hword.1.1.2

theorem ne_of_isSeparator : ∀ c ∈ ".=&|+-\"".toList, d ≠ c := by
  simp only [isSeparator, Bool.and_eq_true, Bool.not_eq_true'] at hd
  rintro c hc rfl
  rw [List.contains_iff_mem.2 hc] at hd
  exact Bool.noConfusion hd.2

theorem digitCount_append (cs u : List Char) : digitCount (cs ++ d :: u) = digitCount cs := by
  rw [digitCount, takeWhile_append_of_neg (not_isAnyDigit_of_isSeparator hd), digitCount]

theorem fractionLength_append (hcs : cs ≠ ['.']) (u : List Char) :
    fractionLength (cs ++ d :: u) = fractionLength cs := by
  have hpoint := ne_of_isSeparator hd '.' (by decide)
  match cs with
  | [] => simp [fractionLength, hpoint]
  | [c] => simp [fractionLength, show c ≠ '.' by simpa using hcs]
  | c :: c' :: cs =>
    by_cases hc : c = '.'
    · subst hc
      simp only [List.cons_append, fractionLength]
      rw [← List.cons_append, digitCount_append hd]
    · simp [fractionLength, hc]

theorem signLength_append (cs u : List Char) : signLength (cs ++ d :: u) = signLength cs := by
  have hplus := ne_of_isSeparator hd '+' (by decide)
  have hminus := ne_of_isSeparator hd '-' (by decide)
  cases cs with
  | nil => simp [signLength, hplus, hminus]
  | cons c cs =>
    by_cases hsign : c = '+' ∨ c = '-'
    · obtain rfl | rfl := hsign <;> rfl
    · rw [not_or] at hsign
      simp [signLength, hsign.1, hsign.2]

theorem exponentLength_append (cs u : List Char) :
    exponentLength (cs ++ d :: u) = exponentLength cs := by
  cases cs with
  | nil =>
    have hmark : ∀ c ∈ ['e', 'E'], d ≠ c := by
      rintro c hc rfl
      have hword := not_isWordChar_of_isSeparator hd
      revert hword
      obtain rfl | rfl : d = 'e' ∨ d = 'E' := by simpa using hc
      all_goals decide
    simp [exponentLength, hmark 'e', hmark 'E']
  | cons c cs =>
    simp only [List.cons_append, exponentLength, signLength_append hd]
    rw [List.drop_append_of_le_length (signLength_le cs), digitCount_append hd]

theorem numberSpan_append (hcs : cs.dropWhile isAnyDigit ≠ ['.']) (u : List Char) :
    numberSpan (cs ++ d :: u) = numberSpan cs := by
  have hwhole : digitCount cs ≤ cs.length := length_takeWhile_le isAnyDigit cs
  have hrest : cs.drop (digitCount cs) = cs.dropWhile isAnyDigit := by
    have hdrop : (cs.takeWhile isAnyDigit ++ cs.dropWhile isAnyDigit).drop (digitCount cs) =
        cs.dropWhile isAnyDigit := List.drop_left
    rwa [List.takeWhile_append_dropWhile] at hdrop
  have hfraction := fractionLength_le (cs.drop (digitCount cs))
  rw [List.length_drop] at hfraction
  simp only [numberSpan, digitCount_append hd]
  rw [List.drop_append_of_le_length hwhole, fractionLength_append hd (hrest ▸ hcs),
    List.drop_append_of_le_length (by omega), exponentLength_append hd]

theorem operatorAt?_append (c : Char) (cs u : List Char) :
    operatorAt? (c :: (cs ++ d :: u)) = operatorAt? (c :: cs) := by
  have htail : ∀ s ∈ operators, ∀ e ∈ s.toList.tail, e ∈ ".=&|+-\"".toList := by
    simp [operators]
  refine List.find?_congr fun s hs => ?_
  have hmissing : d ∉ s.toList.tail := fun h => ne_of_isSeparator hd d (htail s hs d h) rfl
  cases hchars : s.toList with
  | nil => rfl
  | cons e es =>
    rw [hchars] at hmissing
    exact congrArg (e == c && ·) (isPrefixOf_append_of_not_mem hmissing cs u)

/-- What a separator follows is no longer than without it. -/
theorem span?_append (hcs : isAnyDigit c = true → (c :: cs).dropWhile isAnyDigit ≠ ['.'])
    (hu : '"' ∉ d :: u) : span? (K := K) c (cs ++ d :: u) = span? c cs := by
  have hword := takeWhile_append_of_neg (not_isWordChar_of_isSeparator hd) (c :: cs) u
  simp only [span?, spanAt]
  split
  · cases htext : scanText? cs with
    | none => simp [scanText?_append_of_none htext hu]
    | some r => simp [scanText?_append htext, List.take_append_of_le_length (scanText?_le htext)]
  · split
    · rename_i hdigit
      rw [← List.cons_append, numberSpan_append hd (hcs hdigit),
        List.take_append_of_le_length (numberSpan_le (c :: cs))]
    · rw [← List.cons_append, hword, List.cons_append, operatorAt?_append hd]

/-- The tokens of a text that a separator takes apart are those of its parts. -/
theorem lex_append_cons {position skip : Nat} (hskip : skip ≤ cs.length)
    (hcs : endsInPoint (K := K) skip cs = false) (hu : '"' ∉ d :: u) :
    lex (K := K) position skip (cs ++ d :: u) = do
      let ts ← lex position skip cs
      let us ← lex (position + cs.length) 0 (d :: u)
      return ts ++ us := by
  induction cs generalizing position skip with
  | nil =>
    obtain rfl : skip = 0 := Nat.le_zero.1 hskip
    simp [lex]
  | cons c cs ih =>
    have hlength : position + (c :: cs).length = position + 1 + cs.length := by
      rw [List.length_cons]; omega
    rw [hlength]
    cases skip with
    | succ n => exact ih (Nat.le_of_succ_le_succ hskip) hcs
    | zero =>
      rw [List.cons_append]
      by_cases hblank : isBlank c = true
      · rw [lex_of_isBlank hblank, lex_of_isBlank hblank]
        exact ih (Nat.zero_le _) (by simpa [endsInPoint, hblank] using hcs)
      · simp only [endsInPoint, hblank, Bool.false_eq_true, if_false, Bool.or_eq_false_iff,
          Bool.and_eq_false_imp, beq_eq_false_iff_ne] at hcs
        rw [lex_of_not_isBlank hblank, lex_of_not_isBlank hblank, span?_append hd hcs.1 hu]
        cases hspan : span? (K := K) c cs with
        | none => rfl
        | some t =>
          have hle := length_span?_le hspan
          have hrest : endsInPoint (K := K) (t.length - 1) cs = false := by
            simpa [hspan] using hcs.2
          have hskip : t.length - 1 ≤ cs.length := by omega
          simp only [Option.bind_eq_bind, Option.bind_some, ih hskip hrest, Option.bind_assoc,
            Option.pure_def, List.cons_append]

end Separated

/-- The tokens of a text are those of its parts, if the second part starts with a separator. -/
theorem lex_append (hu : ∀ d ∈ u.head?, isSeparator d = true) (hquote : '"' ∉ u)
    (hcs : endsInPoint (K := K) 0 cs = false) (position : Nat) :
    lex (K := K) position 0 (cs ++ u) = do
      let ts ← lex position 0 cs
      let us ← lex (position + cs.length) 0 u
      return ts ++ us := by
  cases u with
  | nil => simp [lex]
  | cons d u => exact lex_append_cons (hu d rfl) (Nat.zero_le _) hcs hquote

/-! ## Blanks around a text -/

/-- The positions of tokens count from the start of the text. -/
theorem lex_add (n position skip : Nat) (cs : List Char) :
    lex (K := K) (position + n) skip cs =
      (lex position skip cs).map (List.map (Token.shift n)) := by
  induction cs generalizing position skip with
  | nil => rfl
  | cons c cs ih =>
    have hposition : position + n + 1 = position + 1 + n := Nat.add_right_comm _ _ _
    cases skip with
    | succ k => simpa [lex, hposition] using ih (position + 1) k
    | zero =>
      by_cases hblank : isBlank c = true
      · rw [lex_of_isBlank hblank, lex_of_isBlank hblank, hposition, ih]
      · rw [lex_of_not_isBlank hblank, lex_of_not_isBlank hblank, hposition]
        cases span? (K := K) c cs with
        | none => rfl
        | some t =>
          simp only [Option.bind_eq_bind, Option.bind_some, ih]
          cases lex (K := K) (position + 1) (t.length - 1) cs <;> rfl

theorem lex_blanks_append (hws : ∀ c ∈ ws, isBlank c = true) (position : Nat)
    (cs : List Char) : lex (K := K) position 0 (ws ++ cs) = lex (position + ws.length) 0 cs := by
  induction ws generalizing position with
  | nil => rfl
  | cons c ws ih =>
    obtain ⟨hc, hws⟩ := List.forall_mem_cons.1 hws
    rw [List.cons_append, lex_of_isBlank hc, ih hws, List.length_cons, Nat.add_assoc,
      Nat.add_comm 1]

theorem lex_blanks (hws : ∀ c ∈ ws, isBlank c = true) (position : Nat) :
    lex (K := K) position 0 ws = some [] := by
  simpa [lex] using lex_blanks_append (K := K) hws position []

theorem quote_not_mem_blanks (hws : ∀ c ∈ ws, isBlank c = true) : '"' ∉ ws :=
  fun h => absurd (hws _ h) (by decide)

/-- A semicolon with blanks around it is one token. -/
theorem lex_semicolon {ws ws' : List Char} (hws : ∀ c ∈ ws, isBlank c = true)
    (hws' : ∀ c ∈ ws', isBlank c = true) (position : Nat) :
    lex (K := K) position 0 (ws ++ ';' :: ws') = some [⟨.operator, ";", position + ws.length⟩] := by
  have hspan : span? (K := K) ';' ws' = some ⟨.operator, ";", 1⟩ := rfl
  rw [lex_blanks_append hws, lex_of_not_isBlank (by decide), hspan]
  simp [lex_blanks hws']

end Lexer

open Lexer Text

variable {K : Type} [Scalar K]

theorem tokenize_of_lex {text : String} {ts : List (Token K)} (h : lex 0 0 text.toList = some ts) :
    tokenize text = .ok (ts ++ [⟨.stop, "", text.length⟩]) := by
  have hscan := toOption_scan (K := K) text 0 0 text.toList
  rw [h, Nat.zero_add, String.length_toList] at hscan
  cases htokens : tokenize (K := K) text with
  | error e => simp [← tokenize.eq_1, htokens, Except.toOption] at hscan
  | ok us => simpa [← tokenize.eq_1, htokens, Except.toOption] using hscan

theorem tokenize_of_lex_none {text : String} (h : lex (K := K) 0 0 text.toList = none) :
    ∃ e, tokenize (K := K) text = .error e := by
  have hscan := toOption_scan (K := K) text 0 0 text.toList
  rw [h] at hscan
  cases htokens : tokenize (K := K) text with
  | error e => exact ⟨e, rfl⟩
  | ok us => simp [← tokenize.eq_1, htokens, Except.toOption] at hscan

/-- The tokens of a text do not depend on the blanks after it, but for the position of its end,
unless it ends in a whole number and a point. Nor do they depend on the blanks before it, but for
their positions, or on a semicolon after it, which is one more token. -/
theorem tokenize_blanks_around {v t w u : String} (ht : endsInPoint (K := K) 0 t.toList = false)
    (hv : ∀ c ∈ v.toList, isBlank c = true) (hw : ∀ c ∈ w.toList, isBlank c = true)
    (hu : ∀ c ∈ u.toList, isBlank c = true) :
    (∃ ts : List (Token K), tokenize t = .ok (ts ++ [⟨.stop, "", t.length⟩]) ∧
      tokenize (t ++ w) = .ok (ts ++ [⟨.stop, "", (t ++ w).length⟩]) ∧
      tokenize (v ++ t ++ w ++ ";" ++ u) = .ok (ts.map (Token.shift v.length) ++
        [⟨.operator, ";", (v ++ t ++ w).length⟩,
          ⟨.stop, "", (v ++ t ++ w ++ ";" ++ u).length⟩])) ∨
    (∃ e, tokenize (K := K) t = .error e) ∧ (∃ e, tokenize (K := K) (t ++ w) = .error e) ∧
      ∃ e, tokenize (K := K) (v ++ t ++ w ++ ";" ++ u) = .error e := by
  have hquote : '"' ∉ w.toList ++ ';' :: u.toList := by
    simp [quote_not_mem_blanks hw, quote_not_mem_blanks hu]
  have hfirst : ∀ d ∈ (w.toList ++ ';' :: u.toList).head?, isSeparator d = true := by
    cases hchars : w.toList with
    | nil =>
      rintro d ⟨⟩
      decide
    | cons c cs =>
      rintro d ⟨⟩
      exact isSeparator_of_isBlank (hw c (by simp [hchars]))
  have hblanks : lex (K := K) 0 0 (t ++ w).toList = lex 0 0 t.toList := by
    rw [String.toList_append, lex_append (fun d hd => isSeparator_of_isBlank
      (hw d (List.mem_of_mem_head? hd))) (quote_not_mem_blanks hw) ht, lex_blanks hw]
    simp
  have hwhole : lex (K := K) 0 0 (v ++ t ++ w ++ ";" ++ u).toList = (lex 0 0 t.toList).map fun ts =>
      ts.map (Token.shift v.length) ++ [⟨.operator, ";", (v ++ t ++ w).length⟩] := by
    have htext : (v ++ t ++ w ++ ";" ++ u).toList =
        v.toList ++ (t.toList ++ (w.toList ++ ';' :: u.toList)) := by simp
    rw [htext, lex_blanks_append hv, lex_append hfirst hquote ht, lex_semicolon hw hu, lex_add]
    cases lex (K := K) 0 0 t.toList <;> simp [String.length_toList]
  cases hlex : lex (K := K) 0 0 t.toList with
  | none =>
    rw [hlex] at hblanks hwhole
    exact .inr ⟨tokenize_of_lex_none hlex, tokenize_of_lex_none hblanks,
      tokenize_of_lex_none hwhole⟩
  | some ts =>
    rw [hlex] at hblanks hwhole
    refine .inl ⟨ts, tokenize_of_lex hlex, tokenize_of_lex hblanks, ?_⟩
    rw [tokenize_of_lex hwhole, List.append_assoc, List.singleton_append]

/-- Texts that end in a point, but not after a whole number. -/
def pointLast : List String := ["1..", "a1.", "p = 1.5."]

theorem tokenize_blanks_around_pointLast :
    (∀ t ∈ pointLast, endsInPoint (K := Float) 0 t.toList = false) ∧
      (∀ ws ∈ ["\t ", "\n", " "], ∀ c ∈ ws.toList, isBlank c = true) ∧
      ∀ t ∈ pointLast, ∃ ts : List (Token Float),
        tokenize t = .ok (ts ++ [⟨.stop, "", t.length⟩]) ∧
        tokenize (t ++ "\n") = .ok (ts ++ [⟨.stop, "", (t ++ "\n").length⟩]) ∧
        tokenize ("\t " ++ t ++ "\n" ++ ";" ++ " ") = .ok (ts.map (Token.shift 2) ++
          [⟨.operator, ";", ("\t " ++ t ++ "\n").length⟩,
            ⟨.stop, "", ("\t " ++ t ++ "\n" ++ ";" ++ " ").length⟩]) := by
  have hopen : ∀ t ∈ pointLast, endsInPoint (K := Float) 0 t.toList = false := by decide +kernel
  have hall : (["\t ", "\n", " "].all fun ws => ws.toList.all isBlank) = true := by decide +kernel
  have hblanks : ∀ ws ∈ ["\t ", "\n", " "], ∀ c ∈ ws.toList, isBlank c = true :=
    fun ws hws => List.all_eq_true.1 (List.all_eq_true.1 hall ws hws)
  have hread : ∀ t ∈ pointLast, (tokenize (K := Float) t).toOption.isSome = true := by
    decide +kernel
  refine ⟨hopen, hblanks, fun t ht => ?_⟩
  obtain hts | ⟨⟨e, hfails⟩, -⟩ := tokenize_blanks_around (v := "\t ") (w := "\n") (u := " ")
    (hopen t ht) (hblanks _ (by simp)) (hblanks _ (by simp)) (hblanks _ (by simp))
  · exact hts
  · have hsome := hread t ht
    rw [hfails] at hsome
    cases hsome

/-- A number with a point at the end of a text is two tokens, and one token if a blank follows. -/
theorem point_at_end_read_apart :
    (tokenize (K := Float) "1.").toOption.map (List.map (·.literal)) = some ["1", ".", ""] ∧
      (tokenize (K := Float) "1. ").toOption.map (List.map (·.literal)) = some ["1.", ""] := by
  constructor <;> rfl

end LinearModel
