import LinearModel.Script
import LinearModel.Proofs.Lexing

/-!
# Splitting and joining

Statements that close their quotes and brackets can be joined with semicolons, and splitting the
text gives them back, also if they stand in a block of constraints. Whether a semicolon or brace
divides a text depends on how deep it is nested, so all conditions on a statement are about the
nesting of its beginnings.
-/
namespace LinearModel.Script

open Text

/-! ## Nesting -/

/-- Whether a place stands outside quotes, in quotes, or in quotes after a backslash. -/
inductive Mode where
  | code
  | text
  | escape
  deriving DecidableEq

/-- How deep a place is nested: in quotes, in braces and in round brackets. -/
structure Level where
  mode : Mode := .code
  braces : Int := 0
  brackets : Int := 0
  deriving DecidableEq

/-- The nesting after one more character. Brackets in quotes do not count. -/
def Level.step (l : Level) (c : Char) : Level :=
  match l.mode with
  | .escape => { l with mode := .text }
  | .text =>
    if c = '\\' then { l with mode := .escape }
    else if c = '"' then { l with mode := .code }
    else l
  | .code =>
    if c = '"' then { l with mode := .text }
    else if c = '(' then { l with brackets := l.brackets + 1 }
    else if c = ')' then { l with brackets := l.brackets - 1 }
    else if c = '\x7b' then { l with braces := l.braces + 1 }
    else if c = '\x7d' then { l with braces := l.braces - 1 }
    else l

/-- The nesting at the end of a text. -/
def level (cs : List Char) : Level := cs.foldl Level.step {}

theorem level_concat (p : List Char) (c : Char) : level (p ++ [c]) = (level p).step c := by
  simp [level]

theorem level_escaped {p : List Char} (hp : (level p).mode = .text) (c : Char) :
    level (p ++ ['\\', c]) = level p := by
  rw [List.append_cons, level_concat, level_concat]
  generalize level p = l at hp ⊢
  cases l
  cases hp
  rfl

theorem Level.eq_zero {l : Level} (hmode : l.mode = .code) (hbraces : l.braces = 0)
    (hbrackets : l.brackets = 0) : l = {} := by
  cases l
  simp_all

/-- A text that is trimmed, closes its quotes and brackets, and holds no comment and no semicolon
that divides it. If it opens with a block word, it ends where an outermost brace outside round
brackets is closed. -/
@[mk_iff]
structure IsWhole (t : List Char) : Prop where
  nonempty : t ≠ []
  trimmed : trim t = t
  closed : level t = {}
  balanced : ∀ n < t.length, 0 ≤ (level (t.take (n + 1))).braces ∧
    0 ≤ (level (t.take (n + 1))).brackets
  uncommented : ∀ n < t.length, (level (t.take n)).mode = .code → t[n]? = some '/' →
    t[n + 1]? ≠ some '/' ∧ t[n + 1]? ≠ some '*'
  undivided : ∀ n < t.length, t[n]? = some ';' → level (t.take n) ≠ {}
  oneBody : leadingWord t ∈ blockWords → ∀ n < t.length, (level (t.take n)).mode = .code →
    t[n]? = some '\x7d' → level (t.take (n + 1)) = {} → n + 1 = t.length

/-- A statement that can be joined with others: it does not open a block of constraints either. -/
@[mk_iff]
structure IsStatement (t : List Char) : Prop extends IsWhole t where
  opensNoBlock : ∀ n < t.length, opensConstraints (t.take (n + 1)) = false

set_option synthInstance.maxSize 512 in
instance : DecidablePred IsWhole := fun t => decidable_of_iff' _ (isWhole_iff t)

instance : DecidablePred IsStatement := fun t => decidable_of_iff' _ (isStatement_iff t)

/-- A character of a text, and the beginnings before and after it. -/
theorem parts_at {t p q : List Char} {c : Char} (h : p ++ c :: q = t) : p.length < t.length ∧
    t[p.length]? = some c ∧ t.take p.length = p ∧ t.take (p.length + 1) = p ++ [c] := by
  subst h
  refine ⟨by simp, by simp, by simp, ?_⟩
  rw [List.append_cons, List.take_left' (by simp)]

section Walk

variable {t : List Char} {motive : List Char → List Char → Prop} (ht : (level t).mode = .code)
  (done : motive t [])
  (code : ∀ p c q, p ++ c :: q = t → (level p).mode = .code → motive (p ++ [c]) q →
    motive p (c :: q))
  (text : ∀ p c q, (level p).mode = .text → c ≠ '\\' → motive (p ++ [c]) q → motive p (c :: q))
  (escape : ∀ p c q, (level p).mode = .text → motive (p ++ ['\\', c]) q →
    motive p ('\\' :: c :: q))

include ht done code text escape

/-- To go through a text, go on by a character outside quotes, by a character in quotes, or by a
backslash in quotes and the character after it. -/
theorem level_walk : ∀ (q p : List Char), p ++ q = t → (level p).mode ≠ .escape → motive p q
  | [], p, hpq, _ => by
    rw [List.append_nil] at hpq
    exact hpq ▸ done
  | c :: q, p, hpq, hp => by
    have hnext := level_walk q (p ++ [c]) (by simpa using hpq)
    rw [level_concat] at hnext
    cases hmode : (level p).mode with
    | escape => exact absurd hmode hp
    | code =>
      refine code p c q hpq hmode (hnext ?_)
      simp only [Level.step, hmode]
      split_ifs <;> simp [hmode]
    | text =>
      by_cases hc : c = '\\'
      · subst hc
        cases q with
        | nil =>
          -- quotes are closed, so a backslash in them is not at the end
          rw [← hpq, level_concat] at ht
          simp [Level.step, hmode] at ht
        | cons d q =>
          refine escape p d q hmode (level_walk q (p ++ ['\\', d]) (by simpa using hpq) ?_)
          simp [level_escaped hmode, hmode]
      · refine text p c q hmode hc (hnext ?_)
        simp only [Level.step, hmode, hc, if_false]
        split_ifs <;> simp [hmode]
  termination_by q => q.length

end Walk

/-! ## Comments -/

/-- A semicolon comes next, or nothing. -/
abbrev Ends (rest : List Char) : Prop := ∀ c ∈ rest.head?, c = ';'

/-- Where the removal of comments stands after a text without comments. -/
def commentState (p : List Char) : CommentState :=
  if (level p).mode = .code then .code else .text

theorem stripFrom_code_cons {c : Char} {cs : List Char} (hquote : c ≠ '"')
    (hslash : c = '/' → ∀ d ∈ cs.head?, d ≠ '/' ∧ d ≠ '*') :
    stripFrom .code (c :: cs) = c :: stripFrom .code cs := by
  rw [stripFrom.eq_def]
  split <;> simp_all

theorem stripFrom_text_cons {c : Char} {cs : List Char} (hquote : c ≠ '"') (hescape : c ≠ '\\') :
    stripFrom .text (c :: cs) = c :: stripFrom .text cs := by
  rw [stripFrom.eq_def]
  split <;> simp_all

/-- A statement holds no comments, and none begins where it ends. -/
theorem stripFrom_statement {t rest : List Char} (ht : IsStatement t) (hrest : Ends rest) :
    stripFrom .code (t ++ rest) = t ++ stripFrom .code rest := by
  refine level_walk (t := t)
    (motive := fun p q => stripFrom (commentState p) (q ++ rest) = q ++ stripFrom .code rest)
    (by rw [ht.closed]) ?_ (fun p c q hpq hp ih => ?_) (fun p c q hp hc ih => ?_)
    (fun p c q hp ih => ?_) t [] rfl (by decide)
  · simp [commentState, ht.closed]
  · rw [commentState, hp, if_pos rfl, List.cons_append, List.cons_append, ← ih, commentState,
      level_concat]
    by_cases hquote : c = '"'
    · subst hquote
      simp [stripFrom, Level.step, hp]
    · have hcode : ((level p).step c).mode = .code := by
        simp only [Level.step, hp, hquote, if_false]
        split_ifs <;> simp [hp]
      rw [hcode, if_pos rfl]
      refine stripFrom_code_cons hquote fun hslash d hd => ?_
      subst hslash
      cases q with
      | nil => simp [hrest d hd]
      | cons e q =>
        obtain rfl : e = d := by simpa using hd
        obtain ⟨hlt, hc, htake, -⟩ := parts_at hpq
        have hnext : t[p.length + 1]? = some e := by simp [← hpq]
        simpa [hnext] using ht.uncommented _ hlt (by rwa [htake]) hc
  · have hstate : commentState p = .text := by simp [commentState, hp]
    rw [hstate, List.cons_append, List.cons_append, ← ih, commentState, level_concat]
    by_cases hquote : c = '"'
    · subst hquote
      simp [stripFrom, Level.step, hp]
    · simp [stripFrom_text_cons hquote hc, Level.step, hp, hquote, hc]
  · have hstate : commentState p = .text := by simp [commentState, hp]
    rw [commentState, level_escaped hp, ← commentState, hstate] at ih
    rw [hstate, List.cons_append, List.cons_append, List.cons_append, List.cons_append, ← ih]
    rfl

/-! ## Blocks -/

/-- The word at the front ends where a character that is none of a word follows. -/
theorem leadingWord_append {a : List Char} (ha : a ≠ []) {d : Char} (hd : isWordChar d = false)
    (u : List Char) : leadingWord (a ++ d :: u) = leadingWord a := by
  obtain ⟨c, cs, rfl⟩ := List.exists_cons_of_ne_nil ha
  simp only [leadingWord, List.cons_append]
  rw [← List.cons_append, Lexer.takeWhile_append_of_neg hd]

section Beginnings

variable {t p q : List Char} {c : Char}

theorem trimStart_of_trimmed (ht : trim t = t) (hp : p <+: t) : trimStart p = p := by
  obtain _ | ⟨d, p⟩ := p
  · rfl
  obtain ⟨u, rfl⟩ := hp
  have hd : isBlank d = false := by
    rw [Bool.eq_false_iff]
    intro hblank
    have hlength := congrArg List.length ht
    have hshort := List.length_dropWhile_le isBlank (p ++ u)
    have hshorter := List.length_dropWhile_le isBlank ((p ++ u).dropWhile isBlank).reverse
    simp only [trim, trimEnd, trimStart, List.cons_append, List.dropWhile_cons, hblank, if_true,
      List.length_reverse, List.length_cons] at hlength hshorter
    omega
  simp [trimStart, hd]

/-- A beginning of a trimmed text that ends in no blank is trimmed. -/
theorem trim_concat (ht : trim t = t) (hpq : p ++ c :: q = t) (hc : isBlank c = false) :
    trim (p ++ [c]) = p ++ [c] := by
  rw [trim, trimStart_of_trimmed ht ⟨q, by simpa using hpq⟩]
  simp [trimEnd, hc]

/-- A beginning of a statement that a brace follows is a block statement if the whole is one. -/
theorem isBlockStatement_of_closed (ht : trim t = t) (hpq : p ++ '\x7d' :: q = t)
    (h : isBlockStatement p = true) : leadingWord t ∈ blockWords := by
  have hp : trimEnd p ++ (p.reverse.takeWhile isBlank).reverse = p := by
    rw [trimEnd, ← List.reverse_append, List.takeWhile_append_dropWhile, List.reverse_reverse]
  rw [isBlockStatement, trim, trimStart_of_trimmed ht ⟨_, hpq⟩, List.contains_iff_mem] at h
  have hne : trimEnd p ≠ [] := fun hnil => by
    rw [hnil] at h
    revert h
    decide
  -- blanks or the brace follow the word, and none of them continues it
  have hsplit : trimEnd p ++ ((p.reverse.takeWhile isBlank).reverse ++ '\x7d' :: q) = t := by
    rw [← List.append_assoc, hp, hpq]
  obtain ⟨d, u, hd, hdu⟩ : ∃ d u, Lexer.isSeparator d = true ∧ trimEnd p ++ d :: u = t := by
    cases hblanks : (p.reverse.takeWhile isBlank).reverse with
    | nil => exact ⟨_, _, by decide, hblanks ▸ hsplit⟩
    | cons d ds =>
      refine ⟨d, _, Lexer.isSeparator_of_isBlank ?_, hblanks ▸ hsplit⟩
      have hmem : d ∈ p.reverse.takeWhile isBlank := by
        rw [← List.mem_reverse, hblanks]
        exact List.mem_cons_self
      exact List.mem_takeWhile_imp hmem
  rwa [← hdu, leadingWord_append hne (Lexer.not_isWordChar_of_isSeparator hd)]

end Beginnings

/-! ## Statements -/

/-- Where splitting stands after the beginning of a statement. -/
def SplitState.after (p : List Char) (blocks : Nat) : SplitState where
  pending := p.reverse
  braces := (level p).braces
  brackets := (level p).brackets
  blocks := blocks
  inText := (level p).mode = .text

section Steps

variable {p cs : List Char} {c : Char} {blocks : Nat}

theorem splitFrom_text (hp : (level p).mode = .text) (hc : c ≠ '\\') :
    splitFrom (.after p blocks) (c :: cs) = splitFrom (.after (p ++ [c]) blocks) cs := by
  have hafter : SplitState.after (p ++ [c]) blocks =
      { (SplitState.after p blocks).push c with inText := c != '"' } := by
    by_cases hquote : c = '"' <;>
      simp [SplitState.after, SplitState.push, level_concat, Level.step, hp, hc, hquote]
  have htext : (SplitState.after p blocks).inText = true := by simp [SplitState.after, hp]
  rw [hafter, splitFrom.eq_def]
  split <;> simp_all

theorem splitFrom_escape (hp : (level p).mode = .text) :
    splitFrom (.after p blocks) ('\\' :: c :: cs) =
      splitFrom (.after (p ++ ['\\', c]) blocks) cs := by
  have hafter : SplitState.after (p ++ ['\\', c]) blocks =
      ((SplitState.after p blocks).push '\\').push c := by
    simp [SplitState.after, SplitState.push, level_escaped hp]
  have htext : (SplitState.after p blocks).inText = true := by simp [SplitState.after, hp]
  rw [hafter, splitFrom, if_pos htext]

/-- A character outside quotes that neither opens nor closes a block and divides nothing. -/
theorem splitFrom_code (hp : (level p).mode = .code)
    (hopen : c = '\x7b' → opensConstraints (trim (p ++ [c])) = false)
    (hclose : c = '\x7d' → 0 < (level p).braces ∧
      (level (p ++ [c]) = {} → isBlockStatement p = false))
    (hsemicolon : c = ';' → (level p).braces = 0 → (level p).brackets ≠ 0) :
    splitFrom (.after p blocks) (c :: cs) = splitFrom (.after (p ++ [c]) blocks) cs := by
  have hcode : (SplitState.after p blocks).inText = false := by simp [SplitState.after, hp]
  rw [splitFrom.eq_def]
  split
  · rename_i h
    cases h
  · rename_i h
    cases h
    simp [SplitState.after, SplitState.push, level_concat, Level.step, hp]
  · rename_i h
    cases h
    split_ifs
    all_goals
      simp_all [SplitState.after, SplitState.push, SplitState.statement, level_concat, Level.step]

/-- A brace that closes the body of a block statement ends it. -/
theorem splitFrom_body (hp : (level p).mode = .code)
    (hlevel : level (p ++ ['\x7d']) = {}) (hblock : isBlockStatement p = true) :
    splitFrom (.after p blocks) ('\x7d' :: cs) =
      (SplitState.after (p ++ ['\x7d']) blocks).emit (splitFrom { blocks } cs) := by
  have hbefore : level p = { braces := 1 } := by
    rw [level_concat] at hlevel
    generalize level p = l at hp hlevel ⊢
    cases l
    simp_all [Level.step]
    omega
  simp [splitFrom, SplitState.after, SplitState.push, SplitState.clear, hbefore, hlevel, hblock]

end Steps

theorem splitFrom_semicolon (blocks : Nat) (cs : List Char) :
    splitFrom { blocks } (';' :: cs) = splitFrom { blocks } cs := by
  simp [splitFrom, SplitState.emit, SplitState.statement, SplitState.clear]

/-- A statement is split off, whatever follows it. -/
theorem splitFrom_statement {t rest : List Char} (ht : IsStatement t) (hrest : Ends rest)
    (blocks : Nat) : splitFrom { blocks } (t ++ rest) = t :: splitFrom { blocks } rest := by
  have hemit : ∀ ts, (SplitState.after t blocks).emit ts = t :: ts := fun ts => by
    simp [SplitState.emit, SplitState.statement, SplitState.after, ht.trimmed, ht.nonempty]
  refine level_walk (t := t)
    (motive := fun p q => splitFrom (.after p blocks) (q ++ rest) = t :: splitFrom { blocks } rest)
    (by rw [ht.closed]) ?_ (fun p c q hpq hp ih => ?_) (fun p c q hp hc ih => ?_)
    (fun p c q hp ih => ?_) t [] rfl (by decide)
  · have hafter : SplitState.after t blocks = { pending := t.reverse, blocks } := by
      simp [SplitState.after, ht.closed]
    cases rest with
    | nil =>
      rw [List.append_nil, splitFrom, hemit]
      rfl
    | cons c cs =>
      obtain rfl := hrest c rfl
      rw [splitFrom_semicolon, ← hemit, List.nil_append, hafter]
      simp [splitFrom, SplitState.clear]
  · rw [List.cons_append]
    obtain ⟨hlt, hchar, htake, htake'⟩ := parts_at hpq
    by_cases hbody : c = '\x7d' ∧ level (p ++ [c]) = {} ∧ isBlockStatement p = true
    · obtain ⟨rfl, hlevel, hblock⟩ := hbody
      have hend := ht.oneBody (isBlockStatement_of_closed ht.trimmed hpq hblock) _ hlt
        (by rwa [htake]) hchar (by rwa [htake'])
      obtain rfl : q = [] := by simpa [← hpq] using hend
      rw [splitFrom_body hp hlevel hblock, hpq, hemit, List.nil_append]
    · rw [splitFrom_code hp (fun hc => ?_) (fun hc => ⟨?_, fun hlevel => ?_⟩) (fun hc => ?_), ih]
      · subst hc
        rw [trim_concat ht.trimmed hpq (by decide), ← htake']
        exact ht.opensNoBlock _ hlt
      · subst hc
        have hbraces := (ht.balanced _ hlt).1
        rw [htake', level_concat] at hbraces
        simp only [Level.step, hp] at hbraces
        simp at hbraces
        omega
      · rw [Bool.eq_false_iff]
        exact fun hblock => hbody ⟨hc, hlevel, hblock⟩
      · subst hc
        intro hbraces hbrackets
        refine ht.undivided _ hlt hchar ?_
        rw [htake]
        exact Level.eq_zero hp hbraces hbrackets
  · rw [List.cons_append, splitFrom_text hp hc, ih]
  · rw [List.cons_append, List.cons_append, splitFrom_escape hp, ih]

/-! ## Joined statements -/

theorem split_joined {ts : List (List Char)} (hts : ∀ t ∈ ts, IsStatement t) {rest : List Char}
    (hrest : Ends rest) (hstrip : stripFrom .code rest = rest) (blocks : Nat) :
    splitFrom { blocks } (stripFrom .code ([';'].intercalate ts ++ rest)) =
      ts ++ splitFrom { blocks } rest := by
  induction ts with
  | nil => exact congrArg _ hstrip
  | cons t ts ih =>
    obtain ⟨ht, hts⟩ := List.forall_mem_cons.1 hts
    cases ts with
    | nil =>
      rw [List.intercalate_singleton, stripFrom_statement ht hrest, hstrip,
        splitFrom_statement ht hrest]
      rfl
    | cons u ts =>
      rw [List.intercalate_cons_cons, List.append_assoc, List.append_assoc,
        stripFrom_statement ht (by simp [Ends]), List.singleton_append,
        stripFrom_code_cons (by decide) (by simp), splitFrom_statement ht (by simp [Ends]),
        splitFrom_semicolon, ih hts]
      rfl

/-- Splitting gives back the statements that a model was joined from, with a semicolon between any
two of them, and also if they stand in a block of constraints. -/
theorem splitStatements_joined (ts : List String) (h : ∀ t ∈ ts, IsStatement t.toList) :
    splitStatements (";".intercalate ts) = ts ∧
      splitStatements ("subject to \x7b" ++ ";".intercalate ts ++ ";\x7d") = ts := by
  have hts : ∀ t ∈ ts.map String.toList, IsStatement t := by simpa using h
  have hback : (ts.map String.toList ++ []).map String.ofList = ts := by simp [Function.comp_def]
  have hjoined : (";".intercalate ts).toList = [';'].intercalate (ts.map String.toList) :=
    String.toList_intercalate
  have hplain := split_joined hts (show Ends [] by simp [Ends]) rfl 0
  have hblock := split_joined hts (show Ends ";\x7d".toList by simp [Ends]) rfl 1
  rw [List.append_nil] at hplain
  simp only [splitStatements, splitStripped, stripComments, String.toList_append, hjoined,
    List.append_assoc]
  exact ⟨(congrArg _ hplain).trans hback, (congrArg _ hblock).trans hback⟩

/-- Statements with a semicolon and what looks like a comment in quotes, with braces in round
brackets, and with bodies. -/
def tryingStatements : List String :=
  ["string s = \"a;\\\" // \"", "tuple T \x7bint a; float b;\x7d",
    "forall(i in \x7b1, 2\x7d) \x7bx[i] >= 1; x[i] <= 2;\x7d", "c: x >= 1 / 2"]

theorem splitStatements_joined_trying :
    (∀ t ∈ tryingStatements, IsStatement t.toList) ∧
      splitStatements (";".intercalate tryingStatements) = tryingStatements := by
  have h : ∀ t ∈ tryingStatements, IsStatement t.toList := by decide +kernel
  exact ⟨h, (splitStatements_joined _ h).1⟩

/-- A block of constraints without a blank before the brace. -/
def unspacedBlock : String := "subject to\x7bx\x7d"

/-- A statement opens a block of constraints also without a blank before the brace. -/
theorem unspacedBlock_split : IsWhole unspacedBlock.toList ∧
    ¬ "subject to \x7b".toList <+: unspacedBlock.toList ∧
    ¬ "constraints \x7b".toList <+: unspacedBlock.toList ∧
    splitStatements (";".intercalate [unspacedBlock]) = ["x"] := by
  decide +kernel

end LinearModel.Script
