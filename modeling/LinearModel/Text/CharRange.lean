
/-!
# Character ranges

A class of characters is a list of closed ranges of code points. The classes of this library that
reach beyond ASCII are given in this form, each in its own module. The larger ones are written as
the lengths of their ranges and of the gaps between them.
-/
namespace LinearModel.Text

/-- The ranges of a class from a code point on, given the length of a gap and of a range in turn. -/
def rangesFrom (start : Nat) : List Nat → List (Nat × Nat)
  | gap :: length :: rest =>
    (start + gap, start + gap + length - 1) :: rangesFrom (start + gap + length) rest
  | _ => []

/-- Membership in a class given by closed ranges of code points. -/
def inRanges (ranges : List (Nat × Nat)) (c : Char) : Bool :=
  ranges.any fun r => r.1 ≤ c.toNat && c.toNat ≤ r.2

theorem inRanges_iff {ranges : List (Nat × Nat)} {c : Char} :
    inRanges ranges c = true ↔ ∃ r ∈ ranges, r.1 ≤ c.toNat ∧ c.toNat ≤ r.2 := by
  simp [inRanges, List.any_eq_true]

end LinearModel.Text
