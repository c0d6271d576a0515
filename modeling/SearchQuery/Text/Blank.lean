/-!
White space of query texts: the characters with the Unicode property `White_Space`, split into
line ends and all other blanks.
-/

namespace SearchQuery.Text

/-- The code points with the property `White_Space`, as closed intervals in rising order. -/
def blankRanges : List (Nat × Nat) :=
  [(0x09, 0x0D), (0x20, 0x20), (0x85, 0x85), (0xA0, 0xA0), (0x1680, 0x1680), (0x2000, 0x200A),
    (0x2028, 0x2029), (0x202F, 0x202F), (0x205F, 0x205F), (0x3000, 0x3000)]

/-- White space in the sense of Unicode, line ends included. -/
def isBlank (c : Char) : Bool :=
  blankRanges.any fun (low, high) => low ≤ c.toNat && c.toNat ≤ high

/-- A line feed or a carriage return. The other Unicode line separators count as plain blanks. -/
def isLineEnd (c : Char) : Bool :=
  c == '\n' || c == '\r'

theorem isBlank_of_isLineEnd {c : Char} (h : isLineEnd c = true) : isBlank c = true := by
  simp only [isLineEnd, Bool.or_eq_true, beq_iff_eq] at h
  rcases h with rfl | rfl <;> decide

theorem isBlank_of_isWhitespace {c : Char} (h : c.isWhitespace = true) : isBlank c = true := by
  simp only [Char.isWhitespace, Bool.or_eq_true, decide_eq_true_eq] at h
  rcases h with ((rfl | rfl) | rfl) | rfl <;> decide

example : isBlank '\x0c' = true ∧ isBlank '\u00a0' = true ∧ isBlank '\u200b' = false := by decide

end SearchQuery.Text
