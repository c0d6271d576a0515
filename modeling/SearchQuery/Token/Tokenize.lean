import SearchQuery.Token.Scanning

/-!
Splitting a text to its end.
-/

namespace SearchQuery

open Token (Located)

namespace Lexer

theorem pos_lt_of_run_next {l m : Lexer} {t : Located}
    (h : l.run next = (.ok (some (.ok t)), m)) :
    m.input = l.input ∧ l.pos < m.pos ∧ m.pos ≤ Text.size l.input := by
  rw [run_next] at h
  cases hcalled : l.run nextToken with
  | mk found after =>
      rw [hcalled] at h
      obtain (_ | _) | (_ | _) := found <;> cases h
      exact pos_lt_of_run_nextToken hcalled

/-- The tokens that are left, unless an error comes before the end of the text, and the lexer where
it stops. -/
def collect (l : Lexer) : Except Halt (List Located) × Lexer :=
  match h : l.run next with
  | (.ok none, m) => (.ok [], m)
  | (.ok (some (.ok t)), m) =>
      have := pos_lt_of_run_next h
      m.collect.map (Except.map (t :: ·)) id
  | (.ok (some (.error e)), m) => (.error (.error e), m)
  | (.error halt, m) => (.error halt, m)
termination_by Text.size l.input - l.pos
decreasing_by
  obtain ⟨hinput, hlt, hle⟩ := this
  rw [hinput]
  omega

/-- The tokens of a text, or what stops the lexer. -/
def tokens (s : String) : Except Halt (List Located) :=
  (ofString s).collect.1

end Lexer

/-- Splits a text into tokens. -/
def tokenize (s : String) : Except Error (List Located) :=
  guarded (Lexer.tokens s)

example : ((tokenize "x:1\\ 2\n").toOption.map fun ts => ts.map fun t => (t.pos, t.token.text)) =
    some [(0, "x"), (1, ":"), (2, "1"), (3, "\\ "), (5, "2"), (6, "\n")] := by decide +kernel

end SearchQuery
