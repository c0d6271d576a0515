import SearchQuery.Reader.Literal
import SearchQuery.Term.Range

/-!
Ranges. A comparison is followed by its value at once; inside the brackets of an interval space is
allowed at both ends and required on both sides of the word TO.
-/

namespace SearchQuery

/-- Reads one side of a range. -/
def Side.reader : Reader Side :=
  Choice.read
    [⟨[.quote], Literal.phraseReader.map .literal⟩,
      ⟨Literal.bareKinds, Literal.bareReader.map Side.ofBare⟩]

/-- Takes the symbol of a comparison. -/
def Comparison.reader : Reader Comparison where
  run ts :=
    (Token.expect [.comparison] ts).andThen fun t rest =>
      match Comparison.ofSymbol? t.text with
      | some op => .ok (op, rest)
      | none => .error (.badComparison ts)
  shorter h := by
    simp only [Outcome.andThen_eq_ok_iff] at h
    obtain ⟨t, mid, hexpect, h⟩ := h
    split at h
    · cases h
      exact Token.length_lt_of_expect hexpect
    · cases h

/-- Reads a comparison with a value. -/
def Range.comparisonReader : Reader Range where
  run ts := (Comparison.reader.run ts).andThen fun op ts =>
    (Side.reader.run ts).map (Range.comparison op)
  shorter h := by
    simp only [Outcome.andThen_eq_ok_iff, Outcome.map_eq_ok_iff] at h
    obtain ⟨_, _, hop, _, hside, _⟩ := h
    exact Nat.lt_trans (Side.reader.shorter hside) (Comparison.reader.shorter hop)

namespace Interval

/-- Passes over space, of which there has to be some. -/
def requireSpace (ts : List Token) : Outcome Unit :=
  if Token.startsWithSpace ts then .ok ((), Token.skipSpace ts)
  else .error (.unexpected ts [.blank])

/-- Passes over the word between the two sides and the space around it. -/
def separator (ts : List Token) : Outcome Unit :=
  (requireSpace ts).andThen fun _ ts =>
    match ts with
    | [] => .error (.unexpected [] [.word])
    | t :: rest => if t.isWord ["TO"] then requireSpace rest else .error (.unexpected ts [.word])

theorem length_le_of_requireSpace {ts rest : List Token} {u : Unit}
    (h : requireSpace ts = .ok (u, rest)) : rest.length ≤ ts.length := by
  unfold requireSpace at h
  split at h
  · cases h
    exact Token.length_skipSpace_le ts
  · cases h

theorem length_le_of_separator {ts rest : List Token} {u : Unit}
    (h : separator ts = .ok (u, rest)) : rest.length ≤ ts.length := by
  simp only [separator, Outcome.andThen_eq_ok_iff] at h
  obtain ⟨_, mid, hspace, h⟩ := h
  have hmid := length_le_of_requireSpace hspace
  split at h
  · cases h
  · split at h
    · have := length_le_of_requireSpace h
      simp only [List.length_cons] at hmid
      omega
    · cases h

/-- Reads an interval with its brackets. -/
def reader : Reader Interval where
  run ts :=
    (Token.expect [.leftBracket, .leftBrace] ts).andThen fun opening ts =>
      (Side.reader.run (Token.skipSpace ts)).andThen fun left ts =>
        (separator ts).andThen fun _ ts =>
          (Side.reader.run ts).andThen fun right ts =>
            (Token.expect [.rightBracket, .rightBrace] (Token.skipSpace ts)).map fun closing =>
              ⟨opening.kind == .leftBracket, left, right, closing.kind == .rightBracket⟩
  shorter h := by
    simp only [Outcome.andThen_eq_ok_iff, Outcome.map_eq_ok_iff] at h
    obtain ⟨_, ts₁, hopen, _, ts₂, hleft, _, ts₃, hsep, _, ts₄, hright, _, hclose, _⟩ := h
    have h₁ := Token.length_lt_of_expect hopen
    have h₂ := Side.reader.shorter hleft
    have h₃ := length_le_of_separator hsep
    have h₄ := Side.reader.shorter hright
    have h₅ := Token.length_lt_of_expect hclose
    have h₆ := Token.length_skipSpace_le ts₁
    have h₇ := Token.length_skipSpace_le ts₄
    omega

end Interval

/-- The two forms of ranges. -/
def Range.choices : List (Choice Range) :=
  [⟨[.comparison], Range.comparisonReader⟩,
    ⟨[.leftBracket, .leftBrace], Interval.reader.map .interval⟩]

end SearchQuery
