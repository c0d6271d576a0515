import SearchQuery.Reader.Basic
import SearchQuery.Term.Suffix
import SearchQuery.Term.Literal

/-!
Literals and the suffixes that may follow a term.
-/

namespace SearchQuery

open Token (Kind)

namespace Literal

/-- Reads the longest bare literal. -/
def bareReader : Reader Literal where
  run ts :=
    if Token.startsWith bareKinds ts then
      .ok (.bare (Token.spanKinds bareKinds ts).1, (Token.spanKinds bareKinds ts).2)
    else .error (.unexpected ts bareKinds)
  shorter h := by
    split at h
    · next hstart =>
        cases h
        exact Token.length_spanKinds_lt hstart
    · cases h

end Literal

/-- Reads the tokens between two tokens of one kind. -/
def Reader.between (delimiter : Kind) : Reader (List Token) where
  run ts := (Token.expect [delimiter] ts).andThen fun _ ts => Token.takeUntil delimiter ts
  shorter h := by
    simp only [Outcome.andThen_eq_ok_iff] at h
    obtain ⟨_, mid, hopen, hclose⟩ := h
    exact Nat.lt_trans (Token.length_lt_of_takeUntil hclose) (Token.length_lt_of_expect hopen)

/-- Reads a phrase with its quotes. -/
def Literal.phraseReader : Reader Literal :=
  (Reader.between .quote).map .phrase

/-- Takes the magnitude after a caret: a number, and the fraction of a number if digits follow its
point. -/
def Boost.takeMagnitude : List Token → Option String × List Token
  | ⟨.number, whole⟩ :: ⟨.dot, _⟩ :: ⟨.number, fraction⟩ :: rest =>
      (some (whole ++ "." ++ fraction), rest)
  | ⟨.number, whole⟩ :: rest => (some whole, rest)
  | rest => (none, rest)

/-- Takes a caret and its magnitude, if they come next. -/
def Boost.take : List Token → Option Boost × List Token
  | ⟨.caret, _⟩ :: rest => (takeMagnitude rest).map (fun m => some ⟨m⟩) id
  | rest => (none, rest)

/-- Takes the distance after a tilde. -/
def Fuzzy.takeDistance : List Token → Option String × List Token
  | ⟨.number, digits⟩ :: rest => (some digits, rest)
  | rest => (none, rest)

/-- Takes a tilde or a caret with what belongs to it, if one comes next. -/
def Suffix.take : List Token → Option Suffix × List Token
  | ⟨.tilde, _⟩ :: rest => (Fuzzy.takeDistance rest).map (fun d => some (.fuzzy ⟨d⟩)) id
  | rest => (Boost.take rest).map (Option.map .boost) id

theorem Boost.length_takeMagnitude_le (ts : List Token) :
    (takeMagnitude ts).2.length ≤ ts.length := by
  fun_cases takeMagnitude ts <;> grind

theorem Boost.length_take_le (ts : List Token) : (take ts).2.length ≤ ts.length := by
  fun_cases take ts with
  | case1 text rest => exact Nat.le_succ_of_le (length_takeMagnitude_le rest)
  | case2 => exact Nat.le_refl _

theorem Fuzzy.length_takeDistance_le (ts : List Token) :
    (takeDistance ts).2.length ≤ ts.length := by
  fun_cases takeDistance ts <;> grind

theorem Suffix.length_take_le (ts : List Token) : (take ts).2.length ≤ ts.length := by
  fun_cases take ts with
  | case1 text rest => exact Nat.le_succ_of_le (Fuzzy.length_takeDistance_le rest)
  | case2 => exact Boost.length_take_le ts

namespace Reader

variable {α : Type}

/-- Reads a value and the suffix after it. -/
def withSuffix (r : Reader α) : Reader (α × Option Suffix) :=
  r.andThen (fun a ts => .ok ((a, (Suffix.take ts).1), (Suffix.take ts).2)) fun {_ ts _ _} h => by
    cases h
    exact Suffix.length_take_le ts

/-- Reads a value and the caret after it. -/
def withBoost (r : Reader α) : Reader (α × Option Boost) :=
  r.andThen (fun a ts => .ok ((a, (Boost.take ts).1), (Boost.take ts).2)) fun {_ ts _ _} h => by
    cases h
    exact Boost.length_take_le ts

end Reader

end SearchQuery
