import SearchQuery.Keyword
import SearchQuery.Reader.Basic

/-!
Keywords at the front of a token list. A word is a keyword only if it stands alone and something
follows it that it can apply to, and is an ordinary word otherwise.
-/

namespace SearchQuery

open Token (Kind)

namespace Keyword

/-- Something other than a closing parenthesis comes after the space. -/
def operandFollows (ts : List Token) : Bool :=
  (Token.skipSpace ts).head?.any fun t => t.kind != .rightParen

/-- A word is a keyword in front of these tokens. -/
def appliesTo (ts : List Token) : Bool :=
  !Token.startsWith wordContinuations ts && operandFollows ts

/-- What is left after tokens of exactly the given kinds. -/
def stripKinds? : List Kind → List Token → Option (List Token)
  | [], ts => some ts
  | _ :: _, [] => none
  | k :: ks, t :: ts => if t.kind = k then stripKinds? ks ts else none

/-- What is left after the keyword, if it comes next. -/
def strip? (k : Keyword) (ts : List Token) : Option (List Token) :=
  match ts with
  | [] => none
  | t :: rest =>
      if t.isWord k.words then
        if appliesTo rest then some rest else none
      else stripKinds? k.symbols ts

theorem length_le_of_stripKinds? {kinds : List Kind} {ts rest : List Token}
    (h : stripKinds? kinds ts = some rest) : rest.length ≤ ts.length := by
  fun_induction stripKinds? kinds ts with
  | case1 => simp_all
  | case2 => simp at h
  | case3 ks t ts ih => exact Nat.le_succ_of_le (ih h)
  | case4 => simp at h

theorem length_le_of_strip? {k : Keyword} {ts rest : List Token}
    (h : k.strip? ts = some rest) : rest.length ≤ ts.length := by
  unfold strip? at h
  split at h
  · cases h
  · split at h
    · split at h
      · cases h
        simp
      · cases h
    · exact length_le_of_stripKinds? h

end Keyword

end SearchQuery
