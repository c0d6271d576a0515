import SearchQuery.Term.Flags
import SearchQuery.Token

/-!
Literals: bare runs of tokens, and phrases between quotes. Both keep the tokens as written; the
quotes of a phrase are not among them.
-/

namespace SearchQuery

namespace Token

/-- A wildcard token other than a question mark. -/
def isStar (t : Token) : Bool :=
  t.kind == .wildcard && t.text == "*"

def hasWildcard (ts : List Token) : Bool :=
  ts.any fun t => t.kind == .wildcard

/-- A star, nothing before it but tokens without a wildcard, and at least one of those. -/
def isLeading (ts : List Token) : Bool :=
  !ts.dropLast.isEmpty && ts.getLast?.any isStar && !hasWildcard ts.dropLast

/-- A star and nothing else. -/
def isLoneStar : List Token → Bool
  | [t] => t.isStar
  | _ => false

end Token

inductive Literal where
  | bare (tokens : List Token)
  | phrase (tokens : List Token)
deriving DecidableEq, Repr, Inhabited

namespace Literal

/-- The kinds that a bare literal is made of. -/
def bareKinds : List Token.Kind :=
  [.word, .number, .dot, .minus, .wildcard]

def tokens : Literal → List Token
  | bare ts | phrase ts => ts

/-- The text that stands for the literal's value: escapes included, quotes left out. -/
def text (l : Literal) : String :=
  Token.join l.tokens

/-- The literal as written. -/
def render : Literal → String
  | bare ts => Token.join ts
  | phrase ts => "\"" ++ Token.join ts ++ "\""

def flags : Literal → TermFlags
  | bare ts => .single ||| TermFlags.wildcard.when (Token.hasWildcard ts) |||
      TermFlags.leading.when (Token.isLeading ts)
  | phrase ts => .phrase ||| TermFlags.wildcard.when (Token.hasWildcard ts)

end Literal

end SearchQuery
