import SearchQuery.Token

/-!
Keywords. Each is written as a word or in symbols.
-/

namespace SearchQuery

open Token (Kind)

inductive Keyword where
  | and
  | or
  | not
deriving DecidableEq, Repr

namespace Keyword

/-- The words that spell a keyword. -/
def words : Keyword → List String
  | and => ["AND", "and"]
  | or => ["OR", "or"]
  | not => ["NOT", "not"]

/-- The symbols that spell a keyword. -/
def symbols : Keyword → List Kind
  | and => [.ampersand, .ampersand]
  | or => [.bar, .bar]
  | not => [.bang]

/-- Kinds that, right after a word, make it part of a field name or of a term. -/
def wordContinuations : List Kind :=
  [.word, .number, .dot, .minus, .wildcard, .colon, .tilde, .caret, .backslash]

end Keyword

end SearchQuery
