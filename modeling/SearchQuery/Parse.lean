import SearchQuery.Parser.Query

/-!
Whole texts as queries and as terms. A text is split into tokens to its end before any of them is
read.
-/

namespace SearchQuery

open Token (Kind)

namespace Parser

/-- Reads all the tokens from the cursor on, with space allowed at both ends. Where tokens are left
over, the kinds in `after` were expected instead. -/
def whole {α : Type} (read : (p : Parser) → Step α p.left) (after : List Kind) (p : Parser) :
    Except Halt α := do
  let found ← read p.skipSpace.2
  found.after.skipSpace.2.finish after
  return found.value

def query (p : Parser) : Step Query p.left :=
  formula (fun q _ => q.clause) p (Nat.lt_succ_self _)

end Parser

namespace Query

/-- The text as a query with at most `limit` open parentheses, or what stops the parser. -/
def runWithin (limit : Nat) (s : String) : Except Halt Query := do
  ((← Parser.new s).withLimit limit).whole Parser.query [.blank, .word, .ampersand, .bar, .bang]

/-- The text as a query with at most `limit` open parentheses. -/
def parseWithin (limit : Nat) (s : String) : Except Error Query :=
  guarded (runWithin limit s)

/-- The text as a query. -/
def parse (s : String) : Except Error Query :=
  parseWithin defaultLimit s

end Query

namespace Term

/-- The text as a single term with at most `limit` open parentheses, or what stops the parser. -/
def runWithin (limit : Nat) (s : String) : Except Halt Term := do
  ((← Parser.new s).withLimit limit).whole Parser.term [.blank]

/-- The text as a single term with at most `limit` open parentheses. -/
def parseWithin (limit : Nat) (s : String) : Except Error Term :=
  guarded (runWithin limit s)

/-- The text as a single term. -/
def parse (s : String) : Except Error Term :=
  parseWithin defaultLimit s

end Term

example : (Query.parse "!(x:1 && y:2) or z:[1 TO  5\x7d^2").toOption.map Query.render =
    some "NOT ( x:1 AND y:2 ) OR z:[1 TO 5\x7d^2" := by decide +kernel

-- Space joins two operands only if the second is negated.
example : (Query.parse "x:1 NOT y:2").toOption.map Query.render = some "x:1 NOT y:2" ∧
    (Query.parse "x:1 y:2").toOption = none := by decide +kernel

-- A keyword with nothing to apply to is a word, and a lone star leaves its side unbounded.
example : (Term.parse "(a OR NOT)").toOption.map Term.render = some "( a OR NOT )" ∧
    (Term.parse ">=*").toOption =
      some (.range (.comparison .ge .unbounded) none) := by decide +kernel

end SearchQuery
