import SearchQuery.Term

/-!
Queries: formulas whose clauses give a term for a field.
-/

namespace SearchQuery

/-- A field name as written. -/
structure Field where
  tokens : List Token
deriving DecidableEq, Repr, Inhabited

namespace Field

/-- The kinds that a field name is made of. -/
def nameKinds : List Token.Kind :=
  [.word, .number, .dot, .minus]

def isEmpty (f : Field) : Bool :=
  f.tokens.isEmpty

def name (f : Field) : String :=
  Token.join f.tokens

end Field

structure FieldClause where
  field : Field
  term : Term
deriving DecidableEq, Repr

def FieldClause.render (c : FieldClause) : String :=
  c.field.name ++ ":" ++ c.term.render

abbrev Query := Formula (Clause FieldClause)

namespace Query

/-- The canonical text. -/
def render (q : Query) : String :=
  Formula.render (Clause.render FieldClause.render) q

def shape (q : Query) : Shape :=
  Formula.shape Clause.shape q

/-- The largest number of parentheses around one place, those of groups included. -/
def depth (q : Query) : Nat :=
  q.sup (Clause.depth fun c => c.term.depth)

/-- The text of a query that may be missing. -/
def renderOption (q : Option Query) : String :=
  (q.map render).getD ""

def shapeOption (q : Option Query) : Shape :=
  (q.map shape).getD .absent

end Query

end SearchQuery
