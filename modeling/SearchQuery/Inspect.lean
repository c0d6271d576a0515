import SearchQuery.Error
import SearchQuery.Query
import SearchQuery.Text.Quoted

/-!
Inspection texts: a value written out as nested records, every field by name. They serve to look
at a value as a whole and are not read back.
-/

namespace SearchQuery

namespace Inspect

/-- A record with named fields. -/
def record (name : String) (fields : List (String × String)) : String :=
  name ++ " \x7b " ++ String.intercalate ", " (fields.map fun (k, v) => k ++ ": " ++ v) ++ " \x7d"

/-- A name with one value in parentheses. -/
def tagged (name value : String) : String :=
  name ++ "(" ++ value ++ ")"

def list (items : List String) : String :=
  "[" ++ String.intercalate ", " items ++ "]"

def option : Option String → String
  | none => "None"
  | some s => tagged "Some" s

def bool (b : Bool) : String :=
  if b then "true" else "false"

end Inspect

open Inspect

namespace Token

def inspect (t : Token) : String :=
  record "Token" [("kind", t.kind.name), ("text", Text.quoted t.text)]

def inspectList (ts : List Token) : String :=
  list (ts.map inspect)

def Located.inspect (t : Located) : String :=
  record "PosToken" [("pos", toString t.pos), ("token", t.token.inspect)]

end Token

namespace Error

/-- The one-word name of a cause. -/
def name : Error → String
  | unrecognised .. => "Lexical"
  | unexpected .. => "UnexpectedToken"
  | unexpectedEnd .. => "UnexpectedEnd"
  | tooDeep .. => "TooDeep"
  | internal .. => "Internal"

def inspect (e : Error) : String :=
  match e with
  | unrecognised pos char =>
      record e.name [("pos", toString pos), ("lit", Text.quotedChar char)]
  | unexpected pos found expected =>
      record e.name [("pos", toString pos), ("found", found.kind.name),
        ("text", Text.quoted found.text), ("expected", list (expected.map Token.Kind.name))]
  | unexpectedEnd pos expected =>
      record e.name [("pos", toString pos), ("expected", list (expected.map Token.Kind.name))]
  | tooDeep pos limit => record e.name [("pos", toString pos), ("limit", toString limit)]
  | internal text => tagged e.name (Text.quoted text)

end Error

section Formula

variable {C : Type}

def Operand.inspect (clause : C → String) (o : Operand C) : String :=
  record "Operand" [("not", bool o.negated), ("clause", clause o.clause)]

def Link.inspect (clause : C → String) (l : Link C) : String :=
  record "AndLink" [("explicit", bool l.explicit), ("operand", l.operand.inspect clause)]

def Branch.inspect (clause : C → String) (b : Branch C) : String :=
  record "AndChain"
    [("head", b.head.inspect clause), ("rest", list (b.rest.map (Link.inspect clause)))]

def Formula.inspect (clause : C → String) (e : Formula C) : String :=
  record "BoolExpr"
    [("head", e.head.inspect clause), ("rest", list (e.rest.map (Branch.inspect clause)))]

/-- The text of a clause, given the text of leaves and the names that parentheses go by. -/
def Clause.inspect {α : Type} (leaf : α → String) (parenName subName : String) :
    Clause α → String :=
  fold leaf fun sub => tagged "Paren" (record parenName [(subName, sub.inspect id)])

end Formula

/-! ### Terms -/

def Literal.inspect : Literal → String
  | bare ts => tagged "Single" (tagged "SingleTerm" (Text.quoted (Token.join ts)))
  | phrase ts => tagged "Phrase" (tagged "PhraseTerm" (Text.quoted (Token.join ts)))

def Side.inspect : Side → String
  | unbounded => "Infinity"
  | literal l => l.inspect

def Comparison.name : Comparison → String
  | lt => "Lt"
  | le => "Le"
  | gt => "Gt"
  | ge => "Ge"

namespace Range

/-- The text of a range, given the names that its two forms go by. -/
def inspectAs (comparisonName intervalName : String) : Range → String
  | comparison op value => tagged comparisonName
      (record "SRangeTerm" [("op", op.name), ("value", value.inspect)])
  | interval i => tagged intervalName
      (record "DRangeTerm" [("left_inclusive", bool i.leftClosed), ("left", i.left.inspect),
        ("right", i.right.inspect), ("right_inclusive", bool i.rightClosed)])

end Range

def Bound.inspect (b : Bound) : String :=
  record "Bound" [("left", b.left.inspect), ("right", b.right.inspect),
    ("left_include", bool b.leftIncluded), ("right_include", bool b.rightIncluded)]

def Boost.inspect (b : Boost) : String :=
  record "BoostSuffix" [("magnitude", option (b.magnitude.map Text.quoted))]

def Fuzzy.inspect (f : Fuzzy) : String :=
  record "FuzzySuffix" [("distance", option (f.distance.map Text.quoted))]

def Suffix.inspect : Suffix → String
  | fuzzy f => tagged "Fuzzy" f.inspect
  | boost b => tagged "Boost" b.inspect

def Element.inspect : Element → String
  | literal l => l.inspect
  | range r => r.inspectAs "SRange" "DRange"

def Group.inspect (g : Group) : String :=
  Formula.inspect
    (Clause.inspect (fun e => tagged "Elem" e.inspect) "ParenTermGroup" "sub_group") g

def Term.inspect : Term → String
  | regexp ts => tagged "Regexp" (record "RegexpTerm" [("tokens", Token.inspectList ts)])
  | literal l suffix => tagged "Fuzzy"
      (record "FuzzyTerm"
        [("literal", l.inspect), ("modifier", option (suffix.map Suffix.inspect))])
  | range r boost => tagged "Range"
      (record "RangeTerm"
        [("range", r.inspectAs "Single" "Double"), ("boost", option (boost.map Boost.inspect))])
  | group g boost => tagged "Group"
      (record "TermGroup"
        [("group", g.inspect), ("boost", option (boost.map Boost.inspect))])

/-! ### Queries -/

def FieldClause.inspect (c : FieldClause) : String :=
  record "FieldQuery"
    [("field", record "Field" [("tokens", Token.inspectList c.field.tokens)]),
      ("term", c.term.inspect)]

def Query.inspect (q : Query) : String :=
  Formula.inspect
    (Clause.inspect (fun c => tagged "Field" c.inspect) "ParenQuery" "sub_query") q

end SearchQuery
