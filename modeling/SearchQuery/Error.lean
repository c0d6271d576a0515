import SearchQuery.Text.Escape
import SearchQuery.Token

/-!
Why a query text is rejected. Every cause carries what its message shows; positions are byte
offsets into the text.
-/

namespace SearchQuery

inductive Error where
  /-- No token starts with the character at `pos`. -/
  | unrecognised (pos : Nat) (char : Char)
  /-- The token at `pos` stands where only the expected kinds can. -/
  | unexpected (pos : Nat) (found : Token) (expected : List Token.Kind)
  /-- The text ends where one of the expected kinds is required. -/
  | unexpectedEnd (pos : Nat) (expected : List Token.Kind)
  /-- The parenthesis at `pos` would open a level beyond `limit`. -/
  | tooDeep (pos limit : Nat)
  /-- A condition that reading a query text never reaches. -/
  | internal (text : String)
deriving DecidableEq, Repr, Inhabited

namespace Error

/-- An enumeration of kinds: every kind but the last is followed by a comma, and the last of
several by nothing and preceded by "or". -/
def oneOf : List Token.Kind → String
  | [] => "nothing"
  | [only] => only.label
  | kinds => String.join (kinds.dropLast.map fun k => k.label ++ ", ") ++
      "or " ++ ((kinds.getLast?.map Token.Kind.label).getD "")

/-- The text shown to the author of a query. -/
def message : Error → String
  | unrecognised pos char =>
      "unrecognised character '" ++ Text.escape char ++ "' at " ++ toString pos
  | unexpected pos found expected =>
      "unexpected " ++ found.kind.label ++ " '" ++ found.text ++ "' at " ++ toString pos ++
        ", expected " ++ oneOf expected
  | unexpectedEnd pos expected =>
      "unexpected end of query at " ++ toString pos ++ ", expected " ++ oneOf expected
  | tooDeep pos limit =>
      "parentheses nested deeper than " ++ toString limit ++ " at " ++ toString pos
  | internal text => "internal error: " ++ text

example : oneOf [.word, .dot] = "identifier, or '.'" := by decide

end Error

end SearchQuery
