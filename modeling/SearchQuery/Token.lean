/-!
Tokens of a query text. A token keeps its text verbatim, escapes included, so that joining the
texts of a run of tokens gives back the source of that run.
-/

namespace SearchQuery

namespace Token

/-- The lexical class of a token. -/
inductive Kind where
  /-- A run of line feeds and carriage returns. -/
  | lineEnd
  /-- A run of other white space. -/
  | blank
  /-- A run of unreserved characters and of characters escaped by a backslash. -/
  | word
  | dot
  /-- A run of ASCII digits. -/
  | number
  | quote
  | slash
  /-- A backslash with nothing left to escape. -/
  | backslash
  | colon
  /-- One of `<`, `<=`, `>` and `>=`. -/
  | comparison
  | plus
  | minus
  | tilde
  | caret
  /-- A star or a question mark. -/
  | wildcard
  | leftParen
  | rightParen
  | leftBracket
  | rightBracket
  | leftBrace
  | rightBrace
  | ampersand
  | bar
  | bang
deriving DecidableEq, Repr, Inhabited

namespace Kind

/-- White space and line ends separate tokens alike. -/
def isSpace : Kind → Bool
  | blank | lineEnd => true
  | _ => false

/-- The wording of a kind in error messages. -/
def label : Kind → String
  | lineEnd => "end of line"
  | blank => "whitespace"
  | word => "identifier"
  | dot => "'.'"
  | number => "number"
  | quote => "'\"'"
  | slash => "'/'"
  | backslash => "'\\'"
  | colon => "':'"
  | comparison => "comparison"
  | plus => "'+'"
  | minus => "'-'"
  | tilde => "'~'"
  | caret => "'^'"
  | wildcard => "wildcard"
  | leftParen => "'('"
  | rightParen => "')'"
  | leftBracket => "'['"
  | rightBracket => "']'"
  | leftBrace => "'\x7b'"
  | rightBrace => "'\x7d'"
  | ampersand => "'&'"
  | bar => "'|'"
  | bang => "'!'"

/-- The one-word name of a kind, as data formats and inspection texts write it. -/
def name : Kind → String
  | lineEnd => "Eol"
  | blank => "Whitespace"
  | word => "Ident"
  | dot => "Dot"
  | number => "Number"
  | quote => "Quote"
  | slash => "Slash"
  | backslash => "Backslash"
  | colon => "Colon"
  | comparison => "Compare"
  | plus => "Plus"
  | minus => "Minus"
  | tilde => "Fuzzy"
  | caret => "Boost"
  | wildcard => "Wildcard"
  | leftParen => "LParen"
  | rightParen => "RParen"
  | leftBracket => "LBracket"
  | rightBracket => "RBracket"
  | leftBrace => "LBrace"
  | rightBrace => "RBrace"
  | ampersand => "And"
  | bar => "Or"
  | bang => "Not"

/-- Every kind, in the order of declaration. -/
def all : List Kind :=
  [lineEnd, blank, word, dot, number, quote, slash, backslash, colon, comparison, plus, minus,
    tilde, caret, wildcard, leftParen, rightParen, leftBracket, rightBracket, leftBrace, rightBrace,
    ampersand, bar, bang]

theorem mem_all (k : Kind) : k ∈ all := by
  cases k <;> decide

/-- The kind with the given one-word name. -/
def ofName? (s : String) : Option Kind :=
  all.find? fun k => k.name == s

theorem ofName?_name (k : Kind) : ofName? k.name = some k := by
  cases k <;> decide

end Kind

end Token

/-- A piece of a query text with its lexical class. -/
structure Token where
  kind : Token.Kind
  text : String
deriving DecidableEq, Repr, Inhabited

namespace Token

/-- A word spelled exactly like one of `spellings`. -/
def isWord (t : Token) (spellings : List String) : Bool :=
  t.kind == .word && spellings.contains t.text

/-- White space or a line end. -/
def isSpace (t : Token) : Bool :=
  t.kind.isSpace

/-- The source text of a run of tokens. -/
def join (ts : List Token) : String :=
  String.join (ts.map text)

/-- The number of bytes that a run of tokens takes in its source. -/
def bytes (ts : List Token) : Nat :=
  ts.foldr (fun t n => t.text.utf8ByteSize + n) 0

/-- The first place at which two lists differ, as far as both go. -/
def firstDifference? (ts us : List Token) : Option Nat :=
  (ts.zip us).findIdx? fun (t, u) => t != u

/-- A token with the offset of its first byte in the source. -/
structure Located where
  pos : Nat
  token : Token
deriving DecidableEq, Repr, Inhabited

end Token

end SearchQuery
