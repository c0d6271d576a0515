import SearchQuery.Formula.Clause
import SearchQuery.Term.Range
import SearchQuery.Term.Suffix

/-!
Terms, the right-hand sides of field clauses, and what can be asked about them.
-/

namespace SearchQuery

/-- A term inside a group: without field and without suffix. -/
inductive Element where
  | literal (l : Literal)
  | range (r : Range)
deriving DecidableEq, Repr

/-- The formula inside a group. -/
abbrev Group := Formula (Clause Element)

inductive Term where
  /-- The tokens between two slashes. -/
  | regexp (tokens : List Token)
  | literal (l : Literal) (suffix : Option Suffix)
  | range (r : Range) (boost : Option Boost)
  | group (g : Group) (boost : Option Boost)
deriving DecidableEq, Repr

/-- What can be asked about a term: its class, its weight, its edit distance, and its bound if it
is a range. -/
structure Summary where
  flags : TermFlags
  weight : Float
  distance : Int
  bound? : Option Bound

namespace Summary

/-- The summary of a term that is not there. -/
def absent : Summary :=
  ⟨.unknown, Boost.absentWeight, Fuzzy.noDistance, none⟩

/-- The summary of a piece without suffix. -/
def plain (flags : TermFlags) (bound? : Option Bound) : Summary :=
  ⟨flags, Boost.defaultWeight, Fuzzy.noDistance, bound?⟩

end Summary

def Literal.summary (l : Literal) : Summary :=
  .plain l.flags none

def Range.summary (r : Range) : Summary :=
  .plain .range (some r.bound)

namespace Element

def render : Element → String
  | literal l => l.render
  | range r => r.render

def summary : Element → Summary
  | literal l => l.summary
  | range r => r.summary

end Element

namespace Group

def render (g : Group) : String :=
  Formula.render (Clause.render Element.render) g

def shape (g : Group) : Shape :=
  Formula.shape Clause.shape g

end Group

namespace Term

/-- The canonical text. -/
def render : Term → String
  | regexp ts => "/" ++ Token.join ts ++ "/"
  | literal l suffix => l.render ++ (suffix.map Suffix.render).getD ""
  | range r boost => r.render ++ Boost.renderOption boost
  | group g boost => "( " ++ g.render ++ " )" ++ Boost.renderOption boost

def flags : Term → TermFlags
  | regexp _ => .regexp
  | literal l none => l.flags
  | literal l (some (.fuzzy _)) => l.flags ||| .fuzzy
  | literal l (some (.boost _)) => l.flags ||| .boost
  | range _ boost => .range ||| TermFlags.boost.when boost.isSome
  | group _ boost => .group ||| TermFlags.boost.when boost.isSome

/-- The caret of a term, if it has one. -/
def boost? : Term → Option Boost
  | literal _ (some (.boost b)) => some b
  | range _ boost | group _ boost => boost
  | _ => none

def weight (t : Term) : Float :=
  Boost.weightOption t.boost?

/-- The edit distance that a term allows. -/
def distance : Term → Int
  | literal _ (some (.fuzzy f)) => f.value
  | _ => Fuzzy.noDistance

def bound? : Term → Option Bound
  | range r _ => some r.bound
  | _ => none

def summary (t : Term) : Summary :=
  ⟨t.flags, t.weight, t.distance, t.bound?⟩

/-- The number of parentheses around the innermost element. -/
def depth : Term → Nat
  | group g _ => Clause.depth (fun _ => 0) (.paren g)
  | _ => 0

end Term

/-- The summary of a term that may be missing. -/
def Summary.ofOption (t : Option Term) : Summary :=
  (t.map Term.summary).getD .absent

end SearchQuery
