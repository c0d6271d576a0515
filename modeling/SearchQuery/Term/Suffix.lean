import SearchQuery.Number.Decimal
import SearchQuery.Number.Integer

/-!
Suffixes of terms: a caret with an optional weight, and a tilde with an optional edit distance.
Both keep the digits as written.
-/

namespace SearchQuery

/-- A caret and the weight written after it, if any. -/
structure Boost where
  magnitude : Option String
deriving DecidableEq, Repr, Inhabited

namespace Boost

/-- The weight of an absent term. -/
def absentWeight : Float := 0.0

/-- The weight of a term without a readable magnitude. -/
def defaultWeight : Float := 1.0

/-- The weight that a suffix gives to its term. -/
def weight (b : Boost) : Float :=
  ((b.magnitude.bind Decimal.read?).map Decimal.toFloat).getD defaultWeight

def render (b : Boost) : String :=
  "^" ++ b.magnitude.getD ""

/-- The text of a suffix that may be missing. -/
def renderOption (b : Option Boost) : String :=
  (b.map render).getD ""

/-- The weight given by a suffix that may be missing. -/
def weightOption (b : Option Boost) : Float :=
  (b.map weight).getD defaultWeight

/-- Compares two weights; one that is no number compares with none. -/
def compareWeights? (a b : Float) : Option Ordering :=
  if a < b then some .lt else if a == b then some .eq else if b < a then some .gt else none

end Boost

/-- A tilde and the edit distance written after it, if any. -/
structure Fuzzy where
  distance : Option String
deriving DecidableEq, Repr, Inhabited

namespace Fuzzy

/-- The edit distance of a term without a tilde. -/
def noDistance : Int := 0

/-- The distance of a bare tilde, which leaves the choice to the search engine. -/
def autoDistance : Int := -1

/-- The largest distance, and the distance of every text that is not a 32-bit integer. -/
def maxDistance : Int := 2147483647

/-- The edit distance that a suffix allows. -/
def value (f : Fuzzy) : Int :=
  match f.distance with
  | none => autoDistance
  | some digits =>
      match Integer.read 32 digits with
      | .ok n => n
      | .error _ => maxDistance

def isAuto (distance : Int) : Bool :=
  distance == autoDistance

def render (f : Fuzzy) : String :=
  "~" ++ f.distance.getD ""

end Fuzzy

/-- The suffix of a literal, of which there is at most one. -/
inductive Suffix where
  | fuzzy (f : Fuzzy)
  | boost (b : Boost)
deriving DecidableEq, Repr, Inhabited

def Suffix.render : Suffix → String
  | fuzzy f => f.render
  | boost b => b.render

end SearchQuery
