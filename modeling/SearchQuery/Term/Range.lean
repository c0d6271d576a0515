import SearchQuery.Term.Literal

/-!
Ranges: comparisons with one value, and intervals between two sides. Every range has a `Bound`,
the normal form in which both sides and their inclusion are told.
-/

namespace SearchQuery

/-- One side of a range. -/
inductive Side where
  | unbounded
  | literal (l : Literal)
deriving DecidableEq, Repr, Inhabited

namespace Side

/-- The side that a bare literal stands for: a lone star leaves it unbounded. -/
def ofBare : Literal → Side
  | .bare ts => if Token.isLoneStar ts then .unbounded else .literal (.bare ts)
  | l => .literal l

def isFinite : Side → Bool
  | unbounded => false
  | literal _ => true

def render : Side → String
  | unbounded => "*"
  | literal l => l.render

end Side

inductive Comparison where
  | lt
  | le
  | gt
  | ge
deriving DecidableEq, Repr, Inhabited

namespace Comparison

def symbol : Comparison → String
  | lt => "<"
  | le => "<="
  | gt => ">"
  | ge => ">="

def ofSymbol? (s : String) : Option Comparison :=
  if s = "<" then some lt
  else if s = "<=" then some le
  else if s = ">" then some gt
  else if s = ">=" then some ge
  else none

theorem ofSymbol?_symbol (op : Comparison) : ofSymbol? op.symbol = some op := by
  cases op <;> decide

theorem ofSymbol?_eq_some_iff {s : String} {op : Comparison} :
    ofSymbol? s = some op ↔ s = op.symbol := by
  constructor
  · intro h
    unfold ofSymbol? at h
    grind [Comparison.symbol]
  · rintro rfl
    exact ofSymbol?_symbol op

end Comparison

/-- Two sides in brackets. A square bracket closes its side, a brace leaves it open. -/
structure Interval where
  leftClosed : Bool
  left : Side
  right : Side
  rightClosed : Bool
deriving DecidableEq, Repr

def Interval.render (i : Interval) : String :=
  (if i.leftClosed then "[" else "\x7b") ++ i.left.render ++ " TO " ++ i.right.render ++
    (if i.rightClosed then "]" else "\x7d")

inductive Range where
  | comparison (op : Comparison) (value : Side)
  | interval (i : Interval)
deriving DecidableEq, Repr

namespace Range

def render : Range → String
  | comparison op value => op.symbol ++ value.render
  | interval i => i.render

/-- The interval that a range stands for. A comparison leaves the far side unbounded and open. -/
def toInterval : Range → Interval
  | comparison .gt value => ⟨false, value, .unbounded, false⟩
  | comparison .ge value => ⟨true, value, .unbounded, false⟩
  | comparison .lt value => ⟨false, .unbounded, value, false⟩
  | comparison .le value => ⟨false, .unbounded, value, true⟩
  | interval i => i

end Range

/-- Both sides of a range and whether they belong to it. An unbounded side never does. -/
structure Bound where
  left : Side
  right : Side
  leftIncluded : Bool
  rightIncluded : Bool
  left_finite : leftIncluded = true → left.isFinite = true
  right_finite : rightIncluded = true → right.isFinite = true
deriving DecidableEq

/-- The normal form of an interval: a bracket counts only on a finite side. -/
def Interval.bound (i : Interval) : Bound where
  left := i.left
  right := i.right
  leftIncluded := i.leftClosed && i.left.isFinite
  rightIncluded := i.rightClosed && i.right.isFinite
  left_finite := by simp
  right_finite := by simp

/-- The normal form of a range. -/
def Range.bound (r : Range) : Bound :=
  r.toInterval.bound

end SearchQuery
