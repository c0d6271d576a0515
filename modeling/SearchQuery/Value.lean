import SearchQuery.Term

/-!
Values of terms. A decoder turns texts into values of the caller's choice and may have effects;
a term hands it the texts it is made of, in order, and stops at the first one that is rejected.
-/

namespace SearchQuery

/-- Why a term has no value. -/
inductive ValueError (ε : Type) where
  /-- There is no term. -/
  | emptyTerm
  /-- The decoder rejected a text, for the reason given. -/
  | decode (e : ε)
deriving DecidableEq, Repr

/-- The text of a value error, given the text of the decoder's reasons. -/
def ValueError.message {ε : Type} (reason : ε → String) : ValueError ε → String
  | emptyTerm => "empty term"
  | decode e => "failed to decode term value: " ++ reason e

/-- A decoded side of a range. -/
inductive Limit (V : Type) where
  | infinite
  | value (v : V)
deriving DecidableEq, Repr

/-- A bound with decoded sides. -/
structure DecodedBound (V : Type) where
  left : Limit V
  right : Limit V
  leftIncluded : Bool
  rightIncluded : Bool
deriving DecidableEq, Repr

/-- The value of a term. -/
inductive TermValue (V : Type) where
  | single (v : V)
  | range (b : DecodedBound V)
deriving DecidableEq, Repr

universe v

variable {V ε : Type} {m : Type → Type v} [Monad m]

/-- Decodes a side if it is finite. -/
def Side.decode (decoder : String → ExceptT ε m V) : Side → ExceptT ε m (Limit V)
  | unbounded => pure .infinite
  | literal l => Limit.value <$> decoder l.text

/-- Decodes the finite sides, the left one first. -/
def Bound.decode (decoder : String → ExceptT ε m V) (b : Bound) :
    ExceptT ε m (DecodedBound V) := do
  let left ← b.left.decode decoder
  let right ← b.right.decode decoder
  return ⟨left, right, b.leftIncluded, b.rightIncluded⟩

namespace Term

/-- Decodes a term: the text between the delimiters of a literal or a regular expression, the
sides of a range, or the canonical text of a group. -/
def decode (decoder : String → ExceptT ε m V) : Term → ExceptT ε m (TermValue V)
  | regexp ts => TermValue.single <$> decoder (Token.join ts)
  | literal l _ => TermValue.single <$> decoder l.text
  | range r _ => TermValue.range <$> r.bound.decode decoder
  | group g boost => TermValue.single <$> decoder (Term.group g boost).render

/-- The value of a term that may be missing. -/
def value (decoder : String → ExceptT ε m V) :
    Option Term → ExceptT (ValueError ε) m (TermValue V)
  | none => throw .emptyTerm
  | some t => (t.decode decoder).adapt .decode

/-- The value of a term through its bound, for a term that has one, and `value` otherwise. -/
def boundValue (decoder : String → ExceptT ε m V) (t : Option Term) :
    ExceptT (ValueError ε) m (TermValue V) :=
  match t.bind bound? with
  | some b => TermValue.range <$> (b.decode decoder).adapt .decode
  | none => value decoder t

end Term

end SearchQuery
