/-!
Decimal integers of a fixed width. A text is read from left to right, and the first character
that is no digit or the first digit that leaves the width decides why it is refused.
-/

namespace SearchQuery.Integer

/-- Why a text is no integer of the width asked for. -/
inductive Fault where
  | empty
  | invalidDigit
  | tooLarge
  | tooSmall
deriving DecidableEq, Repr

def Fault.message : Fault → String
  | empty => "cannot parse integer from empty string"
  | invalidDigit => "invalid digit found in string"
  | tooLarge => "number too large to fit in target type"
  | tooSmall => "number too small to fit in target type"

/-- The value of an ASCII digit. -/
def digitValue (c : Char) : Nat :=
  c.toNat - '0'.toNat

/-- Appends decimal digits to `value` as long as the result stays within `limit`; `overflow` is
the fault of the digit that leaves it. -/
def readDigits (limit : Nat) (overflow : Fault) : Nat → List Char → Except Fault Nat
  | value, [] => .ok value
  | value, c :: cs =>
      if c.isDigit then
        if 10 * value + digitValue c ≤ limit then
          readDigits limit overflow (10 * value + digitValue c) cs
        else .error overflow
      else .error .invalidDigit

/-- Splits off a sign; the first part says whether it is a minus. -/
def splitSign : List Char → Bool × List Char
  | [] => (false, [])
  | c :: cs => if c = '-' then (true, cs) else if c = '+' then (false, cs) else (false, c :: cs)

/-- Reads an integer of `bits` bits in two's complement: an optional sign and decimal digits. A
sign without digits is an invalid digit itself. -/
def read (bits : Nat) (s : String) : Except Fault Int :=
  if s.toList = [] then .error .empty
  else
    let (negative, digits) := splitSign s.toList
    if digits = [] then .error .invalidDigit
    else if negative then
      (readDigits (Nat.pow 2 (bits - 1)) .tooSmall 0 digits).map fun n => -(n : Int)
    else (readDigits (Nat.pow 2 (bits - 1) - 1) .tooLarge 0 digits).map fun n => (n : Int)

example : read 8 "-128" = .ok (-128) := rfl

example : read 8 "+128" = .error .tooLarge := rfl

-- The first offence decides: the third nine comes before the letter.
example : read 8 "999a" = .error .tooLarge ∧ read 8 "12a" = .error .invalidDigit := ⟨rfl, rfl⟩

example : read 8 "-" = .error .invalidDigit := rfl

end SearchQuery.Integer
