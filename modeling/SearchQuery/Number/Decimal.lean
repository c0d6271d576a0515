import SearchQuery.Number.Integer
import SearchQuery.Number.Nearest

/-!
Decimal numerals as floating-point numbers: an optional sign, and either a word for infinity or
for no number, or digits with an optional point and an optional exponent of ten.
-/

namespace SearchQuery

/-- What a numeral denotes. -/
inductive Decimal where
  /-- The number `digits * 10 ^ exponent`, with its sign. -/
  | finite (negative : Bool) (digits : Nat) (exponent : Int)
  | infinite (negative : Bool)
  | notANumber
deriving DecidableEq, Repr

namespace Decimal

/-- The number that a run of digits denotes. -/
def natOfDigits (digits : List Char) : Nat :=
  digits.foldl (fun n c => 10 * n + Integer.digitValue c) 0

/-- Reads the exponent of ten that follows the digits: nothing, or the letter, an optional sign
and at least one digit. -/
def readExponent? : List Char → Option Int
  | [] => some 0
  | c :: cs =>
      if c = 'e' ∨ c = 'E' then
        let (negative, digits) := Integer.splitSign cs
        if digits ≠ [] ∧ digits.all Char.isDigit then
          let n : Int := natOfDigits digits
          some (if negative then -n else n)
        else none
      else none

/-- Reads digits with an optional point among them, of which at least one, and an exponent. -/
def readDigits? (negative : Bool) (cs : List Char) : Option Decimal :=
  let whole := cs.takeWhile Char.isDigit
  let (fraction, rest) :=
    match cs.dropWhile Char.isDigit with
    | '.' :: cs => (cs.takeWhile Char.isDigit, cs.dropWhile Char.isDigit)
    | rest => ([], rest)
  if whole = [] ∧ fraction = [] then none
  else (readExponent? rest).map fun e =>
    finite negative (natOfDigits (whole ++ fraction)) (e - fraction.length)

/-- Reads a whole text as a numeral. Words are read in any case. -/
def read? (s : String) : Option Decimal :=
  let (negative, cs) := Integer.splitSign s.toList
  let word := String.ofList (cs.map Char.toLower)
  if word = "inf" ∨ word = "infinity" then some (infinite negative)
  else if word = "nan" then some notANumber
  else readDigits? negative cs

/-- The sign bit of binary64. -/
def signBit (negative : Bool) : Nat :=
  if negative then Nat.pow 2 63 else 0

/-- The bits of the binary64 number nearest to `digits * 10 ^ exponent`. The first two cases bound
the work: such numbers are beyond the largest, or less than half the least, binary64 number. -/
def magnitudeBits (digits : Nat) (exponent : Int) : Nat :=
  let places : Int := (Nat.toDigits 10 digits).length + exponent
  if digits = 0 ∨ places < -400 then 0
  else if 400 < places then 2047 <<< 52
  else if 0 ≤ exponent then Nearest.bits (digits * Nat.pow 10 exponent.toNat) 1
  else Nearest.bits digits (Nat.pow 10 (-exponent).toNat)

/-- The nearest floating-point number. -/
def toFloat : Decimal → Float
  | finite negative digits exponent =>
      Float.ofBits (signBit negative + magnitudeBits digits exponent).toUInt64
  | infinite negative => Float.ofBits (signBit negative + 2047 <<< 52).toUInt64
  | notANumber => 0.0 / 0.0

example : read? "1.50e-2" = some (finite false 150 (-4)) ∧ read? "." = none ∧
    read? "-.5" = some (finite true 5 (-1)) ∧ read? "1e" = none ∧
    read? "-Infinity" = some (infinite true) := by decide

example : magnitudeBits 5 (-324) = 1 ∧ magnitudeBits 1 309 = 2047 <<< 52 ∧
    magnitudeBits 2 (-324) = 0 := by decide +kernel

end Decimal

end SearchQuery
