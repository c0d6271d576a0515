/-!
The binary64 number nearest to a positive fraction, in exact arithmetic on natural numbers. A tie
goes to the even significand.
-/

namespace SearchQuery.Nearest

/-- The quotient rounded to the nearest natural number, a tie to the even one. -/
def roundDiv (num den : Nat) : Nat :=
  if den < 2 * (num % den) ∨ (2 * (num % den) = den ∧ num / den % 2 = 1) then num / den + 1
  else num / den

/-- The quotient of `num` and `den * 2 ^ shift`, rounded. -/
def roundScaled (num den : Nat) (shift : Int) : Nat :=
  if 0 ≤ shift then roundDiv num (den <<< shift.toNat) else roundDiv (num <<< (-shift).toNat) den

/-- The exponent of the largest power of two that is at most `num / den`, both positive. -/
def log2Ratio (num den : Nat) : Int :=
  let e : Int := (num.log2 : Int) - den.log2
  if den <<< e.toNat ≤ num <<< (-e).toNat then e else e - 1

/-- The bits of the binary64 number nearest to `num / den`, both positive. The last place is worth
`2 ^ q`; adding the significand to the shifted exponent carries a significand that rounds up to
the next power of two, and all that is beyond the largest number is infinite. -/
def bits (num den : Nat) : Nat :=
  let q : Int := max (-1074) (log2Ratio num den - 52)
  min (2047 <<< 52) ((q + 1074).toNat <<< 52 + roundScaled num den q)

example : bits 1 1 = 0x3ff0000000000000 ∧ bits 1 3 = 0x3fd5555555555555 ∧
    bits 1 10 = 0x3fb999999999999a := by decide

-- Half a unit above one is a tie, and anything more is not.
example : bits (2 ^ 53 + 1) (2 ^ 53) = 0x3ff0000000000000 ∧
    bits (2 ^ 63 + 2 ^ 10 + 1) (2 ^ 63) = 0x3ff0000000000001 := by decide

end SearchQuery.Nearest
