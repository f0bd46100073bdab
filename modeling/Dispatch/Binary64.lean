/-!
# Doubles

A double is a word of 64 bits: a sign, eleven bits of exponent and fifty-two of fraction.
Words with the greatest exponent stand for an infinity or for no number at all, and keep their
sign in both cases. Rounding takes the nearest double, and of two equally near ones the one
with an even fraction; it is arithmetic on natural numbers throughout.
-/
namespace Dispatch

/-- A double, given by its word. -/
structure Binary64 where
  bits : UInt64
  deriving DecidableEq, Inhabited, Repr

namespace Binary64

/-- Whether the sign bit is set. -/
def isNegative (x : Binary64) : Bool := x.bits >>> 63 == 1

/-- The word without its sign, which grows with the absolute value. -/
def unsignedBits (x : Binary64) : Nat := (x.bits &&& 0x7fffffffffffffff).toNat

/-- The exponent as it stands in the word. -/
def biasedExponent (x : Binary64) : Nat := ((x.bits >>> 52) &&& 0x7ff).toNat

/-- The fraction as it stands in the word. -/
def fraction (x : Binary64) : Nat := (x.bits &&& 0xfffffffffffff).toNat

/-- The word of infinity. -/
def infinityBits : Nat := 0x7ff0000000000000

/-- Zero without sign. -/
def zero : Binary64 := ⟨0⟩

/-- Positive infinity. -/
def infinity : Binary64 := ⟨UInt64.ofNat infinityBits⟩

/-- The value that is no number. -/
def nan : Binary64 := ⟨0x7ff8000000000000⟩

/-- The greatest finite double. -/
def greatestFinite : Binary64 := ⟨0x7fefffffffffffff⟩

/-- Whether the double is no number. -/
def isNaN (x : Binary64) : Bool := infinityBits < x.unsignedBits

/-- Whether the double is one of the infinities. -/
def isInfinite (x : Binary64) : Bool := x.unsignedBits == infinityBits

/-- The double with the opposite sign, also of an infinity or of what is no number. -/
protected def neg (x : Binary64) : Binary64 := ⟨x.bits ^^^ 0x8000000000000000⟩

instance : Neg Binary64 := ⟨Binary64.neg⟩

/-! ## Order -/

/-- The place of a number among the doubles, the same for both zeros. -/
def rank (x : Binary64) : Int := if x.isNegative then -(x.unsignedBits : Int) else x.unsignedBits

/-- The order of numbers. What is no number is neither below nor above anything. -/
instance : LT Binary64 := ⟨fun x y => x.isNaN = false ∧ y.isNaN = false ∧ x.rank < y.rank⟩

instance : DecidableLT Binary64 := fun x y =>
  inferInstanceAs (Decidable (x.isNaN = false ∧ y.isNaN = false ∧ x.rank < y.rank))

/-- Equality of numbers. The zeros are equal, and what is no number equals nothing. -/
def equals (x y : Binary64) : Bool := !x.isNaN && !y.isNaN && x.rank == y.rank

/-! ## Rounding -/

/-- The natural number nearest to a quotient, the even one on a tie. -/
def roundQuotient (numerator denominator : Nat) : Nat :=
  let lower := numerator / denominator
  let twice := 2 * (numerator % denominator)
  if twice < denominator ∨ (twice = denominator ∧ lower % 2 = 0) then lower else lower + 1

/-- Numerator and denominator of a quotient divided by `2 ^ exponent`. -/
def inUnits (numerator denominator : Nat) (exponent : Int) : Nat × Nat :=
  (numerator * Nat.pow 2 (-exponent).toNat, denominator * Nat.pow 2 exponent.toNat)

/-- The exponent of the unit in which a positive quotient is rounded: it holds at least
`2 ^ 52` and fewer than `2 ^ 53` of them, unless the least unit of all, `2 ^ (-1074)`, is too
large for that. -/
def unitExponent (numerator denominator : Nat) : Int :=
  let least : Int := (numerator.log2 : Int) - (denominator.log2 : Int) - 53
  let (n, d) := inUnits numerator denominator least
  max (if n / d < Nat.pow 2 53 then least else least + 1) (-1074)

/-- The double nearest to a quotient of natural numbers. The words of positive doubles follow
one another as their values do, so rounding up to `2 ^ 53` units carries into the exponent,
and what rounds beyond the greatest finite double is infinite. -/
def ofQuotient (numerator denominator : Nat) : Binary64 :=
  if numerator = 0 then zero
  else
    let exponent := unitExponent numerator denominator
    let (n, d) := inUnits numerator denominator exponent
    let word := Nat.pow 2 52 * (exponent + 1074).toNat + roundQuotient n d
    ⟨UInt64.ofNat (min word infinityBits)⟩

/-- The double nearest to an integer. -/
def ofInt (n : Int) : Binary64 :=
  if n < 0 then -ofQuotient n.natAbs 1 else ofQuotient n.natAbs 1

end Binary64
end Dispatch
