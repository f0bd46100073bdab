import Dispatch.Binary64
import Dispatch.Decimal.Digits
/-!
# Reading decimals as doubles

A decimal is an optional sign, digits with at most one point among or beside them, and an
optional exponent. The double read is the nearest to the decimal's value. Infinity and the
value that is no number have names and may carry a sign too.
-/
namespace Dispatch.Decimal

/-- A decimal as written: the digits on both sides of the point and the power of ten. -/
structure Written where
  whole : List Char
  fraction : List Char
  exponent : Int

namespace Written

/-- The double nearest to the value. Beyond four hundred places on either side every double
has ended, so the value is infinite or zero. -/
def toBinary64 (w : Written) : Binary64 :=
  let mantissa := ofDigits (w.whole ++ w.fraction)
  let scale := w.exponent - (w.fraction.length : Int)
  let magnitude := ((natDigits mantissa).length : Int) + scale
  if mantissa = 0 then .zero
  else if magnitude > 400 then .infinity
  else if magnitude < -400 then .zero
  else .ofQuotient (mantissa * Nat.pow 10 scale.toNat) (Nat.pow 10 (-scale).toNat)

end Written

/-- The exponent after the digits: absent, or a mark and an integer that may carry either
sign. -/
def readExponent? : List Char → Option Int
  | [] => some 0
  | mark :: cs =>
    if mark = 'e' || mark = 'E' then
      match cs with
      | '+' :: ds => (readNat? ds).map Int.ofNat
      | ds => readInt? ds
    else none

/-- A decimal without sign. At least one digit stands beside the point. -/
def readWritten? (cs : List Char) : Option Written :=
  let whole := cs.takeWhile isDigit
  let (fraction, rest) :=
    match cs.dropWhile isDigit with
    | '.' :: ds => (ds.takeWhile isDigit, ds.dropWhile isDigit)
    | ds => ([], ds)
  if whole.isEmpty && fraction.isEmpty then none
  else (readExponent? rest).map (⟨whole, fraction, ·⟩)

/-- The ASCII lower case of a character. -/
def asciiLower (c : Char) : Char :=
  if 'A' ≤ c ∧ c ≤ 'Z' then Char.ofNat (c.toNat + 32) else c

/-- A double without sign: a decimal, or a name in any case of letters. -/
def readMagnitude? (cs : List Char) : Option Binary64 :=
  let name := String.ofList (cs.map asciiLower)
  if name = "inf" || name = "infinity" then some .infinity
  else if name = "nan" then some .nan
  else (readWritten? cs).map Written.toBinary64

/-- The double that a text denotes. -/
def readFloat? : List Char → Option Binary64
  | '-' :: cs => (readMagnitude? cs).map fun x => -x
  | '+' :: cs => readMagnitude? cs
  | cs => readMagnitude? cs

end Dispatch.Decimal
