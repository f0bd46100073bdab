import Dispatch.Binary64
import Dispatch.Decimal.Digits
/-!
# The shortest decimal of a double

A double is written with the fewest digits that read back as the same double; of two such
decimals the nearer to its value is taken, and of two equally near ones the larger. Everything
is compared exactly, as quotients of natural numbers. The text is positional throughout,
however large or small the value, and a whole number has no point.
-/
namespace Dispatch.Decimal

/-- The magnitude of a finite double, `mantissa * 2 ^ exponent`. `pinched` marks a power of
two whose neighbour below is half as far away as the one above. -/
structure Magnitude where
  mantissa : Nat
  exponent : Int
  pinched : Bool

namespace Magnitude

/-- The magnitude of a double, if that is finite. -/
def ofBinary64 (x : Binary64) : Magnitude :=
  if x.biasedExponent = 0 then ⟨x.fraction, -1074, false⟩
  else
    ⟨Nat.pow 2 52 + x.fraction, (x.biasedExponent : Int) - 1075,
      x.fraction = 0 && 1 < x.biasedExponent⟩

/-- A number multiplied by a power of two and a power of ten, each with an exponent below zero
counting as zero. -/
def scaleUp (n : Nat) (binary decimal : Int) : Nat :=
  n * Nat.pow 2 binary.toNat * Nat.pow 10 decimal.toNat

/-- The sign of `a * 10 ^ i - n * 2 ^ j`. -/
def compareScaled (a : Nat) (i : Int) (n : Nat) (j : Int) : Ordering :=
  compare (scaleUp a (-j) i) (scaleUp n j (-i))

/-- Whether `digits * 10 ^ exponent` lies among the reals that are nearest to this double. The
ends of that interval belong to it when the mantissa is even. -/
def readsBack (x : Magnitude) (digits : Nat) (exponent : Int) : Bool :=
  let low := 4 * x.mantissa - (if x.pinched then 1 else 2)
  let high := 4 * x.mantissa + 2
  let closed := x.mantissa % 2 == 0
  let above := compareScaled digits exponent low (x.exponent - 2)
  let below := compareScaled digits exponent high (x.exponent - 2)
  (above == .gt || (closed && above == .eq)) && (below == .lt || (closed && below == .eq))

/-- The value divided by `10 ^ i`, rounded down. -/
def quotient (x : Magnitude) (i : Int) : Nat :=
  scaleUp x.mantissa x.exponent (-i) / scaleUp 1 (-x.exponent) i

/-- The least power of ten above the value, for a value that is not zero. -/
def decimalScale (x : Magnitude) : Int :=
  if x.quotient 0 = 0 then
    match (List.range 400).find? fun (j : Nat) => x.quotient (-(j : Int)) ≠ 0 with
    | some j => 1 - (j : Int)
    | none => -399
  else ((natDigits (x.quotient 0)).length : Int)

/-- Of the two neighbours of the value on the grid of step `10 ^ exponent`, the one that reads
back and is nearer, the upper one on a tie. -/
def onGrid? (x : Magnitude) (exponent : Int) : Option Nat :=
  let lower := x.quotient exponent
  let fitsBelow := x.readsBack lower exponent
  let fitsAbove := x.readsBack (lower + 1) exponent
  if fitsBelow && fitsAbove then
    if compareScaled (2 * lower + 1) exponent (2 * x.mantissa) x.exponent == .gt then some lower
    else some (lower + 1)
  else if fitsBelow then some lower
  else if fitsAbove then some (lower + 1)
  else none

/-- Digits and power of ten of the shortest decimal. Seventeen digits always suffice; the
exact value stands in where none was found. -/
def shortest (x : Magnitude) : Nat × Int :=
  let scale := x.decimalScale
  let found := (List.range 17).findSome? fun (count : Nat) =>
    let exponent := scale - ((count : Int) + 1)
    (x.onGrid? exponent).map (·, exponent)
  found.getD (scaleUp x.mantissa x.exponent 0 * Nat.pow 5 (-x.exponent).toNat, min x.exponent 0)

end Magnitude

/-- The digits of `digits * 10 ^ exponent` with the point in its place, without zeros at the
end of a fraction. -/
def positional (digits : Nat) (exponent : Int) : List Char :=
  let ds := natDigits digits
  if 0 ≤ exponent then ds ++ List.replicate exponent.toNat '0'
  else
    let places := (-exponent).toNat
    let padded := List.replicate (places + 1 - ds.length) '0' ++ ds
    let fraction := ((padded.drop (padded.length - places)).reverse.dropWhile (· == '0')).reverse
    let whole := padded.take (padded.length - places)
    if fraction.isEmpty then whole else whole ++ '.' :: fraction

/-- The text of a double. What is no number is written without sign. -/
def floatText (x : Binary64) : String :=
  let sign := if x.isNegative then ['-'] else []
  if x.isNaN then "NaN"
  else if x.isInfinite then String.ofList (sign ++ "inf".toList)
  else
    let magnitude := Magnitude.ofBinary64 x
    if magnitude.mantissa = 0 then String.ofList (sign ++ ['0'])
    else
      let (digits, exponent) := magnitude.shortest
      String.ofList (sign ++ positional digits exponent)

end Dispatch.Decimal
