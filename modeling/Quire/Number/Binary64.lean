import Quire.Number.Powers
/-!
# Finite binary64 numbers

A finite number of the 64-bit binary format is a sign and the rank of its magnitude: the place of
the magnitude in the increasing list of all nonnegative finite numbers of the format. Arithmetic is
exact arithmetic on integers followed by one rounding to nearest, ties to the even neighbour. What
is too large for the format has no value here.
-/
namespace Quire

/-- How many magnitudes the format has: a rank is below this number. -/
def Binary64.rankLimit : Nat := 0x7FF * twoPow 52

/-- A finite number of the 64-bit binary format. -/
structure Binary64 where
  negative : Bool
  rank : Nat
  rank_lt : rank < Binary64.rankLimit
deriving DecidableEq, Repr

namespace Binary64

/-- The magnitude of the given rank in units of `2 ^ -1074`, the least positive magnitude. -/
def unitsOfRank (rank : Nat) : Nat :=
  if rank < twoPow 52 then rank
  else (twoPow 52 + rank % twoPow 52) * twoPow (rank / twoPow 52 - 1)

/-- The magnitude in units of `2 ^ -1074`. -/
def units (x : Binary64) : Nat := unitsOfRank x.rank

/-- One, in units of `2 ^ -1074`. -/
def one : Nat := twoPow 1074

def zero : Binary64 := ⟨false, 0, by decide⟩

def negZero : Binary64 := ⟨true, 0, by decide⟩

/-- The largest magnitude of the format, with the given sign. -/
def largest (negative : Bool) : Binary64 := ⟨negative, rankLimit - 1, by decide⟩

instance : Inhabited Binary64 := ⟨zero⟩

/-- The quotient rounded to the nearest integer, a half to the even one. -/
def roundQuotient (num den : Nat) : Nat :=
  let q := num / den
  let r := num % den
  if 2 * r < den then q else if 2 * r = den then q + q % 2 else q + 1

/-- The rank of the format's magnitude nearest to `num / den` units. -/
def nearestRank (num den : Nat) : Nat :=
  let k := (num / den).log2 - 52
  k * twoPow 52 + roundQuotient num (den * twoPow k)

/-- The number nearest to `num / den` units with the given sign, unless it is too large. -/
def nearest? (negative : Bool) (num den : Nat) : Option Binary64 :=
  let r := nearestRank num den
  if h : r < rankLimit then some ⟨negative, r, h⟩ else none

/-- The number nearest to an integer; integers beyond the format give its largest magnitude. -/
def ofInt (n : Int) : Binary64 :=
  (nearest? (n < 0) (n.natAbs * one) 1).getD (largest (n < 0))

/-- The place of a number in the order of the format, where `-0.0` comes right before `0.0`. -/
def place (x : Binary64) : Int :=
  if x.negative then -(x.rank : Int) - 1 else x.rank

/-- The order of the format. It tells the two zeros apart. -/
def compare (x y : Binary64) : Ordering := Ord.compare x.place y.place

/-- The signed magnitude in units of `2 ^ -1074`. -/
def signedUnits (x : Binary64) : Int := if x.negative then -(x.units : Int) else x.units

/-- The rounded sum. An exact zero is negative only when both summands are. -/
def add? (x y : Binary64) : Option Binary64 :=
  let s := x.signedUnits + y.signedUnits
  if s = 0 then some (if x.negative && y.negative then negZero else zero)
  else nearest? (s < 0) s.natAbs 1

/-- The rounded product. -/
def mul? (x y : Binary64) : Option Binary64 :=
  nearest? (x.negative != y.negative) (x.units * y.units) one

/-- The rounded quotient by a number other than zero. -/
def div? (x y : Binary64) : Option Binary64 :=
  if y.units = 0 then none
  else nearest? (x.negative != y.negative) (x.units * one) y.units

/-- The number nearest to `significand * 10 ^ exponent`. -/
def ofDecimal? (negative : Bool) (significand : Nat) (exponent : Int) : Option Binary64 :=
  if exponent < 0 then nearest? negative (significand * one) (tenPow exponent.natAbs)
  else nearest? negative (significand * tenPow exponent.natAbs * one) 1

/-- The integer nearest to a number, halves away from zero. -/
def round (x : Binary64) : Int :=
  let n := (2 * x.units + one) / (2 * one)
  if x.negative then -(n : Int) else n

end Binary64
end Quire
