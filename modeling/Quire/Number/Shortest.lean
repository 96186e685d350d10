import Quire.Number.Binary64
import Quire.Text.Blank
/-!
# The fewest digits that read back

The shortest decimal that rounds to a given number: among all decimals with the fewest digits, the
one nearest to the number. Which of two equally near decimals is taken is up to the writer.
-/
namespace Quire.Binary64

/-- Which of two equally near decimals is taken. -/
inductive Tie where
  /-- The one whose last digit is even. -/
  | toEven
  /-- The larger one. -/
  | up
deriving DecidableEq, Repr

/-- The place in a grid that stands for a tie between a place and the next one. -/
def Tie.pick (tie : Tie) (c : Nat) : Nat :=
  match tie with
  | .toEven => c + c % 2
  | .up => c + 1

/-- A positive decimal `0.d₁d₂… * 10 ^ (exponent + 1)`, its digits most significant first. -/
structure Decimal where
  digits : List Char
  /-- The power of ten of the first digit. -/
  exponent : Int
deriving DecidableEq, Repr

/-- The power of ten of the first digit of `num / den`, where both are positive. -/
def leadingPower (num den : Nat) : Int :=
  if den ≤ num then ((Text.decimal (num / den)).length : Int) - 1
  else
    let d := (Text.decimal (den / num)).length
    if num * tenPow (d - 1) = den then -((d : Int) - 1) else -(d : Int)

/-- The decimals that read back as a magnitude, as an interval in units of `2 ^ -1075`. -/
structure Basin where
  low : Nat
  mid : Nat
  high : Nat
  /-- Whether the ends belong to the interval. -/
  closed : Bool

/-- A magnitude owns what is nearer to it than to its neighbours, and an even one also its ends. -/
def basin (rank : Nat) : Basin :=
  let u := unitsOfRank rank
  { low := unitsOfRank (rank - 1) + u
    mid := 2 * u
    high := u + unitsOfRank (rank + 1)
    closed := rank % 2 == 0 }

/-- Whether `num / den` lies in the interval. -/
def Basin.holds (b : Basin) (num den : Nat) : Bool :=
  if b.closed then b.low * den ≤ num && num ≤ b.high * den
  else b.low * den < num && num < b.high * den

/-- The point of the decimal grid with step `up / down` units of `2 ^ -1075` that lies in the
interval and is nearest to its middle. -/
def Basin.gridPoint? (b : Basin) (tie : Tie) (up down : Nat) : Option Nat :=
  let c := b.mid * down / up
  let below := b.holds (c * up) down
  let above := b.holds ((c + 1) * up) down
  if below && above then
    let left := b.mid * down - c * up
    let right := (c + 1) * up - b.mid * down
    some (if left < right then c else if right < left then c + 1 else tie.pick c)
  else if below then some c
  else if above then some (c + 1)
  else none

/-- The first grid with a point in the interval, from `n` digits on. -/
def Basin.shortest (b : Basin) (tie : Tie) (power : Int) : Nat → Nat → Nat × Int
  | 0, n => (b.mid / (2 * one), power - n)
  | fuel + 1, n =>
    let step := power - (n : Int)
    let found :=
      if step < 0 then b.gridPoint? tie (2 * one) (tenPow step.natAbs)
      else b.gridPoint? tie (2 * one * tenPow step.natAbs) 1
    match found with
    | some c => (c, step)
    | none => b.shortest tie power fuel (n + 1)

/-- The shortest decimal of a magnitude other than zero. -/
def shortest (x : Binary64) (tie : Tie) : Decimal :=
  let b := basin x.rank
  let (c, step) := b.shortest tie (leadingPower x.units one) 18 0
  let cs := Text.decimal c
  { digits := (cs.reverse.dropWhile (· == '0')).reverse
    exponent := step + cs.length - 1 }

/-- Positional notation without an exponent. A whole number has no point. -/
def Decimal.positional (d : Decimal) : List Char :=
  if d.exponent < 0 then
    '0' :: '.' :: (List.replicate (d.exponent.natAbs - 1) '0' ++ d.digits)
  else
    let n := d.exponent.natAbs + 1
    if d.digits.length ≤ n then d.digits ++ List.replicate (n - d.digits.length) '0'
    else d.digits.take n ++ '.' :: d.digits.drop n

/-- One digit before the point, then `e` and a signed exponent. -/
def Decimal.scientific (d : Decimal) : List Char :=
  let mantissa :=
    match d.digits with
    | c :: rest@(_ :: _) => c :: '.' :: rest
    | cs => cs
  mantissa ++ 'e' :: (if d.exponent < 0 then '-' else '+') :: Text.decimal d.exponent.natAbs

end Quire.Binary64
