import Quire.Json.Value
import Quire.Number.Shortest
/-!
# Scalars

Single settings as they are written down: in a file with a type of their own, in a variable as bare
text whose type is guessed. A scalar of another type than the one wanted is converted where that
makes sense.
-/
namespace Quire

/-- A single setting as written. -/
inductive Scalar where
  | bool (b : Bool)
  | int (n : Int)
  | float (x : Binary64)
  | infinity (negative : Bool)
  | nan
  | str (s : String)
deriving DecidableEq, Repr

namespace Scalar

/-! ## Guessing -/

/-- A character in lower case. Beyond ASCII only the Kelvin sign has an ASCII letter for its lower
case, and no name or word of the settings holds other letters. -/
def lowerChar (c : Char) : Char := if c.toNat = 0x212A then 'k' else c.toLower

/-- A text in lower case. -/
def lower (s : String) : String := String.ofList (s.toList.map lowerChar)

/-- A sign in front, if there is one. -/
def splitSign : List Char → Bool × List Char
  | '-' :: cs => (true, cs)
  | '+' :: cs => (false, cs)
  | cs => (false, cs)

/-- The power of ten after an `e`; no power at all is zero. -/
def exponent? : List Char → Option Int
  | [] => some 0
  | c :: cs =>
    if c = 'e' ∨ c = 'E' then
      let (negative, ds) := splitSign cs
      (Text.natNumeral? ds).map fun n => if negative then -(n : Int) else n
    else none

/-- The number `significand * 10 ^ exponent`, infinite where it is too large. Magnitudes far out of
range are not computed. -/
def ofDecimal (negative : Bool) (significand : Nat) (exponent : Int) : Scalar :=
  let power := exponent + (Text.decimal significand).length
  if significand = 0 ∨ power < -400 then .float (if negative then .negZero else .zero)
  else if 400 < power then .infinity negative
  else
    match Binary64.ofDecimal? negative significand exponent with
    | some x => .float x
    | none => .infinity negative

/-- Reads decimal notation with an optional point and exponent, and the names of the numbers that
are not finite. -/
def ofNumber? (s : String) : Option Scalar := do
  let (negative, cs) := splitSign s.toList
  let word := lower (String.ofList cs)
  if word = "inf" ∨ word = "infinity" then return .infinity negative
  if word = "nan" then return .nan
  let isDigit := fun c => (Text.digit? c).isSome
  let whole := cs.takeWhile isDigit
  let (fraction, rest) :=
    match cs.dropWhile isDigit with
    | '.' :: rest => (rest.takeWhile isDigit, rest.dropWhile isDigit)
    | rest => ([], rest)
  let exponent ← exponent? rest
  let significand ← Text.natNumeral? (whole ++ fraction)
  return ofDecimal negative significand (exponent - fraction.length)

/-- A whole number of the signed 64-bit range. -/
def ofInt? (s : String) : Option Scalar :=
  ((Text.signedNumeral? s.toList).filter Value.inSigned64).map .int

/-- The scalar in a bare text: a truth value, a whole number, another number, or else the text. -/
def ofText (s : String) : Scalar :=
  if lower s = "true" then .bool true
  else if lower s = "false" then .bool false
  else ((ofInt? s <|> ofNumber? s)).getD (.str s)

/-! ## Converting -/

/-- A number without an exponent; of two equally near decimals the larger one. -/
def plain (x : Binary64) : List Char :=
  let body := if x.rank = 0 then ['0'] else (x.shortest .up).positional
  if x.negative then '-' :: body else body

/-- A scalar as text. -/
def toText : Scalar → String
  | .bool b => if b then "true" else "false"
  | .int n => toString n
  | .float x => String.ofList (plain x)
  | .infinity negative => if negative then "-inf" else "inf"
  | .nan => "NaN"
  | .str s => s

/-- The truth value of a word. -/
def ofWord? (s : String) : Option Bool :=
  if ["true", "on", "yes"].contains (lower s) then some true
  else if ["false", "off", "no"].contains (lower s) then some false
  else none

/-- A scalar as truth value. Numbers other than zero are true. -/
def toBool? : Scalar → Option Bool
  | .bool b => some b
  | .int n => some (n != 0)
  | .float x => some (x.rank != 0)
  | .infinity _ => some true
  | .nan => some true
  | .str s => if s = "1" then some true else if s = "0" then some false else ofWord? s

/-- The largest unsigned 64-bit number. -/
def natLimit : Nat := twoPow 64 - 1

/-- A scalar as an unsigned 64-bit number. Fractions are rounded and then clamped. -/
def toNat64? : Scalar → Option Nat
  | .bool b => some b.toNat
  | .int n => if n < 0 then none else some n.toNat
  | .float x => some (min x.round.toNat natLimit)
  | .infinity negative => some (if negative then 0 else natLimit)
  | .nan => some 0
  | .str s =>
    (ofWord? s).map Bool.toNat <|> (Text.unsignedNumeral? s.toList).filter (· ≤ natLimit)

/-- A scalar as an unsigned 32-bit number: the 64-bit one, where it fits. -/
def toNat32? (s : Scalar) : Option Nat := s.toNat64?.filter (· < twoPow 32)

end Scalar
end Quire
