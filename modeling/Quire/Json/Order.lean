import Quire.Json.Value
/-!
# The order of values

Values of different types order by type: null, numbers, strings, objects, arrays, booleans. Two
whole numbers of the signed 64-bit range compare exactly; every other pair of numbers compares in
binary64.
-/
namespace Quire.Value

/-- The place of a value's type. -/
def typeRank : Value → Nat
  | .null => 0
  | .int _ => 1
  | .float _ => 1
  | .str _ => 2
  | .obj _ => 3
  | .arr _ => 4
  | .bool _ => 5

/-- The order of whole numbers. -/
def compareInt (a b : Int) : Ordering :=
  if inSigned64 a && inSigned64 b then Ord.compare a b
  else (Binary64.ofInt a).compare (Binary64.ofInt b)

mutual
/-- The order of values. Arrays and objects compare item by item, then by length. -/
def compare : Value → Value → Ordering
  | .null, .null => .eq
  | .int a, .int b => compareInt a b
  | .int a, .float y => (Binary64.ofInt a).compare y
  | .float x, .int b => x.compare (Binary64.ofInt b)
  | .float x, .float y => x.compare y
  | .str a, .str b => Ord.compare a b
  | .bool a, .bool b => Ord.compare a b
  | .arr xs, .arr ys => compareItems xs ys
  | .obj fs, .obj gs => compareFields fs gs
  | a, b => Ord.compare a.typeRank b.typeRank

/-- The lexicographic order of item lists. -/
def compareItems : List Value → List Value → Ordering
  | [], [] => .eq
  | [], _ :: _ => .lt
  | _ :: _, [] => .gt
  | x :: xs, y :: ys => (x.compare y).then (compareItems xs ys)

/-- The lexicographic order of field lists; a field compares by name, then by value. -/
def compareFields : List (String × Value) → List (String × Value) → Ordering
  | [], [] => .eq
  | [], _ :: _ => .lt
  | _ :: _, [] => .gt
  | (k, x) :: fs, (l, y) :: gs =>
    (Ord.compare k l).then ((x.compare y).then (compareFields fs gs))
end

/-- Equality under the order of values, so that `1` equals `1.0`. -/
def equal (a b : Value) : Bool := a.compare b == .eq

end Quire.Value
