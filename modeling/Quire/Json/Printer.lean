import Quire.Json.Value
import Quire.Number.Shortest
/-!
# Compact text of values

JSON without white space. Fields are written in the order in which the value lists them.
-/
namespace Quire

/-- How numbers of the binary64 format are written: positionally from `least` to `most` as powers
of ten of the first digit, otherwise with an exponent. -/
structure FloatFormat where
  least : Int
  most : Int
  tie : Binary64.Tie

/-- Numbers from `0.00001` up to below `10 ^ 16` are positional; ties go to even digits. -/
def Value.floatFormat : FloatFormat := ⟨-5, 15, .toEven⟩

/-- The shortest text that reads back; a whole number keeps `.0`. -/
def FloatFormat.chars (f : FloatFormat) (x : Binary64) : List Char :=
  let body :=
    if x.rank = 0 then ['0', '.', '0']
    else
      let d := x.shortest f.tie
      if f.least ≤ d.exponent ∧ d.exponent ≤ f.most then
        let cs := d.positional
        if cs.contains '.' then cs else cs ++ ['.', '0']
      else d.scientific
  if x.negative then '-' :: body else body

namespace Value

/-- A lower-case hexadecimal digit. -/
def hexChar (n : Nat) : Char := (Nat.digitChar n)

/-- The escaped form of a character inside a quoted string. -/
def escape (c : Char) : List Char :=
  if c = '"' then ['\\', '"']
  else if c = '\\' then ['\\', '\\']
  else if c = '\x08' then ['\\', 'b']
  else if c = '\x0c' then ['\\', 'f']
  else if c = '\n' then ['\\', 'n']
  else if c = '\r' then ['\\', 'r']
  else if c = '\t' then ['\\', 't']
  else if c.toNat < 0x20 then ['\\', 'u', '0', '0', hexChar (c.toNat / 16), hexChar (c.toNat % 16)]
  else [c]

/-- A quoted string. -/
def quote (s : String) : List Char := '"' :: (s.toList.flatMap escape ++ ['"'])

/-- A whole number. -/
def intChars : Int → List Char
  | .ofNat n => Text.decimal n
  | .negSucc n => '-' :: Text.decimal (n + 1)

mutual
/-- The compact text of a value. -/
def chars : Value → List Char
  | .null => ['n', 'u', 'l', 'l']
  | .bool true => ['t', 'r', 'u', 'e']
  | .bool false => ['f', 'a', 'l', 's', 'e']
  | .int n => intChars n
  | .float x => floatFormat.chars x
  | .str s => quote s
  | .arr [] => ['[', ']']
  | .arr (v :: vs) => '[' :: (v.chars ++ itemChars vs)
  | .obj [] => ['\x7b', '\x7d']
  | .obj ((k, v) :: fs) => '\x7b' :: (quote k ++ ':' :: (v.chars ++ fieldChars fs))

/-- The items after the first, with the closing bracket. -/
def itemChars : List Value → List Char
  | [] => [']']
  | v :: vs => ',' :: (v.chars ++ itemChars vs)

/-- The fields after the first, with the closing brace. -/
def fieldChars : List (String × Value) → List Char
  | [] => ['\x7d']
  | (k, v) :: fs => ',' :: (quote k ++ ':' :: (v.chars ++ fieldChars fs))
end

/-- The compact text of a value, as a string. -/
def text (v : Value) : String := String.ofList v.chars

end Value
end Quire
