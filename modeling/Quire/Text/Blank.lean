/-!
# Blanks, pieces and numerals in text

White space of the Unicode character database, trimming, cutting a text at separators, and the
reading of unsigned numerals. Everything works on lists of characters.
-/
namespace Quire.Text

/-- A character with the Unicode property `White_Space`. -/
def isBlank (c : Char) : Bool :=
  let n := c.toNat
  (9 ≤ n && n ≤ 13) || n == 0x20 || n == 0x85 || n == 0xA0 || n == 0x1680 ||
    (0x2000 ≤ n && n ≤ 0x200A) || n == 0x2028 || n == 0x2029 || n == 0x202F || n == 0x205F ||
    n == 0x3000

/-- Drops blanks at both ends. -/
def trim (cs : List Char) : List Char :=
  ((cs.dropWhile isBlank).reverse.dropWhile isBlank).reverse

/-- Whether a text holds nothing but blanks. -/
def isBlankText (s : String) : Bool := s.toList.all isBlank

/-- The pieces of a text between its separators. There is always at least one piece. -/
def pieces (isSeparator : Char → Bool) : List Char → List (List Char)
  | [] => [[]]
  | c :: cs =>
    if isSeparator c then [] :: pieces isSeparator cs
    else
      match pieces isSeparator cs with
      | [] => [[c]]
      | p :: ps => (c :: p) :: ps

theorem pieces_ne_nil (isSeparator : Char → Bool) (cs : List Char) :
    pieces isSeparator cs ≠ [] := by
  cases cs with
  | nil => simp [pieces]
  | cons c cs => by_cases h : isSeparator c <;> simp [pieces, h]; split <;> simp

/-- The value of an ASCII decimal digit. -/
def digit? (c : Char) : Option Nat :=
  if '0' ≤ c && c ≤ '9' then some (c.toNat - '0'.toNat) else none

/-- The value of a hexadecimal digit of either case. -/
def hexDigit? (c : Char) : Option Nat :=
  if '0' ≤ c && c ≤ '9' then some (c.toNat - '0'.toNat)
  else if 'a' ≤ c && c ≤ 'f' then some (c.toNat - 'a'.toNat + 10)
  else if 'A' ≤ c && c ≤ 'F' then some (c.toNat - 'A'.toNat + 10)
  else none

/-- The number written by a list of digits, most significant first. -/
def natOfDigits (base : Nat) (ds : List Nat) : Nat :=
  ds.foldl (fun n d => n * base + d) 0

/-- Reads a nonempty run of decimal digits. -/
def natNumeral? : List Char → Option Nat
  | [] => none
  | cs => (cs.mapM digit?).map (natOfDigits 10)

/-- Reads decimal digits after an optional plus sign. -/
def unsignedNumeral? : List Char → Option Nat
  | '+' :: cs => natNumeral? cs
  | cs => natNumeral? cs

/-- Reads decimal digits after an optional sign. -/
def signedNumeral? : List Char → Option Int
  | '-' :: cs => (natNumeral? cs).map fun n => -(n : Int)
  | cs => (unsignedNumeral? cs).map fun n => (n : Int)

/-- The decimal digits of a number, as characters. -/
def decimal (n : Nat) : List Char := Nat.toDigits 10 n

end Quire.Text
