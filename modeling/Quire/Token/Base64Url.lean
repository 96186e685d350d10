/-!
# Base64 for URLs

Unpadded base64 over `A-Z a-z 0-9 - _`. Decoding accepts exactly what encoding produces, and says
what is wrong with anything else.
-/
namespace Quire.Base64Url

/-- The character of a six-bit number. -/
def letter (n : Nat) : Char :=
  if n < 26 then Char.ofNat ('A'.toNat + n)
  else if n < 52 then Char.ofNat ('a'.toNat + (n - 26))
  else if n < 62 then Char.ofNat ('0'.toNat + (n - 52))
  else if n = 62 then '-'
  else '_'

/-- The six-bit number of a byte of the alphabet. -/
def sextet? (b : UInt8) : Option Nat :=
  let n := b.toNat
  if 65 ≤ n ∧ n ≤ 90 then some (n - 65)
  else if 97 ≤ n ∧ n ≤ 122 then some (n - 97 + 26)
  else if 48 ≤ n ∧ n ≤ 57 then some (n - 48 + 52)
  else if n = 45 then some 62
  else if n = 95 then some 63
  else none

/-- Three bytes become four letters; one or two left over become two or three. -/
def encode : List UInt8 → List Char
  | a :: b :: c :: rest =>
    letter (a.toNat / 4) :: letter (a.toNat % 4 * 16 + b.toNat / 16) ::
      letter (b.toNat % 16 * 4 + c.toNat / 64) :: letter (c.toNat % 64) :: encode rest
  | [a, b] =>
    [letter (a.toNat / 4), letter (a.toNat % 4 * 16 + b.toNat / 16), letter (b.toNat % 16 * 4)]
  | [a] => [letter (a.toNat / 4), letter (a.toNat % 4 * 16)]
  | [] => []

/-- What is wrong with a text. Offsets count bytes. -/
inductive Fault where
  /-- A byte that cannot stand at its place. -/
  | symbol (byte : UInt8) (offset : Nat)
  /-- A text of this many letters is the form of no bytes. -/
  | length (n : Nat)
  /-- Padding where none belongs. -/
  | padding
  /-- A last letter with bits beyond the last byte. -/
  | lastSymbol (byte : UInt8) (offset : Nat)
deriving DecidableEq, Repr

def Fault.message : Fault → String
  | .symbol b n => s!"Invalid symbol {b.toNat}, offset {n}."
  | .length n => s!"Invalid input length: {n}"
  | .padding => "Invalid padding"
  | .lastSymbol b n => s!"Invalid last symbol {b.toNat}, offset {n}."

/-- The padding byte `=`, which no text may hold. -/
def pad : UInt8 := 61

/-- The bytes of whole groups of four letters, from the given offset on. -/
def groups : Nat → List UInt8 → Except Fault (List UInt8)
  | offset, a :: b :: c :: d :: rest =>
    match sextet? a, sextet? b, sextet? c, sextet? d with
    | some w, some x, some y, some z =>
      (groups (offset + 4) rest).map fun bytes =>
        UInt8.ofNat (w * 4 + x / 16) :: UInt8.ofNat (x % 16 * 16 + y / 4) ::
          UInt8.ofNat (y % 4 * 64 + z) :: bytes
    | none, _, _, _ => .error (.symbol a offset)
    | _, none, _, _ => .error (.symbol b (offset + 1))
    | _, _, none, _ => .error (.symbol c (offset + 2))
    | _, _, _, none => .error (.symbol d (offset + 3))
  | _, _ => .ok []

/-- The letters of the last group, with the offset of the first padding byte. -/
structure Tail where
  letters : List (UInt8 × Nat)
  firstPad : Option Nat

/-- Scans the last group. Padding may only stand from its third place on, and only at its end. -/
def scanTail (start index : Nat) (seen : Tail) : List UInt8 → Except Fault Tail
  | [] => .ok seen
  | b :: rest =>
    if b = pad then
      if index < 2 then .error (.symbol pad (start + index))
      else
        let first := seen.firstPad.getD (start + index)
        scanTail start (index + 1) { seen with firstPad := some first } rest
    else
      match seen.firstPad with
      | some offset => .error (.symbol pad offset)
      | none =>
        match sextet? b with
        | none => .error (.symbol b (start + index))
        | some n =>
          scanTail start (index + 1) { seen with letters := seen.letters ++ [(b, n)] } rest

/-- The bytes of the last group. -/
def tailBytes (start : Nat) (t : Tail) : Except Fault (List UInt8) :=
  match t.letters with
  | [] => .error (.length start)
  | [_] => .error (.length (start + 1))
  | (_, w) :: (b, x) :: rest =>
    if t.firstPad.isSome then .error .padding
    else
      match rest with
      | [] =>
        if x % 16 = 0 then .ok [UInt8.ofNat (w * 4 + x / 16)]
        else .error (.lastSymbol b (start + 1))
      | (c, y) :: rest =>
        let two := [UInt8.ofNat (w * 4 + x / 16), UInt8.ofNat (x % 16 * 16 + y / 4)]
        match rest with
        | [] => if y % 4 = 0 then .ok two else .error (.lastSymbol c (start + 2))
        | (_, z) :: _ => .ok (two ++ [UInt8.ofNat (y % 4 * 64 + z)])

/-- The bytes of a text. A lone last byte outside the alphabet is reported before all else. -/
def decode (text : List UInt8) : Except Fault (List UInt8) :=
  let n := text.length
  let start := (n - 1) / 4 * 4
  match text.getLast? with
  | none => .ok []
  | some last =>
    if n % 4 = 1 ∧ sextet? last = none ∧ last ≠ pad then .error (.symbol last (n - 1))
    else do
      let bytes ← groups 0 (text.take start)
      let tail ← scanTail start 0 ⟨[], none⟩ (text.drop start)
      let rest ← tailBytes start tail
      .ok (bytes ++ rest)

end Quire.Base64Url
