import Quire.Json.Value
import Quire.Text.Blank
import Quire.Text.Utf8
/-!
# Reading JSON text

Reading has two steps. `Raw.read?` checks the grammar and keeps everything as written: numerals
digit by digit, escapes unpaired, fields in order and with repetitions. `Raw.value?` then gives a
raw text its value, which can fail: a numeral may be too large, an escape may stand for half a
character, a byte may belong to no character, the nesting may be too deep.
-/
namespace Quire

open Text (Glyph)

/-- A numeral as written, digits most significant first. -/
structure Numeral where
  negative : Bool
  whole : List Nat
  /-- The digits after the point, if there is a point. -/
  fraction : List Nat
  /-- Whether the exponent is negative, and its digits. -/
  exponent : Option (Bool × List Nat)
deriving Repr

/-- A unit of a quoted string as written. -/
inductive Piece where
  | glyph (g : Glyph)
  /-- A UTF-16 code unit given by its four hexadecimal digits. -/
  | unit (u : Nat)
deriving Repr

/-- A JSON text as written. -/
inductive Raw where
  | null
  | bool (b : Bool)
  | num (n : Numeral)
  | str (s : List Piece)
  | arr (items : List Raw)
  | obj (fields : List (List Piece × Raw))
deriving Inhabited, Repr

namespace Raw

/-- The four characters between tokens. -/
def isSpace : Glyph → Bool
  | .char c => c = ' ' || c = '\n' || c = '\t' || c = '\r'
  | .stray _ => false

def skipSpace (gs : List Glyph) : List Glyph := gs.dropWhile isSpace

/-- A run of decimal digits and the rest. -/
def digits : List Glyph → List Nat × List Glyph
  | .char c :: rest =>
    match Text.digit? c with
    | some d => let (ds, tail) := digits rest; (d :: ds, tail)
    | none => ([], .char c :: rest)
  | gs => ([], gs)

/-- Digits before the point: one zero, or a run that starts with another digit. -/
def wholePart? (gs : List Glyph) : Option (List Nat × List Glyph) :=
  match digits gs with
  | ([], _) => none
  | (0 :: _ :: _, _) => none
  | found => some found

/-- A point with at least one digit after it, or nothing. -/
def fractionPart? : List Glyph → Option (List Nat × List Glyph)
  | .char '.' :: rest =>
    match digits rest with
    | ([], _) => none
    | found => some found
  | gs => some ([], gs)

/-- The digits of an exponent after its sign. -/
def exponentDigits? (negative : Bool) (gs : List Glyph) :
    Option (Option (Bool × List Nat) × List Glyph) :=
  match digits gs with
  | ([], _) => none
  | (ds, rest) => some (some (negative, ds), rest)

/-- An exponent with at least one digit, or nothing. -/
def exponentPart? : List Glyph → Option (Option (Bool × List Nat) × List Glyph)
  | .char c :: rest =>
    if c = 'e' ∨ c = 'E' then
      match rest with
      | .char '+' :: rest => exponentDigits? false rest
      | .char '-' :: rest => exponentDigits? true rest
      | rest => exponentDigits? false rest
    else some (none, .char c :: rest)
  | gs => some (none, gs)

/-- A numeral after its sign. -/
def numeral? (negative : Bool) (gs : List Glyph) : Option (Raw × List Glyph) := do
  let (whole, gs) ← wholePart? gs
  let (fraction, gs) ← fractionPart? gs
  let (exponent, gs) ← exponentPart? gs
  some (.num { negative, whole, fraction, exponent }, gs)

/-- The character of a one-letter escape. -/
def simpleEscape? (c : Char) : Option Char :=
  if c = '"' ∨ c = '\\' ∨ c = '/' then some c
  else if c = 'b' then some '\x08'
  else if c = 'f' then some '\x0c'
  else if c = 'n' then some '\n'
  else if c = 'r' then some '\r'
  else if c = 't' then some '\t'
  else none

/-- A quoted string after its opening quote. -/
def stringTail? : List Glyph → Option (List Piece × List Glyph)
  | [] => none
  | .char '"' :: rest => some ([], rest)
  | .char '\\' :: .char 'u' :: .char a :: .char b :: .char c :: .char d :: rest => do
    let ds ← [a, b, c, d].mapM Text.hexDigit?
    let (pieces, tail) ← stringTail? rest
    some (.unit (Text.natOfDigits 16 ds) :: pieces, tail)
  | .char '\\' :: .char e :: rest => do
    let c ← simpleEscape? e
    let (pieces, tail) ← stringTail? rest
    some (.glyph (.char c) :: pieces, tail)
  | .char c :: rest =>
    if c = '\\' ∨ c.toNat < 0x20 then none
    else (stringTail? rest).map fun (pieces, tail) => (.glyph (.char c) :: pieces, tail)
  | .stray b :: rest =>
    (stringTail? rest).map fun (pieces, tail) => (.glyph (.stray b) :: pieces, tail)

/-- The rest of a text that starts with a word. -/
def afterWord? : List Char → List Glyph → Option (List Glyph)
  | [], gs => some gs
  | c :: cs, .char d :: gs => if c = d then afterWord? cs gs else none
  | _ :: _, _ => none

mutual
/-- One value, leading space skipped. The bound grows with the text, see `read?`. -/
def valueAt? : Nat → List Glyph → Option (Raw × List Glyph)
  | 0, _ => none
  | bound + 1, gs =>
    match skipSpace gs with
    | .char '"' :: rest => (stringTail? rest).map fun (s, tail) => (.str s, tail)
    | .char '[' :: rest =>
      match skipSpace rest with
      | .char ']' :: tail => some (.arr [], tail)
      | rest => (itemsAt? bound rest).map fun (items, tail) => (.arr items, tail)
    | .char '\x7b' :: rest =>
      match skipSpace rest with
      | .char '\x7d' :: tail => some (.obj [], tail)
      | rest => (fieldsAt? bound rest).map fun (fields, tail) => (.obj fields, tail)
    | .char '-' :: rest => numeral? true rest
    | .char 'n' :: rest => (afterWord? ['u', 'l', 'l'] rest).map (.null, ·)
    | .char 't' :: rest => (afterWord? ['r', 'u', 'e'] rest).map (.bool true, ·)
    | .char 'f' :: rest => (afterWord? ['a', 'l', 's', 'e'] rest).map (.bool false, ·)
    | rest => numeral? false rest

/-- Items up to the closing bracket, at least one. -/
def itemsAt? : Nat → List Glyph → Option (List Raw × List Glyph)
  | 0, _ => none
  | bound + 1, gs => do
    let (item, rest) ← valueAt? bound gs
    match skipSpace rest with
    | .char ']' :: tail => some ([item], tail)
    | .char ',' :: tail =>
      let (items, tail) ← itemsAt? bound tail
      some (item :: items, tail)
    | _ => none

/-- Fields up to the closing brace, at least one. -/
def fieldsAt? : Nat → List Glyph → Option (List (List Piece × Raw) × List Glyph)
  | 0, _ => none
  | bound + 1, gs =>
    match skipSpace gs with
    | .char '"' :: rest => do
      let (name, rest) ← stringTail? rest
      match skipSpace rest with
      | .char ':' :: rest =>
        let (value, rest) ← valueAt? bound rest
        match skipSpace rest with
        | .char '\x7d' :: tail => some ([(name, value)], tail)
        | .char ',' :: tail =>
          let (fields, tail) ← fieldsAt? bound tail
          some ((name, value) :: fields, tail)
        | _ => none
      | _ => none
    | _ => none
end

/-- A whole text: one value between spaces. Each step of the reader takes at least one unit, and
at most two steps begin at the same one. -/
def read? (gs : List Glyph) : Option Raw :=
  match valueAt? (2 * gs.length + 1) gs with
  | some (raw, rest) => if (skipSpace rest).isEmpty then some raw else none
  | none => none

/-- The text of a quoted string, unless half a character or a stray byte is in it. -/
def text? : List Piece → Option (List Char)
  | [] => some []
  | .glyph (.char c) :: rest => (text? rest).map (c :: ·)
  | .glyph (.stray _) :: _ => none
  | .unit u :: .unit v :: rest =>
    if 0xD800 ≤ u ∧ u < 0xDC00 then
      if 0xDC00 ≤ v ∧ v < 0xE000 then
        (text? rest).map (Char.ofNat (0x10000 + (u - 0xD800) * 0x400 + (v - 0xDC00)) :: ·)
      else none
    else if 0xDC00 ≤ u ∧ u < 0xE000 then none
    else (text? (.unit v :: rest)).map (Char.ofNat u :: ·)
  | .unit u :: rest =>
    if 0xD800 ≤ u ∧ u < 0xE000 then none else (text? rest).map (Char.ofNat u :: ·)

/-- The string of a quoted string. -/
def string? (s : List Piece) : Option String := (text? s).map String.ofList

end Raw

namespace Numeral

/-- The largest significand that is kept; digits that would exceed it only count as places. -/
def significandLimit : Nat := twoPow 64

/-- A significand with its power of ten. -/
structure Scaled where
  significand : Nat
  power : Int

/-- Takes the digits before the point; the digits after the first that does not fit are places. -/
def takeWhole : Nat → List Nat → Scaled × Bool
  | s, [] => (⟨s, 0⟩, false)
  | s, d :: ds =>
    if s * 10 + d < significandLimit then takeWhole (s * 10 + d) ds
    else (⟨s, ds.length + 1⟩, true)

/-- Takes the digits after the point, as far as they fit. -/
def takeFraction (x : Scaled) : List Nat → Scaled
  | [] => x
  | d :: ds =>
    if x.significand * 10 + d < significandLimit then
      takeFraction ⟨x.significand * 10 + d, x.power - 1⟩ ds
    else x

/-- The significand times a power of ten, by one rounded product or quotient with a power of at
most 308; lower powers are reached in rounded steps of 308. -/
def scale? : Nat → Binary64 → Int → Option Binary64
  | fuel, x, power =>
    if power.natAbs ≤ 308 then do
      let p ← Binary64.ofDecimal? false 1 power.natAbs
      if 0 ≤ power then x.mul? p else x.div? p
    else if x.rank = 0 then some x
    else if 0 ≤ power then none
    else
      match fuel with
      | 0 => some .zero
      | fuel + 1 => do
        let p ← Binary64.ofDecimal? false 1 308
        let y ← x.div? p
        scale? fuel y (power + 308)

/-- Gives a number its sign. -/
def signed (negative : Bool) (x : Binary64) : Binary64 := ⟨negative, x.rank, x.rank_lt⟩

/-- The binary64 number of a scaled significand. The significand is rounded before it is scaled. -/
def toFloat? (negative : Bool) (x : Scaled) : Option Binary64 :=
  (scale? 4 (.ofInt x.significand) x.power).map (signed negative)

/-- The value of a numeral: a whole number if it has neither point nor exponent and fits 64 bits
with its sign, otherwise a binary64 number. Minus zero is no whole number. -/
def value? (n : Numeral) : Option Value :=
  let (whole, long) := takeWhole 0 n.whole
  match n.fraction, n.exponent with
  | [], none =>
    if long then (toFloat? n.negative whole).map .float
    else if !n.negative then some (.int whole.significand)
    else if whole.significand = 0 ∨ twoPow 63 < whole.significand then
      (toFloat? true whole).map .float
    else some (.int (-(whole.significand : Int)))
  | fraction, exponent =>
    let x := takeFraction whole fraction
    match exponent with
    | none => (toFloat? n.negative x).map .float
    | some (negativePower, ds) =>
      let e := Text.natOfDigits 10 ds
      if twoPow 31 ≤ e then
        if x.significand ≠ 0 ∧ !negativePower then none
        else some (.float (signed n.negative .zero))
      else
        let power := if negativePower then x.power - e else x.power + e
        (toFloat? n.negative ⟨x.significand, power⟩).map .float

end Numeral

namespace Raw

mutual
/-- The value of a raw text, nested at most `depth` deep. Fields stay as written. -/
def value? : Nat → Raw → Option Value
  | _, .null => some .null
  | _, .bool b => some (.bool b)
  | _, .num n => n.value?
  | _, .str s => (string? s).map .str
  | 0, .arr _ => none
  | depth + 1, .arr items => (items? depth items).map .arr
  | 0, .obj _ => none
  | depth + 1, .obj fields => (fields? depth fields).map .obj

/-- The values of items. -/
def items? : Nat → List Raw → Option (List Value)
  | _, [] => some []
  | depth, item :: rest => do
    let v ← value? depth item
    let vs ← items? depth rest
    some (v :: vs)

/-- The names and values of fields. -/
def fields? : Nat → List (List Piece × Raw) → Option (List (String × Value))
  | _, [] => some []
  | depth, (name, raw) :: rest => do
    let k ← string? name
    let v ← value? depth raw
    let fs ← fields? depth rest
    some ((k, v) :: fs)
end

end Raw

namespace Value

/-- Texts are read up to this many containers deep. -/
def depthLimit : Nat := 127

/-- Reads a text and keeps fields in order and with repetitions. -/
def readAsWritten? (s : String) : Option Value :=
  (Raw.read? (s.toList.map .char)).bind (Raw.value? depthLimit)

/-- Reads a text. -/
def read? (s : String) : Option Value := (readAsWritten? s).map normalize

end Value
end Quire
