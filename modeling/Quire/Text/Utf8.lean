/-!
# Characters and bytes

The UTF-8 form of text. Decoding never fails: a byte that belongs to no character is kept as a
stray, so that a reader decides where strays are tolerable.
-/
namespace Quire.Text

/-- One unit of text that arrived as bytes. -/
inductive Glyph where
  /-- A decoded character. -/
  | char (c : Char)
  /-- A byte that is part of no character. -/
  | stray (b : UInt8)
deriving DecidableEq, Repr

/-- The UTF-8 bytes of a character. -/
def utf8Char (c : Char) : List UInt8 :=
  let n := c.toNat
  if n < 0x80 then [UInt8.ofNat n]
  else if n < 0x800 then [UInt8.ofNat (0xC0 + n / 64), UInt8.ofNat (0x80 + n % 64)]
  else if n < 0x10000 then
    [UInt8.ofNat (0xE0 + n / 4096), UInt8.ofNat (0x80 + n / 64 % 64), UInt8.ofNat (0x80 + n % 64)]
  else
    [UInt8.ofNat (0xF0 + n / 262144), UInt8.ofNat (0x80 + n / 4096 % 64),
      UInt8.ofNat (0x80 + n / 64 % 64), UInt8.ofNat (0x80 + n % 64)]

/-- The UTF-8 bytes of a text. -/
def utf8 (cs : List Char) : List UInt8 := cs.flatMap utf8Char

/-- The payload of a continuation byte. -/
def continuation? (b : UInt8) : Option Nat :=
  if 0x80 ≤ b.toNat ∧ b.toNat < 0xC0 then some (b.toNat - 0x80) else none

/-- The character with a scalar value of at least `least`; shorter forms exist for smaller ones. -/
def scalar? (least n : Nat) : Option Char :=
  if n.isValidChar ∧ least ≤ n then some (Char.ofNat n) else none

/-- The character at the head of a byte list, with the bytes after it. -/
def headChar? : List UInt8 → Option (Char × List UInt8)
  | [] => none
  | a :: rest =>
    if a.toNat < 0x80 then (scalar? 0 a.toNat).map (·, rest)
    else if a.toNat < 0xC0 then none
    else if a.toNat < 0xE0 then
      match rest with
      | b :: rest => do
        let y ← continuation? b
        (scalar? 0x80 ((a.toNat - 0xC0) * 64 + y)).map (·, rest)
      | _ => none
    else if a.toNat < 0xF0 then
      match rest with
      | b :: c :: rest => do
        let y ← continuation? b
        let z ← continuation? c
        (scalar? 0x800 (((a.toNat - 0xE0) * 64 + y) * 64 + z)).map (·, rest)
      | _ => none
    else
      match rest with
      | b :: c :: d :: rest => do
        let y ← continuation? b
        let z ← continuation? c
        let w ← continuation? d
        (scalar? 0x10000 ((((a.toNat - 0xF0) * 64 + y) * 64 + z) * 64 + w)).map (·, rest)
      | _ => none

/-- Decodes with a bound on the number of units; `glyphs` gives enough of it. -/
def glyphsUpTo : Nat → List UInt8 → List Glyph
  | 0, _ => []
  | _ + 1, [] => []
  | n + 1, b :: rest =>
    match headChar? (b :: rest) with
    | some (c, tail) => .char c :: glyphsUpTo n tail
    | none => .stray b :: glyphsUpTo n rest

/-- Decodes bytes; each byte that starts no character becomes a stray. -/
def glyphs (bytes : List UInt8) : List Glyph := glyphsUpTo bytes.length bytes

/-- The text of glyphs without strays. -/
def ofGlyphs? : List Glyph → Option (List Char)
  | [] => some []
  | .char c :: rest => (ofGlyphs? rest).map (c :: ·)
  | .stray _ :: _ => none

@[simp] theorem ofGlyphs?_map_char (cs : List Char) : ofGlyphs? (cs.map .char) = some cs := by
  induction cs with
  | nil => rfl
  | cons c cs ih => simp [ofGlyphs?, ih]

end Quire.Text
