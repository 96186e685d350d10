import Mathlib.Data.List.Basic
import Quire.Text.Utf8

/-!
# Decoding encoded text

The bytes of a character are read back as that character, whatever follows, so that decoding the
bytes of a text gives its characters and no strays.
-/
namespace Quire.Text

theorem isValidChar_toNat (c : Char) : c.toNat.isValidChar := c.valid

theorem scalar?_toNat {least : Nat} {c : Char} (h : least ≤ c.toNat) :
    scalar? least c.toNat = some c := by
  rw [scalar?, if_pos ⟨isValidChar_toNat c, h⟩, Char.ofNat_toNat]

theorem continuation?_ofNat {n : Nat} (h : n < 64) :
    continuation? (UInt8.ofNat (0x80 + n)) = some n := by
  have hn : (UInt8.ofNat (0x80 + n)).toNat = 0x80 + n := by
    rw [UInt8.toNat_ofNat']
    omega
  rw [continuation?, hn, if_pos (by omega), Nat.add_sub_cancel_left]

theorem toNat_lt (c : Char) : c.toNat < 0x110000 := by
  rcases isValidChar_toNat c with h | h
  · omega
  · exact h.2

theorem headChar?_utf8Char (c : Char) (rest : List UInt8) :
    headChar? (utf8Char c ++ rest) = some (c, rest) := by
  have hlt := toNat_lt c
  rw [utf8Char]
  split
  · next h =>
    have ha : (UInt8.ofNat c.toNat).toNat = c.toNat := by rw [UInt8.toNat_ofNat']; omega
    simp only [List.cons_append, List.nil_append, headChar?, ha]
    rw [if_pos h, scalar?_toNat (Nat.zero_le _)]
    rfl
  · split
    · next h1 h2 =>
      have ha : (UInt8.ofNat (0xC0 + c.toNat / 64)).toNat = 0xC0 + c.toNat / 64 := by
        rw [UInt8.toNat_ofNat']; omega
      have hsum : (0xC0 + c.toNat / 64 - 0xC0) * 64 + c.toNat % 64 = c.toNat := by omega
      simp only [List.cons_append, List.nil_append, headChar?, ha]
      rw [if_neg (by omega), if_neg (by omega), if_pos (by omega),
        continuation?_ofNat (by omega)]
      simp only [Option.bind_eq_bind, Option.bind_some, hsum]
      rw [scalar?_toNat (by omega)]
      rfl
    · split
      · next h1 h2 h3 =>
        have ha : (UInt8.ofNat (0xE0 + c.toNat / 4096)).toNat = 0xE0 + c.toNat / 4096 := by
          rw [UInt8.toNat_ofNat']; omega
        have hsum : ((0xE0 + c.toNat / 4096 - 0xE0) * 64 + c.toNat / 64 % 64) * 64 +
            c.toNat % 64 = c.toNat := by omega
        simp only [List.cons_append, List.nil_append, headChar?, ha]
        rw [if_neg (by omega), if_neg (by omega), if_neg (by omega), if_pos (by omega),
          continuation?_ofNat (by omega), continuation?_ofNat (by omega)]
        simp only [Option.bind_eq_bind, Option.bind_some, hsum]
        rw [scalar?_toNat (by omega)]
        rfl
      · next h1 h2 h3 =>
        have ha : (UInt8.ofNat (0xF0 + c.toNat / 262144)).toNat = 0xF0 + c.toNat / 262144 := by
          rw [UInt8.toNat_ofNat']; omega
        have hsum : (((0xF0 + c.toNat / 262144 - 0xF0) * 64 + c.toNat / 4096 % 64) * 64 +
            c.toNat / 64 % 64) * 64 + c.toNat % 64 = c.toNat := by omega
        simp only [List.cons_append, List.nil_append, headChar?, ha]
        rw [if_neg (by omega), if_neg (by omega), if_neg (by omega), if_neg (by omega),
          continuation?_ofNat (by omega), continuation?_ofNat (by omega),
          continuation?_ofNat (by omega)]
        simp only [Option.bind_eq_bind, Option.bind_some, hsum]
        rw [scalar?_toNat (by omega)]
        rfl

theorem utf8Char_ne_nil (c : Char) : utf8Char c ≠ [] := by
  rw [utf8Char]
  split
  · simp
  · split
    · simp
    · split <;> simp

theorem length_le_length_utf8 (cs : List Char) : cs.length ≤ (utf8 cs).length := by
  induction cs with
  | nil => exact Nat.le_refl 0
  | cons c cs ih =>
    have hpos := List.length_pos_iff.mpr (utf8Char_ne_nil c)
    rw [utf8, List.flatMap_cons, List.length_append, List.length_cons]
    rw [utf8] at ih
    omega

theorem glyphsUpTo_utf8 {n : Nat} {cs : List Char} (h : cs.length ≤ n) :
    glyphsUpTo n (utf8 cs) = cs.map .char := by
  induction cs generalizing n with
  | nil => cases n <;> rfl
  | cons c cs ih =>
    cases n with
    | zero => cases h
    | succ n =>
      rw [utf8, List.flatMap_cons]
      have hhead := headChar?_utf8Char c (cs.flatMap utf8Char)
      cases hbytes : utf8Char c ++ cs.flatMap utf8Char with
      | nil => exact absurd (List.append_eq_nil_iff.mp hbytes).1 (utf8Char_ne_nil c)
      | cons b rest =>
        rw [hbytes] at hhead
        rw [glyphsUpTo, hhead]
        exact congrArg _ (ih (Nat.le_of_succ_le_succ h))

theorem glyphs_utf8 (cs : List Char) : glyphs (utf8 cs) = cs.map .char :=
  glyphsUpTo_utf8 (length_le_length_utf8 cs)

/-- Text of ASCII has one byte a character. -/
theorem utf8_of_ascii {cs : List Char} (h : ∀ c ∈ cs, c.toNat < 0x80) :
    utf8 cs = cs.map fun c => UInt8.ofNat c.toNat := by
  induction cs with
  | nil => rfl
  | cons c cs ih =>
    rw [List.forall_mem_cons] at h
    rw [utf8, List.flatMap_cons, utf8Char]
    simp only [if_pos h.1, List.cons_append, List.nil_append, List.map_cons]
    exact congrArg _ (ih h.2)

end Quire.Text
