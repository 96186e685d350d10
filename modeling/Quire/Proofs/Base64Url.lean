import Mathlib.Data.List.Basic
import Quire.Text.Blank
import Quire.Token.Base64Url
import Quire.Proofs.Utf8

/-!
# Decoding encoded bytes

Every byte list is read back from its letters. The letters are ASCII and none of them is blank, so
that neither trimming nor the bytes of the text change anything.
-/
namespace Quire.Base64Url

/-- The byte of a letter. -/
def letterByte (n : Nat) : UInt8 := UInt8.ofNat (letter n).toNat

theorem sextet?_letterByte {n : Nat} (h : n < 64) : sextet? (letterByte n) = some n := by
  have hall : ∀ n < 64, sextet? (letterByte n) = some n := by decide
  exact hall n h

theorem letterByte_ne_pad {n : Nat} (h : n < 64) : letterByte n ≠ pad := by
  intro hpad
  have hs := sextet?_letterByte h
  rw [hpad] at hs
  cases hs

theorem letter_toNat_lt {n : Nat} (h : n < 64) : (letter n).toNat < 0x80 := by
  have hall : ∀ n < 64, (letter n).toNat < 0x80 := by decide
  exact hall n h

theorem isBlank_letter {n : Nat} (h : n < 64) : Text.isBlank (letter n) = false := by
  have hall : ∀ n < 64, Text.isBlank (letter n) = false := by decide
  exact hall n h

/-- Every letter of an encoded text stands for a number of six bits. -/
theorem exists_of_mem_encode (bs : List UInt8) :
    ∀ c ∈ encode bs, ∃ n, n < 64 ∧ c = letter n := by
  induction bs using encode.induct with
  | case1 a b c rest ih =>
    have ha := a.toNat_lt
    have hb := b.toNat_lt
    have hc := c.toNat_lt
    simp only [encode, List.forall_mem_cons]
    exact ⟨⟨_, by omega, rfl⟩, ⟨_, by omega, rfl⟩, ⟨_, by omega, rfl⟩, ⟨_, by omega, rfl⟩, ih⟩
  | case2 a b =>
    have ha := a.toNat_lt
    have hb := b.toNat_lt
    simp only [encode, List.forall_mem_cons]
    exact ⟨⟨_, by omega, rfl⟩, ⟨_, by omega, rfl⟩, ⟨_, by omega, rfl⟩, by simp⟩
  | case3 a =>
    have ha := a.toNat_lt
    simp only [encode, List.forall_mem_cons]
    exact ⟨⟨_, by omega, rfl⟩, ⟨_, by omega, rfl⟩, by simp⟩
  | case4 => simp [encode]

theorem utf8_encode (bs : List UInt8) :
    Text.utf8 (encode bs) = (encode bs).map fun c => UInt8.ofNat c.toNat := by
  refine Text.utf8_of_ascii fun c hc => ?_
  obtain ⟨n, hn, rfl⟩ := exists_of_mem_encode bs c hc
  exact letter_toNat_lt hn

theorem trim_encode (bs : List UInt8) : Text.trim (encode bs) = encode bs := by
  have hdrop : ∀ cs : List Char, (∀ c ∈ cs, Text.isBlank c = false) →
      cs.dropWhile Text.isBlank = cs := by
    intro cs h
    cases cs with
    | nil => rfl
    | cons c cs => rw [List.dropWhile_cons, h c List.mem_cons_self]; rfl
  have hblank : ∀ c ∈ encode bs, Text.isBlank c = false := by
    intro c hc
    obtain ⟨n, hn, rfl⟩ := exists_of_mem_encode bs c hc
    exact isBlank_letter hn
  rw [Text.trim, hdrop _ hblank, hdrop _ (by simpa using hblank), List.reverse_reverse]

/-! ## Whole groups -/

/-- The bytes of the letters of a byte list. -/
def letterBytes (bs : List UInt8) : List UInt8 := (encode bs).map fun c => UInt8.ofNat c.toNat

theorem letterBytes_group (a b c : UInt8) (rest : List UInt8) :
    letterBytes (a :: b :: c :: rest) =
      letterByte (a.toNat / 4) :: letterByte (a.toNat % 4 * 16 + b.toNat / 16) ::
        letterByte (b.toNat % 16 * 4 + c.toNat / 64) :: letterByte (c.toNat % 64) ::
          letterBytes rest := by
  simp [letterBytes, encode, letterByte]

theorem letterBytes_pair (a b : UInt8) :
    letterBytes [a, b] =
      [letterByte (a.toNat / 4), letterByte (a.toNat % 4 * 16 + b.toNat / 16),
        letterByte (b.toNat % 16 * 4)] := by
  simp [letterBytes, encode, letterByte]

theorem letterBytes_single (a : UInt8) :
    letterBytes [a] = [letterByte (a.toNat / 4), letterByte (a.toNat % 4 * 16)] := by
  simp [letterBytes, encode, letterByte]

theorem ofNat_eq_of_toNat {n : Nat} {a : UInt8} (h : n = a.toNat) : UInt8.ofNat n = a := by
  rw [h, UInt8.ofNat_toNat]

/-- The first byte of a group is in its first two letters. -/
theorem firstByte (a : UInt8) {m : Nat} (hm : m < 16) :
    UInt8.ofNat (a.toNat / 4 * 4 + (a.toNat % 4 * 16 + m) / 16) = a :=
  ofNat_eq_of_toNat (by omega)

/-- The second byte of a group is in its second and third letter. -/
theorem secondByte (a b : UInt8) {m : Nat} (hm : m < 4) :
    UInt8.ofNat ((a.toNat % 4 * 16 + b.toNat / 16) % 16 * 16 + (b.toNat % 16 * 4 + m) / 4) = b := by
  have hb := b.toNat_lt
  exact ofNat_eq_of_toNat (by omega)

/-- The third byte of a group is in its last two letters. -/
theorem thirdByte (b c : UInt8) :
    UInt8.ofNat ((b.toNat % 16 * 4 + c.toNat / 64) % 4 * 64 + c.toNat % 64) = c := by
  have hc := c.toNat_lt
  exact ofNat_eq_of_toNat (by omega)

theorem groups_letterBytes {k : Nat} (offset : Nat) {bs : List UInt8} (h : bs.length = 3 * k) :
    groups offset (letterBytes bs) = .ok bs := by
  induction k generalizing offset bs with
  | zero =>
    rw [List.length_eq_zero_iff.mp h]
    rfl
  | succ k ih =>
    match bs, h with
    | a :: b :: c :: rest, h =>
      have ha := a.toNat_lt
      have hb := b.toNat_lt
      have hc := c.toNat_lt
      have hrest : rest.length = 3 * k := by simp only [List.length_cons] at h; omega
      rw [letterBytes_group, groups, sextet?_letterByte (by omega), sextet?_letterByte (by omega),
        sextet?_letterByte (by omega), sextet?_letterByte (by omega)]
      simp only
      rw [ih (offset + 4) hrest, firstByte a (by omega), secondByte a b (by omega), thirdByte b c]
      rfl
    | [_, _], h => simp only [List.length_cons, List.length_nil] at h; omega
    | [_], h => simp only [List.length_cons, List.length_nil] at h; omega
    | [], h => simp only [List.length_nil] at h; omega

theorem length_letterBytes {k : Nat} {bs : List UInt8} (h : bs.length = 3 * k) :
    (letterBytes bs).length = 4 * k := by
  induction k generalizing bs with
  | zero =>
    rw [List.length_eq_zero_iff.mp h]
    rfl
  | succ k ih =>
    match bs, h with
    | a :: b :: c :: rest, h =>
      have hrest : rest.length = 3 * k := by simp only [List.length_cons] at h; omega
      rw [letterBytes_group]
      simp only [List.length_cons, ih hrest]
      omega
    | [_, _], h => simp only [List.length_cons, List.length_nil] at h; omega
    | [_], h => simp only [List.length_cons, List.length_nil] at h; omega
    | [], h => simp only [List.length_nil] at h; omega

theorem letterBytes_append {k : Nat} {front : List UInt8} (h : front.length = 3 * k)
    (back : List UInt8) : letterBytes (front ++ back) = letterBytes front ++ letterBytes back := by
  induction k generalizing front with
  | zero =>
    rw [List.length_eq_zero_iff.mp h]
    rfl
  | succ k ih =>
    match front, h with
    | a :: b :: c :: rest, h =>
      have hrest : rest.length = 3 * k := by simp only [List.length_cons] at h; omega
      simp only [List.cons_append, letterBytes_group, ih hrest]
    | [_, _], h => simp only [List.length_cons, List.length_nil] at h; omega
    | [_], h => simp only [List.length_cons, List.length_nil] at h; omega
    | [], h => simp only [List.length_nil] at h; omega

/-! ## The last group -/

theorem scanTail_letters (start index : Nat) (seen : List (UInt8 × Nat)) (ns : List Nat)
    (h : ∀ n ∈ ns, n < 64) :
    scanTail start index ⟨seen, none⟩ (ns.map letterByte) =
      .ok ⟨seen ++ ns.map fun n => (letterByte n, n), none⟩ := by
  induction ns generalizing index seen with
  | nil => simp [scanTail]
  | cons n ns ih =>
    rw [List.forall_mem_cons] at h
    rw [List.map_cons, scanTail, if_neg (letterByte_ne_pad h.1)]
    simp only [sextet?_letterByte h.1]
    rw [ih (index + 1) _ h.2, List.append_assoc]
    rfl

/-- The last group of letters, one to three bytes, is read back. -/
theorem tail_letterBytes (start : Nat) {back : List UInt8} (hne : back ≠ [])
    (hlen : back.length ≤ 3) :
    (scanTail start 0 ⟨[], none⟩ (letterBytes back)).bind (tailBytes start) = .ok back := by
  match back, hne, hlen with
  | [a], _, _ =>
    have ha := a.toNat_lt
    have hscan := scanTail_letters start 0 [] [a.toNat / 4, a.toNat % 4 * 16]
      (by simp only [List.forall_mem_cons]; exact ⟨by omega, by omega, by simp⟩)
    rw [letterBytes_single]
    simp only [List.map_cons, List.map_nil, List.nil_append] at hscan
    have hzero : a.toNat % 4 * 16 % 16 = 0 := by omega
    have hfirst := firstByte a (m := 0) (by omega)
    simp only [Nat.add_zero] at hfirst
    rw [hscan]
    simp only [Except.bind, tailBytes, hzero, hfirst, if_true]
    rfl
  | [a, b], _, _ =>
    have ha := a.toNat_lt
    have hb := b.toNat_lt
    have hscan := scanTail_letters start 0 []
      [a.toNat / 4, a.toNat % 4 * 16 + b.toNat / 16, b.toNat % 16 * 4]
      (by simp only [List.forall_mem_cons]; exact ⟨by omega, by omega, by omega, by simp⟩)
    rw [letterBytes_pair]
    simp only [List.map_cons, List.map_nil, List.nil_append] at hscan
    have hzero : b.toNat % 16 * 4 % 4 = 0 := by omega
    have hfirst := firstByte a (m := b.toNat / 16) (by omega)
    have hsecond := secondByte a b (m := 0) (by omega)
    simp only [Nat.add_zero] at hsecond
    rw [hscan]
    simp only [Except.bind, tailBytes, hzero, hfirst, hsecond, if_true]
    rfl
  | [a, b, c], _, _ =>
    have ha := a.toNat_lt
    have hb := b.toNat_lt
    have hc := c.toNat_lt
    have hscan := scanTail_letters start 0 []
      [a.toNat / 4, a.toNat % 4 * 16 + b.toNat / 16, b.toNat % 16 * 4 + c.toNat / 64,
        c.toNat % 64]
      (by
        simp only [List.forall_mem_cons]
        exact ⟨by omega, by omega, by omega, by omega, by simp⟩)
    rw [letterBytes_group]
    simp only [List.map_cons, List.map_nil, List.nil_append] at hscan
    have hfirst := firstByte a (m := b.toNat / 16) (by omega)
    have hsecond := secondByte a b (m := c.toNat / 64) (by omega)
    have hnil : letterBytes [] = [] := rfl
    rw [hnil, hscan]
    simp only [Except.bind, tailBytes, hfirst, hsecond, thirdByte]
    rfl

theorem exists_groups (bs : List UInt8) (hne : bs ≠ []) :
    ∃ (front back : List UInt8) (k : Nat), bs = front ++ back ∧ front.length = 3 * k ∧
      back ≠ [] ∧ back.length ≤ 3 := by
  refine ⟨bs.take ((bs.length - 1) / 3 * 3), bs.drop ((bs.length - 1) / 3 * 3),
    (bs.length - 1) / 3, (List.take_append_drop _ _).symm, ?_, ?_, ?_⟩
  · rw [List.length_take]
    omega
  · have hpos := List.length_pos_iff.mpr hne
    rw [← List.length_pos_iff, List.length_drop]
    omega
  · rw [List.length_drop]
    omega

theorem length_letterBytes_last {back : List UInt8} (hne : back ≠ []) (hlen : back.length ≤ 3) :
    2 ≤ (letterBytes back).length ∧ (letterBytes back).length ≤ 4 := by
  match back, hne, hlen with
  | [a], _, _ => simp [letterBytes_single]
  | [a, b], _, _ => simp [letterBytes_pair]
  | [a, b, c], _, _ => simp [letterBytes, encode]

theorem decode_letterBytes (bs : List UInt8) : decode (letterBytes bs) = .ok bs := by
  by_cases hne : bs = []
  · subst hne
    rfl
  obtain ⟨front, back, k, rfl, hfront, hback, hlen⟩ := exists_groups bs hne
  have hk := length_letterBytes hfront
  obtain ⟨htwo, hfour⟩ := length_letterBytes_last hback hlen
  rw [letterBytes_append hfront]
  have htotal : (letterBytes front ++ letterBytes back).length =
      4 * k + (letterBytes back).length := by rw [List.length_append, hk]
  have hstart : ((letterBytes front ++ letterBytes back).length - 1) / 4 * 4 = 4 * k := by omega
  have htail := tail_letterBytes (4 * k) hback hlen
  rw [decode]
  simp only [hstart]
  split
  · next hlast =>
    rw [List.getLast?_eq_none_iff, List.append_eq_nil_iff] at hlast
    rw [hlast.2] at htwo
    simp at htwo
  · rw [if_neg (by omega), ← hk, List.take_left, List.drop_left, hk, groups_letterBytes 0 hfront]
    cases hscan : scanTail (4 * k) 0 ⟨[], none⟩ (letterBytes back) with
    | error e => rw [hscan] at htail; cases htail
    | ok t =>
      rw [hscan] at htail
      simp only [Except.bind] at htail
      simp only [bind, Except.bind, htail]

/-- The bytes of an encoded text, blanks around it dropped, are the encoded bytes. -/
theorem decode_trim_encode (bs : List UInt8) :
    decode (Text.utf8 (Text.trim (encode bs))) = .ok bs := by
  rw [trim_encode, utf8_encode]
  exact decode_letterBytes bs

end Quire.Base64Url
