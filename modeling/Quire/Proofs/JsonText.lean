import Quire.Proofs.FloatText
import Quire.Proofs.Values

/-!
# Reading compact text

The reader takes the compact text of a value apart again. The grammar step finds the raw form of
the value, whatever delimiter follows; the second step gives a value of the same shape if the value
is not nested too deep, and the value itself if its numbers are whole.
-/
namespace Quire

open Text (Glyph decimal decimalDigits)

namespace Value

/-! ## Quoted strings -/

/-- The piece that the escaped form of a character is read as. -/
def escapePiece (c : Char) : Piece :=
  if c ∈ ['\x08', '\x0c', '\n', '\r', '\t'] then .glyph (.char c)
  else if c.toNat < 0x20 then .unit c.toNat
  else .glyph (.char c)

theorem hexDigit?_hexChar {n : Nat} (h : n < 16) : Text.hexDigit? (hexChar n) = some n := by
  have hall : ∀ n < 16, Text.hexDigit? (hexChar n) = some n := by decide
  exact hall n h

/-- The escaped form of a character is read as its piece. -/
theorem stringTail?_escape (c : Char) (rest : List Glyph) :
    Raw.stringTail? ((escape c).map .char ++ rest) =
      (Raw.stringTail? rest).map fun (pieces, tail) => (escapePiece c :: pieces, tail) := by
  by_cases hshort : c ∈ ['"', '\\', '\x08', '\x0c', '\n', '\r', '\t']
  · simp only [List.mem_cons, List.not_mem_nil, or_false] at hshort
    rcases hshort with rfl | rfl | rfl | rfl | rfl | rfl | rfl <;>
      cases hrest : Raw.stringTail? rest <;>
        simp [escape, escapePiece, Raw.stringTail?, Raw.simpleEscape?, hrest]
  simp only [List.mem_cons, List.not_mem_nil, or_false, not_or] at hshort
  obtain ⟨hquote, hslash, hb, hf, hn, hr, ht⟩ := hshort
  rw [escape, if_neg hquote, if_neg hslash, if_neg hb, if_neg hf, if_neg hn, if_neg hr, if_neg ht]
  by_cases hcontrol : c.toNat < 0x20
  · have hpiece : escapePiece c = .unit c.toNat := by simp [escapePiece, *]
    have hcode : Text.natOfDigits 16 [0, 0, c.toNat / 16, c.toNat % 16] = c.toNat := by
      simp only [Text.natOfDigits, List.foldl_cons, List.foldl_nil]
      omega
    have hdigits : ['0', '0', hexChar (c.toNat / 16), hexChar (c.toNat % 16)].mapM
        Text.hexDigit? = some [0, 0, c.toNat / 16, c.toNat % 16] := by
      rw [List.mapM_cons, List.mapM_cons, List.mapM_cons, List.mapM_cons,
        hexDigit?_hexChar (by omega), hexDigit?_hexChar (by omega)]
      rfl
    rw [if_pos hcontrol, hpiece]
    simp only [List.map_cons, List.map_nil, List.cons_append, List.nil_append]
    rw [Raw.stringTail?, hdigits]
    simp only [Option.bind_eq_bind, Option.bind_some, hcode]
    cases Raw.stringTail? rest <;> rfl
  · have hpiece : escapePiece c = .glyph (.char c) := by simp [escapePiece, *]
    rw [if_neg hcontrol, hpiece]
    simp only [List.map_cons, List.map_nil, List.cons_append, List.nil_append]
    simp [Raw.stringTail?, hslash, hcontrol]

theorem stringTail?_escapes (cs : List Char) (rest : List Glyph) :
    Raw.stringTail? ((cs.flatMap escape).map .char ++ .char '"' :: rest) =
      some (cs.map escapePiece, rest) := by
  induction cs with
  | nil => rfl
  | cons c cs ih =>
    rw [List.flatMap_cons, List.map_append, List.append_assoc, stringTail?_escape, ih]
    rfl

theorem text?_escapePiece (c : Char) (cs : List Char) :
    Raw.text? ((c :: cs).map escapePiece) = (Raw.text? (cs.map escapePiece)).map (c :: ·) := by
  rw [List.map_cons]
  by_cases hunit : escapePiece c = .glyph (.char c)
  · rw [hunit, Raw.text?]
  · have hcontrol : c.toNat < 0x20 := by
      by_contra hnot
      exact hunit (by simp [escapePiece, hnot])
    have hpiece : escapePiece c = .unit c.toNat := by
      rw [escapePiece] at hunit ⊢
      split
      · next hshort => exact absurd (if_pos hshort) hunit
      · rfl
    rw [hpiece]
    have hlow : ¬ (0xD800 ≤ c.toNat ∧ c.toNat < 0xDC00) := by omega
    have hmid : ¬ (0xDC00 ≤ c.toNat ∧ c.toNat < 0xE000) := by omega
    have hhigh : ¬ (0xD800 ≤ c.toNat ∧ c.toNat < 0xE000) := by omega
    cases cs with
    | nil => simp [Raw.text?, hhigh, Char.ofNat_toNat]
    | cons d cs =>
      rw [List.map_cons]
      cases hd : escapePiece d with
      | glyph g => simp [Raw.text?, hhigh, Char.ofNat_toNat]
      | unit u => rw [Raw.text?, if_neg hlow, if_neg hmid, Char.ofNat_toNat]

theorem string?_escapes (s : String) : Raw.string? (s.toList.map escapePiece) = some s := by
  have htext : ∀ cs : List Char, Raw.text? (cs.map escapePiece) = some cs := by
    intro cs
    induction cs with
    | nil => rfl
    | cons c cs ih => rw [text?_escapePiece, ih, Option.map_some]
  rw [Raw.string?, htext, Option.map_some, String.ofList_toList]

/-! ## Whole numbers -/

/-- The numeral that the text of a whole number is read as. -/
def wholeNumeral (n : Int) : Numeral := ⟨n < 0, decimalDigits n.natAbs, [], none⟩

theorem proper_wholeNumeral (n : Int) : (wholeNumeral n).Proper :=
  ⟨Text.exists_decimalDigits_eq_cons _, Text.decimalDigits_lt _, by simp [wholeNumeral],
    by simp [wholeNumeral]⟩

theorem intChars_eq (n : Int) : intChars n = (wholeNumeral n).chars := by
  cases n with
  | ofNat n =>
    rw [intChars, Text.decimal_eq_map]
    simp [Numeral.chars, Numeral.unsignedChars, Numeral.fractionChars, Numeral.exponentChars,
      wholeNumeral]
  | negSucc n =>
    rw [intChars, Text.decimal_eq_map]
    simp [Numeral.chars, Numeral.unsignedChars, Numeral.fractionChars, Numeral.exponentChars,
      wholeNumeral, Int.negSucc_lt_zero]

theorem value?_wholeNumeral {n : Int} (hlow : -(twoPow 63 : Int) ≤ n) (hhigh : n < twoPow 64) :
    (wholeNumeral n).value? = some (.int n) := by
  have h64 : (twoPow 64 : Int) = 2 * twoPow 63 := by decide
  have hlt : n.natAbs < Numeral.significandLimit := by
    rw [Numeral.significandLimit]
    omega
  have htake := Numeral.takeWhole_of_lt (decimalDigits n.natAbs) (s := 0)
    (by rw [← Text.natOfDigits, Text.natOfDigits_decimalDigits]; exact hlt)
  rw [← Text.natOfDigits, Text.natOfDigits_decimalDigits] at htake
  rw [Numeral.value?, wholeNumeral]
  simp only [htake]
  by_cases hneg : n < 0
  · have hfits : ¬ (n.natAbs = 0 ∨ twoPow 63 < n.natAbs) := by omega
    have habs : -(n.natAbs : Int) = n := by omega
    simp only [hneg, decide_true, Bool.not_true, Bool.false_eq_true, if_false, hfits, habs]
  · have habs : (n.natAbs : Int) = n := by omega
    simp [hneg, habs]

/-- A whole number that does not fit is not read as a whole number. -/
theorem value?_wholeNumeral_of_le {n : Nat} (h : twoPow 64 ≤ n) (m : Int) :
    (wholeNumeral n).value? ≠ some (.int m) := by
  have htake := Numeral.takeWhole_of_le (decimalDigits n) (s := 0) (by decide)
    (by rw [← Text.natOfDigits, Text.natOfDigits_decimalDigits]; exact h)
  rw [Numeral.value?, wholeNumeral]
  simp only [Int.natAbs_natCast, htake, if_true]
  intro hvalue
  obtain ⟨x, -, hx⟩ := Option.map_eq_some_iff.mp hvalue
  cases hx

/-! ## Values -/

mutual
/-- The raw form that the compact text of a value is read as. -/
def raw : Value → Raw
  | .null => .null
  | .bool b => .bool b
  | .int n => .num (wholeNumeral n)
  | .float x => .num x.numeral
  | .str s => .str (s.toList.map escapePiece)
  | .arr items => .arr (rawItems items)
  | .obj fields => .obj (rawFields fields)

/-- The raw forms of items. -/
def rawItems : List Value → List Raw
  | [] => []
  | v :: vs => v.raw :: rawItems vs

/-- The raw forms of fields. -/
def rawFields : List (String × Value) → List (List Piece × Raw)
  | [] => []
  | (k, v) :: fs => (k.toList.map escapePiece, v.raw) :: rawFields fs
end

/-- What the text of a value can start with. -/
theorem exists_chars_eq_cons (v : Value) :
    ∃ c cs, v.chars = c :: cs ∧ Raw.isSpace (.char c) = false ∧ c ≠ ']' := by
  cases v with
  | null => exact ⟨_, _, rfl, rfl, by decide⟩
  | bool b => cases b <;> exact ⟨_, _, rfl, rfl, by decide⟩
  | str s => exact ⟨_, _, rfl, rfl, by decide⟩
  | arr items => cases items <;> exact ⟨_, _, rfl, rfl, by decide⟩
  | obj fields => cases fields <;> exact ⟨_, _, rfl, rfl, by decide⟩
  | int n =>
    rw [chars, intChars_eq]
    exact Numeral.exists_chars_eq_cons (proper_wholeNumeral n)
  | float x =>
    rw [chars, Binary64.chars_numeral]
    exact Numeral.exists_chars_eq_cons x.proper_numeral

theorem valueAt?_bracket (bound : Nat) {c : Char} (hspace : Raw.isSpace (.char c) = false)
    (hclose : c ≠ ']') (gs : List Glyph) :
    Raw.valueAt? (bound + 1) (.char '[' :: .char c :: gs) =
      (Raw.itemsAt? bound (.char c :: gs)).map fun (items, tail) => (.arr items, tail) := by
  have hskip : Raw.skipSpace (.char c :: gs) = .char c :: gs := by
    rw [Raw.skipSpace, List.dropWhile_cons, if_neg (by simp [hspace])]
  have hopen : Raw.skipSpace (.char '[' :: .char c :: gs) = .char '[' :: .char c :: gs := rfl
  rw [Raw.valueAt?, hopen]
  simp only [hskip]
  split
  · next heq =>
    simp only [List.cons.injEq, Glyph.char.injEq] at heq
    exact absurd heq.1 hclose
  · rfl

/-- The text of a value is read as its raw form, whatever delimiter follows. -/
def ReadsBack (v : Value) : Prop :=
  ∀ (bound : Nat) (rest : List Glyph), 2 * v.chars.length + 1 ≤ bound →
    Raw.atDelimiter rest = true →
      Raw.valueAt? bound (v.chars.map .char ++ rest) = some (v.raw, rest)

theorem itemsAt?_chars {v : Value} {vs : List Value} (hv : v.ReadsBack)
    (hvs : ∀ w ∈ vs, w.ReadsBack) (bound : Nat)
    (hbound : 2 * (v.chars ++ itemChars vs).length + 2 ≤ bound) (rest : List Glyph) :
    Raw.itemsAt? bound ((v.chars ++ itemChars vs).map .char ++ rest) =
      some (rawItems (v :: vs), rest) := by
  induction vs generalizing v bound with
  | nil =>
    obtain ⟨bound, rfl⟩ : ∃ b, bound = b + 1 := ⟨bound - 1, by omega⟩
    rw [List.length_append] at hbound
    rw [itemChars, List.map_append, List.append_assoc, Raw.itemsAt?,
      hv bound _ (by omega) rfl]
    rfl
  | cons w ws ih =>
    obtain ⟨bound, rfl⟩ : ∃ b, bound = b + 1 := ⟨bound - 1, by omega⟩
    rw [List.forall_mem_cons] at hvs
    simp only [itemChars, List.length_append, List.length_cons] at hbound
    have htail := ih hvs.1 hvs.2 bound (by rw [List.length_append]; omega)
    rw [itemChars, List.map_append, List.append_assoc, Raw.itemsAt?,
      hv bound _ (by omega) rfl]
    simp only [Option.bind_eq_bind, Option.bind_some, List.map_cons, List.cons_append]
    show (Raw.itemsAt? bound _).bind _ = _
    rw [htail]
    rfl

theorem fieldsAt?_chars {k : String} {v : Value} {fs : List (String × Value)} (hv : v.ReadsBack)
    (hfs : ∀ f ∈ fs, f.2.ReadsBack) (bound : Nat)
    (hbound : 2 * (quote k ++ ':' :: (v.chars ++ fieldChars fs)).length + 2 ≤ bound)
    (rest : List Glyph) :
    Raw.fieldsAt? bound ((quote k ++ ':' :: (v.chars ++ fieldChars fs)).map .char ++ rest) =
      some (rawFields ((k, v) :: fs), rest) := by
  induction fs generalizing k v bound with
  | nil =>
    obtain ⟨bound, rfl⟩ : ∃ b, bound = b + 1 := ⟨bound - 1, by omega⟩
    simp only [fieldChars, List.length_append, List.length_cons] at hbound
    have hname := stringTail?_escapes k.toList
      ((':' :: (v.chars ++ fieldChars [])).map .char ++ rest)
    have hvalue := hv bound ((fieldChars []).map .char ++ rest) (by omega) rfl
    simp only [quote, List.map_append, List.map_cons, List.cons_append, List.append_assoc,
      List.nil_append] at hname hvalue ⊢
    rw [Raw.fieldsAt?]
    show (Raw.stringTail? _).bind _ = _
    rw [hname]
    show (Raw.valueAt? bound _).bind _ = _
    rw [hvalue]
    rfl
  | cons g gs ih =>
    obtain ⟨l, w⟩ := g
    obtain ⟨bound, rfl⟩ : ∃ b, bound = b + 1 := ⟨bound - 1, by omega⟩
    rw [List.forall_mem_cons] at hfs
    simp only [fieldChars, List.length_append, List.length_cons] at hbound
    have hname := stringTail?_escapes k.toList
      ((':' :: (v.chars ++ fieldChars ((l, w) :: gs))).map .char ++ rest)
    have hvalue := hv bound ((fieldChars ((l, w) :: gs)).map .char ++ rest) (by omega) rfl
    have htail := ih (k := l) hfs.1 hfs.2 bound
      (by simp only [List.length_append, List.length_cons]; omega)
    rw [fieldChars] at hname hvalue ⊢
    rw [quote]
    simp only [List.map_append, List.map_cons, List.cons_append, List.append_assoc,
      List.nil_append] at hname hvalue htail ⊢
    rw [Raw.fieldsAt?]
    show (Raw.stringTail? _).bind _ = _
    rw [hname]
    show (Raw.valueAt? bound _).bind _ = _
    rw [hvalue]
    show (Raw.fieldsAt? bound _).bind _ = _
    rw [htail]
    rfl

/-- The grammar step finds the raw form of every value. -/
theorem readsBack (v : Value) : v.ReadsBack := by
  induction v using byParts with
  | float x =>
    intro bound rest hbound hrest
    obtain ⟨bound, rfl⟩ : ∃ b, bound = b + 1 := ⟨bound - 1, by omega⟩
    rw [chars, Binary64.chars_numeral]
    exact Raw.valueAt?_chars x.proper_numeral bound hrest
  | null =>
    intro bound rest hbound _
    obtain ⟨bound, rfl⟩ : ∃ b, bound = b + 1 := ⟨bound - 1, by omega⟩
    rfl
  | bool b =>
    intro bound rest hbound _
    obtain ⟨bound, rfl⟩ : ∃ b, bound = b + 1 := ⟨bound - 1, by omega⟩
    cases b <;> rfl
  | int n =>
    intro bound rest hbound hrest
    obtain ⟨bound, rfl⟩ : ∃ b, bound = b + 1 := ⟨bound - 1, by omega⟩
    rw [chars, intChars_eq]
    exact Raw.valueAt?_chars (proper_wholeNumeral n) bound hrest
  | str s =>
    intro bound rest hbound _
    obtain ⟨bound, rfl⟩ : ∃ b, bound = b + 1 := ⟨bound - 1, by omega⟩
    have hname := stringTail?_escapes s.toList rest
    rw [chars, quote]
    simp only [List.map_append, List.map_cons, List.map_nil, List.cons_append,
      List.append_assoc, List.nil_append]
    show (Raw.stringTail? _).map _ = _
    rw [hname]
    rfl
  | arr items ih =>
    intro bound rest hbound _
    obtain ⟨bound, rfl⟩ : ∃ b, bound = b + 1 := ⟨bound - 1, by omega⟩
    cases items with
    | nil => rfl
    | cons v vs =>
      rw [List.forall_mem_cons] at ih
      rw [chars, List.length_cons] at hbound
      have hread := itemsAt?_chars ih.1 ih.2 bound (by omega) rest
      obtain ⟨c, cs, heq, hspace, hclose⟩ := exists_chars_eq_cons v
      rw [heq, List.cons_append, List.map_cons, List.cons_append] at hread
      rw [chars, heq, List.cons_append, List.map_cons, List.map_cons, List.cons_append,
        List.cons_append, valueAt?_bracket bound hspace hclose, hread]
      rfl
  | obj fields ih =>
    intro bound rest hbound _
    obtain ⟨bound, rfl⟩ : ∃ b, bound = b + 1 := ⟨bound - 1, by omega⟩
    match fields with
    | [] => rfl
    | (k, v) :: fs =>
      rw [List.forall_mem_cons] at ih
      rw [chars, List.length_cons] at hbound
      have hread := fieldsAt?_chars (k := k) (v := v) ih.1 ih.2 bound (by omega) rest
      have hopen : Raw.valueAt? (bound + 1) ((obj ((k, v) :: fs)).chars.map .char ++ rest) =
          (Raw.fieldsAt? bound ((quote k ++ ':' :: (v.chars ++ fieldChars fs)).map .char ++
            rest)).map fun found => (.obj found.1, found.2) := by
        rw [chars, quote]
        rfl
      rw [hopen, hread]
      rfl

/-! ## Whole texts -/

mutual
/-- The value that the text of a value is read back as. Only binary64 numbers can differ. -/
def reread : Value → Value
  | .float x => .float x.reread
  | .arr items => .arr (rereadItems items)
  | .obj fields => .obj (rereadFields fields)
  | v => v

/-- The items that the texts of items are read back as. -/
def rereadItems : List Value → List Value
  | [] => []
  | v :: vs => v.reread :: rereadItems vs

/-- The fields that the texts of fields are read back as. -/
def rereadFields : List (String × Value) → List (String × Value)
  | [] => []
  | (k, v) :: fs => (k, v.reread) :: rereadFields fs
end

theorem rereadItems_eq_map (vs : List Value) : rereadItems vs = vs.map reread := by
  induction vs with
  | nil => rfl
  | cons v vs ih => simp [rereadItems, ih]

theorem rereadFields_eq_map (fs : List (String × Value)) :
    rereadFields fs = fs.map fun f => (f.1, f.2.reread) := by
  induction fs with
  | nil => rfl
  | cons f fs ih => simp [rereadFields, ih]

/-- A value with whole numbers is read back as itself. -/
theorem Whole.reread_eq {v : Value} (h : v.Whole) : v.reread = v := by
  induction v using byParts with
  | float x => simp [Whole, every, isWhole64] at h
  | arr items ih =>
    have hparts := ((every_arr _ _).mp h).2
    rw [reread, rereadItems_eq_map, map_eq_self fun v hv => ih v hv (hparts v hv)]
  | obj fields ih =>
    have hparts := ((every_obj _ _).mp h).2
    have hfields : fields.map (fun f => (f.1, f.2.reread)) = fields :=
      map_eq_self fun f hf => Prod.ext rfl (ih f hf (hparts f hf))
    rw [reread, rereadFields_eq_map, hfields]
  | _ => rfl

theorem items?_rawItems {depth : Nat} {vs : List Value}
    (h : ∀ v ∈ vs, v.raw.value? depth = if v.depth ≤ depth then some v.reread else none) :
    Raw.items? depth (rawItems vs) =
      if depthItems vs ≤ depth then some (rereadItems vs) else none := by
  induction vs with
  | nil => rfl
  | cons v vs ih =>
    rw [List.forall_mem_cons] at h
    rw [rawItems, Raw.items?, h.1, ih h.2, depthItems, rereadItems]
    simp only [Nat.max_le]
    by_cases hv : v.depth ≤ depth <;> by_cases hvs : depthItems vs ≤ depth <;> simp [hv, hvs]

theorem fields?_rawFields {depth : Nat} {fs : List (String × Value)}
    (h : ∀ f ∈ fs, f.2.raw.value? depth = if f.2.depth ≤ depth then some f.2.reread else none) :
    Raw.fields? depth (rawFields fs) =
      if depthFields fs ≤ depth then some (rereadFields fs) else none := by
  induction fs with
  | nil => rfl
  | cons f fs ih =>
    obtain ⟨k, v⟩ := f
    rw [List.forall_mem_cons] at h
    rw [rawFields, Raw.fields?, string?_escapes, h.1, ih h.2, depthFields, rereadFields]
    simp only [Nat.max_le]
    by_cases hv : v.depth ≤ depth <;> by_cases hfs : depthFields fs ≤ depth <;> simp [hv, hfs]

/-- The raw form of a value with numbers of 64 bits has a value, unless it is nested too deep. -/
theorem Sized.value?_raw {v : Value} (h : v.Sized) (depth : Nat) :
    v.raw.value? depth = if v.depth ≤ depth then some v.reread else none := by
  induction v using byParts generalizing depth with
  | null => cases depth <;> rfl
  | bool b => cases depth <;> rfl
  | float x => cases depth <;> simp [raw, Raw.value?, x.value?_numeral, Value.depth, reread]
  | int n =>
    have hbounds : -(twoPow 63 : Int) ≤ n ∧ n < twoPow 64 := by
      simpa [Sized, every, isSized64] using h
    have hvalue := value?_wholeNumeral hbounds.1 hbounds.2
    cases depth <;> simp [raw, Raw.value?, hvalue, Value.depth, reread]
  | str s => cases depth <;> simp [raw, Raw.value?, string?_escapes, Value.depth, reread]
  | arr items ih =>
    have hparts := ((every_arr _ _).mp h).2
    cases depth with
    | zero => simp [raw, Raw.value?, Value.depth]
    | succ depth =>
      rw [raw, Raw.value?, items?_rawItems fun v hv => ih v hv (hparts v hv) depth, Value.depth,
        reread]
      by_cases hdepth : depthItems items ≤ depth <;> simp [hdepth]
  | obj fields ih =>
    have hparts := ((every_obj _ _).mp h).2
    cases depth with
    | zero => simp [raw, Raw.value?, Value.depth]
    | succ depth =>
      rw [raw, Raw.value?, fields?_rawFields fun f hf => ih f hf (hparts f hf) depth, Value.depth,
        reread]
      by_cases hdepth : depthFields fields ≤ depth <;> simp [hdepth]

theorem Sized.value?_raw_of_le {v : Value} (h : v.Sized) {depth : Nat} (hdepth : v.depth ≤ depth) :
    v.raw.value? depth = some v.reread := by
  rw [h.value?_raw, if_pos hdepth]

/-- The raw form of a value with whole numbers has that value, unless it is nested too deep. -/
theorem value?_raw {v : Value} (h : v.Whole) (depth : Nat) :
    v.raw.value? depth = if v.depth ≤ depth then some v else none := by
  rw [h.sized.value?_raw, h.reread_eq]

theorem read?_chars (v : Value) : Raw.read? (v.chars.map .char) = some v.raw := by
  have hread := readsBack v (2 * (v.chars.map Glyph.char).length + 1) []
    (Nat.le_of_eq (by rw [List.length_map])) rfl
  rw [List.append_nil] at hread
  rw [Raw.read?, hread]
  rfl

/-- The text of a value with numbers of 64 bits is read back, unless it is nested too deep. -/
theorem Sized.readAsWritten?_text {v : Value} (h : v.Sized) :
    readAsWritten? v.text = if v.depth ≤ depthLimit then some v.reread else none := by
  rw [readAsWritten?, text, String.toList_ofList, read?_chars]
  exact h.value?_raw depthLimit

/-- The text of a value with whole numbers is read as that value, unless it is nested too deep. -/
theorem readAsWritten?_text {v : Value} (h : v.Whole) :
    readAsWritten? v.text = if v.depth ≤ depthLimit then some v else none := by
  rw [h.sized.readAsWritten?_text, h.reread_eq]

/-- Fields stay in order where numbers are read back. -/
theorem Ordered.reread {v : Value} (h : v.Ordered) : v.reread.Ordered := by
  induction v using byParts with
  | arr items ih =>
    have hparts := ((every_arr _ _).mp h).2
    rw [Value.reread, rereadItems_eq_map]
    refine (every_arr _ _).mpr ⟨rfl, fun w hw => ?_⟩
    obtain ⟨v, hv, rfl⟩ := List.mem_map.mp hw
    exact ih v hv (hparts v hv)
  | obj fields ih =>
    obtain ⟨hnames, hparts⟩ := (every_obj _ _).mp h
    rw [Value.reread, rereadFields_eq_map]
    refine (every_obj _ _).mpr ⟨?_, fun g hg => ?_⟩
    · rw [hasOrder, List.map_map]
      exact hnames
    · obtain ⟨f, hf, rfl⟩ := List.mem_map.mp hg
      exact ih f hf (hparts f hf)
  | _ => exact h

theorem Sized.read?_text {v : Value} (hsized : v.Sized) (hordered : v.Ordered) :
    read? v.text = if v.depth ≤ depthLimit then some v.reread else none := by
  rw [read?, hsized.readAsWritten?_text]
  by_cases hdepth : v.depth ≤ depthLimit <;> simp [hdepth, hordered.reread.normalize_eq]

theorem read?_text {v : Value} (hwhole : v.Whole) (hordered : v.Ordered) :
    read? v.text = if v.depth ≤ depthLimit then some v else none := by
  rw [hwhole.sized.read?_text hordered, hwhole.reread_eq]

/-- A place in a value is read back with the value. -/
theorem at?_reread (path : List String) (v : Value) :
    v.reread.at? path = (v.at? path).map Value.reread := by
  induction path generalizing v with
  | nil => rfl
  | cons s rest ih =>
    cases v with
    | obj fields =>
      have hfield : Document.get? s (rereadFields fields) =
          (Document.get? s fields).map Value.reread := by
        induction fields with
        | nil => rfl
        | cons f fields ihf =>
          rw [rereadFields, Document.get?, Document.get?, ihf]
          split <;> rfl
      rw [Value.reread, Value.at?, Value.at?, hfield, Option.bind_map, Option.map_bind]
      exact Option.bind_congr fun v _ => ih v
    | arr items =>
      rw [Value.reread, Value.at?, Value.at?, rereadItems_eq_map]
      split
      · rw [List.getElem?_map, Option.bind_map, Option.map_bind]
        exact Option.bind_congr fun v _ => ih v
      · rfl
    | _ => rfl

end Value
end Quire
