import Quire.Cursor
import Quire.Proofs.Base64Url
import Quire.Proofs.JsonText

/-!
# Cursor tokens

A token is decoded if it is not too long and the values of its cursor are not nested too deep. It
then stands for the cursor as it is read back, which is the cursor itself where all numbers are
whole and all fields in order.
-/
namespace Quire

open Text (Glyph)

namespace Cursor

/-- The number of bytes of a token. -/
def tokenLength (token : String) : Nat := (Text.utf8 token.toList).length

/-- A value that a token can carry: whole numbers, fields in order, and not nested too deep. -/
structure Carries (v : Value) : Prop where
  whole : v.Whole
  ordered : v.Ordered
  depth_le : v.depth + 2 ≤ Value.depthLimit

/-- A cursor that a token can carry. -/
structure Plain (c : Cursor) : Prop where
  version_lt : c.version < twoPow 32
  values : ∀ v ∈ c.values, Carries v
  id : Carries c.id

/-- Fields with names of the envelope are all taken over. -/
theorem envelopeFields?_rawFields {fs : List (String × Value)}
    (h : ∀ f ∈ fs, f.1 ∈ fieldNames ∧
      f.2.raw.value? (Value.depthLimit - 1) = some f.2.reread) :
    envelopeFields? (Value.rawFields fs) = some (Value.rereadFields fs) := by
  induction fs with
  | nil => rfl
  | cons f fs ih =>
    obtain ⟨k, v⟩ := f
    rw [List.forall_mem_cons] at h
    have hname : fieldNames.contains k = true := List.elem_eq_true_of_mem h.1.1
    rw [Value.rawFields, envelopeFields?, Value.string?_escapes, ih h.2]
    simp only [Option.bind_eq_bind, Option.bind_some, hname, h.1.2, if_true, Value.rereadFields]

/-- The values of the envelope, in the order of writing. -/
def envelopeValues (c : Cursor) : List Value :=
  [.nat c.version, .str c.signature, .str c.primary, .arr c.values, c.id]

/-- The fields of the envelope. -/
def envelope (c : Cursor) : List (String × Value) := fieldNames.zip c.envelopeValues

theorem toValue_eq_obj (c : Cursor) : c.toValue = .obj c.envelope := rfl

theorem mapM_get?_envelope (c : Cursor) :
    fieldNames.mapM (fun name => Document.get? name (Value.rereadFields c.envelope)) =
      some (c.envelopeValues.map Value.reread) := by
  simp [fieldNames, envelope, envelopeValues, Value.rereadFields, Document.get?]

/-- A cursor whose numbers have 64 bits, and whose version has its width. -/
structure Sized (c : Cursor) : Prop where
  version_lt : c.version < twoPow 32
  values : ∀ v ∈ c.values, v.Sized
  id : c.id.Sized

/-- The values of a cursor are not nested too deep for a token. -/
structure Shallow (c : Cursor) : Prop where
  values : ∀ v ∈ c.values, v.depth + 2 ≤ Value.depthLimit
  id : c.id.depth + 1 ≤ Value.depthLimit

instance (c : Cursor) : Decidable c.Shallow :=
  decidable_of_iff
    ((∀ v ∈ c.values, v.depth + 2 ≤ Value.depthLimit) ∧ c.id.depth + 1 ≤ Value.depthLimit)
    ⟨fun h => ⟨h.1, h.2⟩, fun h => ⟨h.values, h.id⟩⟩

theorem Plain.sized {c : Cursor} (h : c.Plain) : c.Sized :=
  ⟨h.version_lt, fun v hv => (h.values v hv).whole.sized, h.id.whole.sized⟩

theorem Plain.shallow {c : Cursor} (h : c.Plain) : c.Shallow :=
  ⟨fun v hv => (h.values v hv).depth_le, Nat.le_of_succ_le h.id.depth_le⟩

theorem depth_arr_le_iff (c : Cursor) :
    (Value.arr c.values).depth ≤ Value.depthLimit - 1 ↔
      ∀ v ∈ c.values, v.depth + 2 ≤ Value.depthLimit := by
  have hlimit : Value.depthLimit = 127 := rfl
  have hdepth : (Value.arr c.values).depth ≤ Value.depthLimit - 1 ↔
      Value.depthItems c.values ≤ Value.depthLimit - 2 := by
    rw [Value.depth]
    omega
  rw [hdepth, Value.depthItems_le_iff]
  constructor
  · intro h v hv
    have hle := h v hv
    omega
  · intro h v hv
    have hle := h v hv
    omega

/-- The values of the envelope are read back below it. -/
theorem Sized.value?_raw {c : Cursor} (h : c.Sized) (hshallow : c.Shallow) :
    ∀ v ∈ c.envelopeValues, v.raw.value? (Value.depthLimit - 1) = some v.reread := by
  have hversion : (Value.nat c.version).Sized := by
    have hlt := h.version_lt
    have h32 : twoPow 32 < twoPow 64 := by decide
    simp only [Value.Sized, Value.nat, Value.every, Value.isSized64, Bool.and_eq_true,
      decide_eq_true_eq]
    omega
  have hsignature : (Value.str c.signature).Sized := rfl
  have hprimary : (Value.str c.primary).Sized := rfl
  have hvalues : (Value.arr c.values).Sized := (Value.every_arr _ _).mpr ⟨rfl, h.values⟩
  have hdepth := (depth_arr_le_iff c).mpr hshallow.values
  have hid : c.id.depth ≤ Value.depthLimit - 1 := Nat.le_sub_one_of_lt hshallow.id
  simp only [envelopeValues, List.forall_mem_cons]
  refine ⟨?_, ?_, ?_, ?_, ?_, by simp⟩
  · exact hversion.value?_raw_of_le (Nat.zero_le _)
  · exact hsignature.value?_raw_of_le (Nat.zero_le _)
  · exact hprimary.value?_raw_of_le (Nat.zero_le _)
  · exact hvalues.value?_raw_of_le hdepth
  · exact h.id.value?_raw_of_le hid

/-- The cursor that a token is read back as: its numbers are read back, and the fields of objects
are in order. -/
def reread (c : Cursor) : Cursor :=
  { c with values := c.values.map fun v => v.reread.normalize, id := c.id.reread.normalize }

theorem Carries.reread_eq {v : Value} (h : Carries v) : v.reread.normalize = v := by
  rw [h.whole.reread_eq, h.ordered.normalize_eq]

theorem Plain.reread_eq {c : Cursor} (h : c.Plain) : c.reread = c := by
  have hvalues : (c.values.map fun v => v.reread.normalize) = c.values := by
    exact Value.map_eq_self fun v hv => (h.values v hv).reread_eq
  rw [reread, hvalues, h.id.reread_eq]

theorem ofValues?_envelopeValues {c : Cursor} (h : c.version < twoPow 32) :
    ofValues? ((c.envelopeValues.map Value.reread).map Value.normalize) = some c.reread := by
  have hversion : (0 : Int) ≤ c.version ∧ (c.version : Int) < twoPow 32 := by omega
  simp only [envelopeValues, Value.nat, List.map_cons, List.map_nil, Value.reread,
    Value.normalize, ofValues?, if_pos hversion, Value.rereadItems_eq_map,
    Value.normalizeItems_eq_map, List.map_map, Int.toNat_natCast]
  rfl

theorem ofRaw?_obj {fields : List (List Piece × Raw)} {known : List (String × Value)}
    {values : List Value} (hknown : envelopeFields? fields = some known)
    (hlen : known.length = fieldNames.length)
    (hvalues : fieldNames.mapM (fun name => Document.get? name known) = some values) :
    ofRaw? (.obj fields) = ofValues? (values.map Value.normalize) := by
  simp only [ofRaw?, hknown, hvalues, Option.bind_eq_bind, Option.bind_some, if_pos hlen]

/-- The envelope is read back if its values are not nested too deep. -/
theorem Sized.ofRaw?_raw {c : Cursor} (h : c.Sized) (hshallow : c.Shallow) :
    ofRaw? c.toValue.raw = some c.reread := by
  have hknown : envelopeFields? (Value.rawFields c.envelope) =
      some (Value.rereadFields c.envelope) := by
    refine envelopeFields?_rawFields fun f hf => ?_
    obtain ⟨hname, hvalue⟩ := List.of_mem_zip hf
    exact ⟨hname, h.value?_raw hshallow f.2 hvalue⟩
  rw [toValue_eq_obj, Value.raw, ofRaw?_obj hknown rfl c.mapM_get?_envelope,
    ofValues?_envelopeValues h.version_lt]

/-- A field of the envelope that cannot be read spoils it. -/
theorem envelopeFields?_eq_none {fs : List (String × Value)} {f : String × Value} (hf : f ∈ fs)
    (hname : f.1 ∈ fieldNames) (hvalue : f.2.raw.value? (Value.depthLimit - 1) = none) :
    envelopeFields? (Value.rawFields fs) = none := by
  induction fs with
  | nil => cases hf
  | cons g fs ih =>
    obtain ⟨k, v⟩ := g
    rw [Value.rawFields, envelopeFields?, Value.string?_escapes]
    rcases List.mem_cons.mp hf with rfl | hf
    · have hknown : k ∈ fieldNames := hname
      cases envelopeFields? (Value.rawFields fs) <;> simp [hknown, hvalue]
    · simp [ih hf]

/-- The envelope is not read back if a value is nested too deep. -/
theorem Sized.ofRaw?_raw_eq_none {c : Cursor} (h : c.Sized) (hdeep : ¬ c.Shallow) :
    ofRaw? c.toValue.raw = none := by
  have hunread : envelopeFields? (Value.rawFields c.envelope) = none := by
    by_cases hvalues : ∀ v ∈ c.values, v.depth + 2 ≤ Value.depthLimit
    · have hid : ¬ c.id.depth ≤ Value.depthLimit - 1 := by
        intro hle
        refine hdeep ⟨hvalues, ?_⟩
        have hlimit : Value.depthLimit = 127 := rfl
        omega
      have hvalue := (h.id.value?_raw (Value.depthLimit - 1)).trans (if_neg hid)
      exact envelopeFields?_eq_none (f := ("i", c.id)) (by simp [envelope, fieldNames,
        envelopeValues]) (by simp [fieldNames]) hvalue
    · have hsized : (Value.arr c.values).Sized := (Value.every_arr _ _).mpr ⟨rfl, h.values⟩
      have hvalue := (hsized.value?_raw (Value.depthLimit - 1)).trans
        (if_neg fun hle => hvalues ((depth_arr_le_iff c).mp hle))
      exact envelopeFields?_eq_none (f := ("k", .arr c.values)) (by simp [envelope, fieldNames,
        envelopeValues]) (by simp [fieldNames]) hvalue
  rw [toValue_eq_obj, Value.raw, ofRaw?, hunread]
  rfl

theorem utf8_ne_nil {cs : List Char} (h : cs ≠ []) : Text.utf8 cs ≠ [] := by
  cases cs with
  | nil => exact absurd rfl h
  | cons c cs =>
    rw [Text.utf8, List.flatMap_cons, Text.utf8Char]
    split
    · simp
    · split
      · simp
      · split <;> simp

theorem encode_ne_nil {bs : List UInt8} (h : bs ≠ []) : Base64Url.encode bs ≠ [] := by
  match bs with
  | [] => exact absurd rfl h
  | [_] | [_, _] | _ :: _ :: _ :: _ => simp [Base64Url.encode]

/-- A token that is not too long is decoded through its envelope. -/
theorem decode_encode_eq {c : Cursor}
    (hlen : tokenLength c.encode ≤ tokenLimit) :
    decode c.encode =
      (ofRaw? c.toValue.raw).elim (.error (.invalidCursor "malformed envelope")) .ok := by
  have hchars : c.toValue.chars ≠ [] := by
    rw [toValue, Value.chars]
    exact List.cons_ne_nil _ _
  have hbytes : (Text.utf8 c.encode.toList).isEmpty = false := by
    rw [encode, String.toList_ofList, List.isEmpty_eq_false_iff]
    exact utf8_ne_nil (encode_ne_nil (utf8_ne_nil hchars))
  have hread : Raw.read? (Text.glyphs (Text.utf8 c.toValue.chars)) = some c.toValue.raw := by
    rw [Text.glyphs_utf8]
    exact Value.read?_chars _
  rw [tokenLength] at hlen
  rw [decode, if_neg (by simp [hbytes]), if_neg (Nat.not_lt.mpr hlen), encode,
    String.toList_ofList, Base64Url.decode_trim_encode]
  simp only [hread, Option.bind_some]
  cases ofRaw? c.toValue.raw with
  | none => rfl
  | some d => rfl

/-- Decoding a token gives its cursor back if the token is not too long and the values are not
nested too deep. -/
theorem Sized.decode_encode {c : Cursor} (h : c.Sized)
    (hlen : tokenLength c.encode ≤ tokenLimit) (hshallow : c.Shallow) :
    decode c.encode = .ok c.reread := by
  rw [decode_encode_eq hlen, h.ofRaw?_raw hshallow, Option.elim_some]

/-- Any other token is refused. -/
theorem Sized.exists_decode_encode_eq_error {c : Cursor} (h : c.Sized)
    (hunfit : ¬ (tokenLength c.encode ≤ tokenLimit ∧ c.Shallow)) :
    ∃ text, decode c.encode = .error (.invalidCursor text) := by
  by_cases hlen : tokenLength c.encode ≤ tokenLimit
  · rw [decode_encode_eq hlen, h.ofRaw?_raw_eq_none fun hshallow => hunfit ⟨hlen, hshallow⟩,
      Option.elim_none]
    exact ⟨_, rfl⟩
  · rw [tokenLength, Nat.not_le] at hlen
    have hbytes : (Text.utf8 c.encode.toList).isEmpty = false := by
      rw [List.isEmpty_eq_false_iff, ← List.length_pos_iff]
      omega
    rw [decode, if_neg (by simp [hbytes]), if_pos hlen]
    exact ⟨_, rfl⟩

theorem Plain.decode_encode {c : Cursor} (h : c.Plain) (hlen : tokenLength c.encode ≤ tokenLimit) :
    decode c.encode = .ok c := by
  rw [h.sized.decode_encode hlen h.shallow, h.reread_eq]

/-- A token is accepted for the version and the sort order that it was issued for. -/
theorem Sized.decodeFor_encode {c : Cursor} (h : c.Sized)
    (hlen : tokenLength c.encode ≤ tokenLimit) (hshallow : c.Shallow) {sort : SortOrder}
    {idField : String} (hsignature : c.signature = sort.signature)
    (hvalues : c.values.length = (sort.names.filter (· != idField)).length) :
    decodeFor c.encode sort idField c.version = .ok c.reread := by
  have hrereadVersion : c.reread.version = c.version := rfl
  have hrereadSort : c.reread.signature = sort.signature ∧
      c.reread.values.length = (sort.names.filter (· != idField)).length := by
    refine ⟨hsignature, ?_⟩
    rw [reread, List.length_map, hvalues]
  simp only [decodeFor, h.decode_encode hlen hshallow, bind, Except.bind, checkVersion,
    hrereadVersion, if_true, checkSort, if_pos hrereadSort]

theorem Plain.decodeFor_encode {c : Cursor} (h : c.Plain)
    (hlen : tokenLength c.encode ≤ tokenLimit) {sort : SortOrder} {idField : String}
    (hsignature : c.signature = sort.signature)
    (hvalues : c.values.length = (sort.names.filter (· != idField)).length) :
    decodeFor c.encode sort idField c.version = .ok c := by
  rw [h.sized.decodeFor_encode hlen h.shallow hsignature hvalues, h.reread_eq]

end Cursor

/-! ## Lengths of tokens -/

theorem Base64Url.length_encode (bs : List UInt8) :
    (encode bs).length = (4 * bs.length + 2) / 3 := by
  induction bs using encode.induct with
  | case1 a b c rest ih =>
    simp only [encode, List.length_cons, ih]
    omega
  | case2 a b => simp [encode]
  | case3 a => simp [encode]
  | case4 => rfl

namespace Value

theorem length_le_length_quote (s : String) : s.toList.length ≤ (quote s).length := by
  have hescape : ∀ cs : List Char, cs.length ≤ (cs.flatMap escape).length := by
    intro cs
    induction cs with
    | nil => exact Nat.le_refl 0
    | cons c cs ih =>
      have hpos : 1 ≤ (escape c).length := by
        rw [escape]
        repeat' split
        all_goals simp
      rw [List.flatMap_cons, List.length_append, List.length_cons]
      omega
  have hchars := hescape s.toList
  rw [quote, List.length_cons, List.length_append]
  omega

theorem length_itemChars_le (items : List Value) :
    (itemChars items).length ≤ (arr items).chars.length := by
  cases items with
  | nil => simp [itemChars, chars]
  | cons v vs => simp [itemChars, chars]

theorem length_fieldChars_le (fields : List (String × Value)) :
    (fieldChars fields).length ≤ (obj fields).chars.length := by
  rcases fields with _ | ⟨⟨k, v⟩, fs⟩
  · simp [fieldChars, chars]
  · simp [fieldChars, chars]

theorem length_chars_le_of_mem_items {v : Value} {items : List Value} (h : v ∈ items) :
    v.chars.length ≤ (arr items).chars.length := by
  refine Nat.le_trans ?_ (length_itemChars_le items)
  induction items with
  | nil => cases h
  | cons w items ih =>
    rw [itemChars, List.length_cons, List.length_append]
    rcases List.mem_cons.mp h with rfl | h
    · omega
    · have hle := ih h
      omega

theorem length_chars_le_of_mem_fields {k : String} {v : Value} {fields : List (String × Value)}
    (h : (k, v) ∈ fields) : v.chars.length ≤ (obj fields).chars.length := by
  refine Nat.le_trans ?_ (length_fieldChars_le fields)
  induction fields with
  | nil => cases h
  | cons g fields ih =>
    obtain ⟨l, w⟩ := g
    rw [fieldChars, List.length_cons, List.length_append, List.length_cons, List.length_append]
    rcases List.mem_cons.mp h with heq | h
    · cases heq
      omega
    · have hle := ih h
      omega

end Value

/-- A token is not shorter than any text in its cursor. -/
theorem Cursor.length_le_tokenLength {c : Cursor} {s : String} (h : Value.str s ∈ c.values) :
    s.toList.length ≤ tokenLength c.encode := by
  have hvalues : ("k", Value.arr c.values) ∈ c.envelope := by
    simp [envelope, fieldNames, envelopeValues]
  have hchars : s.toList.length ≤ c.toValue.chars.length := by
    calc s.toList.length
      _ ≤ (Value.str s).chars.length := Value.length_le_length_quote s
      _ ≤ (Value.arr c.values).chars.length := Value.length_chars_le_of_mem_items h
      _ ≤ c.toValue.chars.length := Value.length_chars_le_of_mem_fields hvalues
  have hbytes := Text.length_le_length_utf8 c.toValue.chars
  have hletters := Text.length_le_length_utf8 (Base64Url.encode (Text.utf8 c.toValue.chars))
  rw [Base64Url.length_encode] at hletters
  rw [tokenLength, encode, String.toList_ofList]
  omega

end Quire
