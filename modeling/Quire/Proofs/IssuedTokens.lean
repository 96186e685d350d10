import Quire.Proofs.LiveCursors

/-!
# Issued tokens

The token of a document is made of base64 letters. It is decoded to the cursor of the document, and
of all format versions only the one that it was issued for accepts it.
-/
namespace Quire

/-! ## The alphabet -/

namespace Base64Url

/-- The characters of tokens: letters and digits, `-` and `_`. -/
def IsLetter (c : Char) : Prop := c.isAlphanum = true ∨ c = '-' ∨ c = '_'

instance (c : Char) : Decidable (IsLetter c) :=
  inferInstanceAs (Decidable (c.isAlphanum = true ∨ c = '-' ∨ c = '_'))

theorem isLetter_letter {n : Nat} (h : n < 64) : IsLetter (letter n) := by
  have hall : ∀ n < 64, IsLetter (letter n) := by decide
  exact hall n h

theorem isLetter_of_mem_encode {bs : List UInt8} {c : Char} (h : c ∈ encode bs) : IsLetter c := by
  obtain ⟨n, hn, rfl⟩ := exists_of_mem_encode bs c h
  exact isLetter_letter hn

end Base64Url

namespace Cursor

theorem isLetter_of_mem_token {c : Cursor} {ch : Char} (h : ch ∈ c.encode.toList) :
    Base64Url.IsLetter ch := by
  rw [encode, String.toList_ofList] at h
  exact Base64Url.isLetter_of_mem_encode h

/-! ## Decoding for a version and a sort order -/

/-- Too long a token is refused unread. -/
theorem decode_eq_error_of_tooLong {token : String} (h : tokenLimit < tokenLength token) :
    decode token = .error (.invalidCursor "cursor is too long") := by
  rw [tokenLength] at h
  have hbytes : (Text.utf8 token.toList).isEmpty = false := by
    rw [List.isEmpty_eq_false_iff, ← List.length_pos_iff]
    omega
  rw [decode, if_neg (by simp [hbytes]), if_pos h]

variable {token : String} {c : Cursor} {sort : SortOrder} {idField : String} {version : Nat}

/-- A cursor of another version is refused before its sort order is looked at. -/
theorem decodeFor_of_version_ne (h : decode token = .ok c) (hversion : version ≠ c.version) :
    decodeFor token sort idField version = .error (.cursorVersion version c.version) := by
  simp only [decodeFor, h, bind, Except.bind, checkVersion, if_neg (Ne.symm hversion)]

/-- A cursor of the right version is accepted if its sort order has the signature and the number of
fields. -/
theorem decodeFor_of_version_eq (h : decode token = .ok c) :
    decodeFor token sort idField c.version =
      if c.signature = sort.signature ∧
          c.values.length = (sort.names.filter (· != idField)).length then .ok c
      else .error .cursorSort := by
  simp only [decodeFor, h, bind, Except.bind, checkVersion, if_true, checkSort]
  by_cases hsort : c.signature = sort.signature ∧
      c.values.length = (sort.names.filter (· != idField)).length
  · simp only [if_pos hsort]
  · simp only [if_neg hsort]

/-! ## Documents -/

/-- The values of a document that its cursor captures: the identifier and the values of the other
sort fields. -/
def captured (d : Document) (sort : SortOrder) (idField : String) : List Value :=
  (Collection.idOf? idField d).toList ++ (sort.names.filter (· != idField)).map d.fieldOrNull

instance (v : Value) : Decidable (Carries v) :=
  decidable_of_iff (v.Whole ∧ v.Ordered ∧ v.depth + 2 ≤ Value.depthLimit)
    ⟨fun h => ⟨h.1, h.2.1, h.2.2⟩, fun h => ⟨h.whole, h.ordered, h.depth_le⟩⟩

variable {d : Document}

/-- A cursor holds what it captures. -/
theorem plain_of_ofDocument (h : ofDocument d sort idField version = .ok c)
    (hversion : version < twoPow 32) (hcaptured : ∀ v ∈ captured d sort idField, Carries v) :
    c.Plain := by
  obtain ⟨hid, hcversion, -, hvalues⟩ := of_ofDocument h
  refine ⟨hcversion ▸ hversion, fun v hv => hcaptured v ?_, hcaptured c.id ?_⟩
  · rw [hvalues] at hv
    exact List.mem_append_right _ hv
  · rw [captured, hid]
    exact List.mem_append_left _ (List.mem_singleton.mpr rfl)

/-- The token of a document is a text of base64 letters. If it is not too long, it is decoded to the
cursor of the document, and accepted for the sort order and for no other version than its own. If it
is too long, it is refused. -/
theorem token_round_trip (hversion : version < twoPow 32) (hsort : sort.fields ≠ [])
    (hid : (Collection.idOf? idField d).isSome = true)
    (hcaptured : ∀ v ∈ captured d sort idField, Carries v) :
    ∃ c, ofDocument d sort idField version = .ok c ∧
      (∀ ch ∈ c.encode.toList, Base64Url.IsLetter ch) ∧
      (tokenLength c.encode ≤ tokenLimit →
        decode c.encode = .ok c ∧
        decodeFor c.encode sort idField version = .ok c ∧
        ∀ other, other ≠ version →
          decodeFor c.encode sort idField other = .error (.cursorVersion other version)) ∧
      (tokenLimit < tokenLength c.encode →
        decode c.encode = .error (.invalidCursor "cursor is too long")) := by
  obtain ⟨c, hc⟩ := exists_ofDocument_of_ne_nil hsort hid version
  obtain ⟨-, rfl, hsignature, hvalues⟩ := of_ofDocument hc
  have hplain := plain_of_ofDocument hc hversion hcaptured
  have hcount : c.values.length = (sort.names.filter (· != idField)).length := by
    rw [hvalues, List.length_map]
  refine ⟨c, hc, fun ch hch => isLetter_of_mem_token hch, fun hlen => ?_,
    decode_eq_error_of_tooLong⟩
  have hdecode := hplain.decode_encode hlen
  exact ⟨hdecode, hplain.decodeFor_encode hlen hsignature hcount,
    fun other hother => decodeFor_of_version_ne hdecode hother⟩

/-- A row with a text to escape, the ends of the numbers and a nested value. -/
def mixedRow : Document :=
  [("at", .str "\"é\" \\ \n"), ("id", .int (-9223372036854775808)),
    ("tags", .arr [.null, .obj [("n", .int 18446744073709551615)]])]

/-- The order of mixed rows. -/
def byTimeAndTags : SortOrder := ⟨[⟨"at", .desc⟩, ⟨"tags", .asc⟩, ⟨"id", .asc⟩]⟩

/-- The token of the mixed row is accepted for its own version and refused for the next one. -/
theorem token_round_trip_mixedRow :
    ∃ c, ofDocument mixedRow byTimeAndTags "id" 1 = .ok c ∧
      decodeFor c.encode byTimeAndTags "id" 1 = .ok c ∧
      decodeFor c.encode byTimeAndTags "id" 2 = .error (.cursorVersion 2 1) := by
  have hcaptured : ∀ v ∈ captured mixedRow byTimeAndTags "id", Carries v := by decide +kernel
  have hshort : ((ofDocument mixedRow byTimeAndTags "id" 1).toOption.all fun c =>
      tokenLength c.encode ≤ tokenLimit) = true := by decide +kernel
  have hversion : 1 < twoPow 32 := by decide
  have hsort : byTimeAndTags.fields ≠ [] := List.cons_ne_nil _ _
  have hid : (Collection.idOf? "id" mixedRow).isSome = true := rfl
  obtain ⟨c, hc, -, haccepted, -⟩ := token_round_trip hversion hsort hid hcaptured
  have hlen : tokenLength c.encode ≤ tokenLimit := by
    simpa [hc, Except.toOption] using hshort
  exact ⟨c, hc, (haccepted hlen).2.1, (haccepted hlen).2.2 2 (by decide)⟩

end Cursor
end Quire
