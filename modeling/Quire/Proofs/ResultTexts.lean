import Quire.Proofs.JsonText
import Quire.Wire.Page

/-!
# Texts of documents and list results

A document is read back from its text, or not at all where it is nested too deep. A list result is
read back from its text, or not at all where one of its counts does not fit or a document is
nested too deep.
-/
namespace Quire

theorem Document.ofText?_text_of_sized {d : Document} (hsized : (Value.obj d).Sized)
    (hordered : (Value.obj d).Ordered) :
    Document.ofText? (Value.obj d).text =
      if (Value.obj d).depth ≤ Value.depthLimit then some (Value.rereadFields d) else none := by
  rw [Document.ofText?, hsized.read?_text hordered]
  split <;> rfl

theorem Document.ofText?_text {d : Document} (hwhole : (Value.obj d).Whole)
    (hordered : (Value.obj d).Ordered) :
    Document.ofText? (Value.obj d).text =
      if (Value.obj d).depth ≤ Value.depthLimit then some d else none := by
  have hsame : Value.rereadFields d = d := Value.obj.inj hwhole.reread_eq
  rw [Document.ofText?_text_of_sized hwhole.sized hordered, hsame]

/-- The fields of a document are read back with it. -/
theorem Document.fieldOrNull_of_ofText? {d e : Document} (hsized : (Value.obj d).Sized)
    (hordered : (Value.obj d).Ordered) (h : Document.ofText? (Value.obj d).text = some e)
    (path : String) : e.fieldOrNull path = (d.fieldOrNull path).reread := by
  rw [Document.ofText?_text_of_sized hsized hordered] at h
  split at h
  · cases h
    have hplace := Value.at?_reread (segments path) (.obj d)
    rw [Value.reread] at hplace
    rw [fieldOrNull, fieldOrNull, getPath?, getPath?, at?, at?, hplace]
    cases Value.at? (segments path) (.obj d) <;> rfl
  · cases h

/-! ## Fields -/

namespace Document

/-- Writing fields of different names one after another keeps them all. -/
theorem get?_ofFields {fields : List (String × Value)} (h : (fields.map Prod.fst).Nodup)
    (name : String) : get? name (ofFields fields) = get? name fields := by
  have hfold : ∀ (fs : List (String × Value)) (d : Document), (fs.map Prod.fst).Nodup →
      get? name (fs.foldl (fun d f => set f.1 f.2 d) d) = (get? name fs).or (get? name d) := by
    intro fs
    induction fs with
    | nil => exact fun _ _ => rfl
    | cons f fs ih =>
      intro d hd
      obtain ⟨k, v⟩ := f
      rw [List.map_cons, List.nodup_cons] at hd
      rw [List.foldl_cons, ih _ hd.2, get?]
      split
      · next hk =>
        subst hk
        have hnone : get? k fs = none := by
          cases hget : get? k fs with
          | none => rfl
          | some w => exact absurd (List.mem_map_of_mem (mem_of_get? hget)) hd.1
        rw [hnone, get?_set_self]
        rfl
      · next hk => rw [get?_set_of_ne (Ne.symm hk)]
  rw [ofFields, hfold fields [] h, get?_nil, Option.or_none]

theorem get?_eq_none_iff {name : String} {fields : List (String × Value)} :
    get? name fields = none ↔ name ∉ fields.map Prod.fst := by
  induction fields with
  | nil => simp
  | cons f fields ih =>
    obtain ⟨k, v⟩ := f
    rw [get?, List.map_cons, List.mem_cons, not_or, ← ih]
    by_cases hk : k = name
    · simp [hk]
    · simp [hk, Ne.symm hk]

/-- Which fields are there depends on the names only. -/
theorem get?_eq_none_of_names {fields others : List (String × Value)}
    (h : others.map Prod.fst = fields.map Prod.fst) {name : String}
    (hnone : get? name fields = none) : get? name others = none := by
  rw [get?_eq_none_iff] at hnone ⊢
  rwa [h]

theorem get?_normalizeFields (name : String) (fields : List (String × Value)) :
    get? name (Value.normalizeFields fields) = (get? name fields).map Value.normalize := by
  induction fields with
  | nil => rfl
  | cons f fields ih =>
    obtain ⟨k, v⟩ := f
    rw [Value.normalizeFields, get?, get?, ih]
    split <;> rfl

end Document

/-- A field is read back under its name, if the fields are read at all. -/
theorem Raw.get?_of_fields? {depth : Nat} {fs gs : List (String × Value)}
    (h : Raw.fields? depth (Value.rawFields fs) = some gs) :
    gs.map Prod.fst = fs.map Prod.fst ∧
      ∀ name v, Document.get? name fs = some v →
        ∃ w, Document.get? name gs = some w ∧ v.raw.value? depth = some w := by
  induction fs generalizing gs with
  | nil =>
    cases h
    exact ⟨rfl, fun name v hv => by cases hv⟩
  | cons f fs ih =>
    obtain ⟨k, v⟩ := f
    rw [Value.rawFields, Raw.fields?, Value.string?_escapes] at h
    simp only [Option.bind_eq_bind, Option.bind_some, Option.bind_eq_some_iff,
      Option.some.injEq] at h
    obtain ⟨w, hw, rest, hrest, rfl⟩ := h
    obtain ⟨hnames, hget⟩ := ih hrest
    refine ⟨by rw [List.map_cons, List.map_cons, hnames], fun name u hu => ?_⟩
    rw [Document.get?] at hu ⊢
    split at hu
    · next hk =>
      cases hu
      exact ⟨w, if_pos hk, hw⟩
    · next hk =>
      rw [if_neg hk]
      exact hget name u hu

namespace Value

/-- What is read of a value with whole numbers is the value. -/
theorem normalize_of_value?_raw {v w : Value} (hwhole : v.Whole) (hordered : v.Ordered)
    {depth : Nat} (h : v.raw.value? depth = some w) : w.normalize = v := by
  rw [value?_raw hwhole] at h
  split at h
  · cases h
    exact hordered.normalize_eq
  · cases h

/-- What is read of a count is the count, if it is read as a count at all. -/
theorem nat64?_of_value?_raw {n m : Nat} {w : Value} {depth : Nat}
    (h : (Value.nat n).raw.value? depth = some w) (hm : Wire.nat64? w.normalize = some m) :
    m = n := by
  have hnumeral : (wholeNumeral n).value? = some w := by
    rw [← h]
    cases depth <;> rfl
  cases w with
  | int k =>
    by_cases hfits : n < twoPow 64
    · rw [value?_wholeNumeral (by omega) (by omega)] at hnumeral
      cases hnumeral
      simp only [normalize, Wire.nat64?, unsigned64?] at hm
      split at hm
      · cases hm
        rfl
      · cases hm
    · exact absurd hnumeral (value?_wholeNumeral_of_le (Nat.le_of_not_lt hfits) k)
  | _ => simp [normalize, Wire.nat64?, unsigned64?] at hm

end Value

/-- The fields of a record as they come back from its text. -/
structure ReadFrom (fields : List (String × Value)) (d : Document) : Prop where
  given : ∀ name v, Document.get? name fields = some v →
    ∃ w, d.get? name = some w.normalize ∧ v.raw.value? (Value.depthLimit - 1) = some w
  absent : ∀ name, Document.get? name fields = none → d.get? name = none

namespace ReadFrom

variable {fields : List (String × Value)} {d : Document} {name : String}

theorem get?_of_whole (h : ReadFrom fields d) {v : Value} (hv : Document.get? name fields = some v)
    (hwhole : v.Whole) (hordered : v.Ordered) : d.get? name = some v := by
  obtain ⟨w, hw, hread⟩ := h.given name v hv
  rw [hw, Value.normalize_of_value?_raw hwhole hordered hread]

/-- A count is read as it was written. -/
theorem eq_of_nat (h : ReadFrom fields d) {n m : Nat}
    (hn : Document.get? name fields = some (.nat n))
    (hm : (Wire.objectSlot d name).required Wire.nat64? = some m) : m = n := by
  obtain ⟨w, hw, hread⟩ := h.given name _ hn
  rw [Wire.objectSlot, hw] at hm
  exact Value.nat64?_of_value?_raw hread hm

end ReadFrom

/-- The text of a record with different names is read as a record with its fields. -/
theorem exists_readFrom {fields : List (String × Value)} {written : Value}
    (hnames : (fields.map Prod.fst).Nodup)
    (h : Value.readAsWritten? (Value.obj fields).text = some written) :
    ∃ d, written.normalize = .obj d ∧ ReadFrom fields d := by
  rw [Value.readAsWritten?, Value.text, String.toList_ofList, Value.read?_chars,
    Option.bind_some, Value.raw, Value.depthLimit, Raw.value?] at h
  obtain ⟨gs, hgs, rfl⟩ := Option.map_eq_some_iff.mp h
  obtain ⟨hgnames, hget⟩ := Raw.get?_of_fields? hgs
  have hnodup : ((Value.normalizeFields gs).map Prod.fst).Nodup := by
    have hmap : (Value.normalizeFields gs).map Prod.fst = gs.map Prod.fst := by
      rw [Value.normalizeFields_eq_map, List.map_map]
      rfl
    rw [hmap, hgnames]
    exact hnames
  have hread : ∀ name, Document.get? name (Document.ofFields (Value.normalizeFields gs)) =
      (Document.get? name gs).map Value.normalize := fun name => by
    rw [Document.get?_ofFields hnodup, Document.get?_normalizeFields]
  refine ⟨_, rfl, fun name v hv => ?_, fun name hnone => ?_⟩
  · obtain ⟨w, hw, hvalue⟩ := hget name v hv
    exact ⟨w, by rw [hread, hw, Option.map_some], hvalue⟩
  · rw [hread, Document.get?_eq_none_of_names hgnames hnone, Option.map_none]

/-! ## Pages -/

/-- Documents as a text can carry them. -/
def PlainDocuments (docs : List Document) : Prop :=
  ∀ d ∈ docs, (Value.obj d).Whole ∧ (Value.obj d).Ordered

namespace PlainDocuments

variable {docs : List Document}

theorem whole (h : PlainDocuments docs) : (Value.documents docs).Whole := by
  refine (Value.every_arr _ _).mpr ⟨rfl, fun v hv => ?_⟩
  obtain ⟨d, hd, rfl⟩ := List.mem_map.mp hv
  exact (h d hd).1

theorem ordered (h : PlainDocuments docs) : (Value.documents docs).Ordered := by
  refine (Value.every_arr _ _).mpr ⟨rfl, fun v hv => ?_⟩
  obtain ⟨d, hd, rfl⟩ := List.mem_map.mp hv
  exact (h d hd).2

theorem required_list? (h : PlainDocuments docs) {fields : List (String × Value)} {d : Document}
    (hread : ReadFrom fields d) (hdocs : Document.get? "docs" fields = some (.documents docs)) :
    (Wire.objectSlot d "docs").required (Wire.list? Wire.document?) = some docs := by
  rw [Wire.objectSlot, hread.get?_of_whole hdocs h.whole h.ordered]
  exact Value.mapM_map_eq_some fun d _ => rfl

end PlainDocuments

namespace OffsetPage

/-- The fields of a page are read as that page, if they are read as a page at all. -/
theorem eq_of_read? {p q : OffsetPage} (hp : PlainDocuments p.docs) {method : String} {d : Document}
    (hread : ReadFrom (ListResult.methodField method :: p.toFields) d)
    (h : read? (.obj d) = some q) : q = p := by
  have hdocs := hp.required_list? hread (by simp [ListResult.methodField, toFields, Document.get?])
  have hbool : ∀ (name : String) (b : Bool),
      Document.get? name (ListResult.methodField method :: p.toFields) = some (.bool b) →
        d.get? name = some (.bool b) :=
    fun name b hb => hread.get?_of_whole hb rfl rfl
  have hnext := hbool "hasNext" p.hasNext
    (by simp [ListResult.methodField, toFields, Document.get?])
  have hprev := hbool "hasPrev" p.hasPrev
    (by simp [ListResult.methodField, toFields, Document.get?])
  have hwarning : (Wire.objectSlot d "warning").optionalOrMissing Wire.string? =
      some p.warning := by
    rw [Wire.objectSlot]
    cases hw : p.warning with
    | none =>
      rw [hread.absent "warning"
        (by simp [ListResult.methodField, toFields, Document.get?, hw, Wire.present])]
      rfl
    | some text =>
      rw [hread.get?_of_whole (v := .str text)
        (by simp [ListResult.methodField, toFields, Document.get?, hw, Wire.present]) rfl rfl]
      rfl
  simp only [read?, Wire.slots?, fieldNames, List.map_cons, List.map_nil, Option.bind_some,
    ofSlots?, hdocs, hwarning, Option.bind_eq_bind, Option.bind_eq_some_iff] at h
  obtain ⟨page, hpage, limit, hlimit, total, htotal, pages, hpages, n, hn, v, hv, hq⟩ := h
  have hpage' : page = p.page :=
    hread.eq_of_nat (by simp [ListResult.methodField, toFields, Document.get?]) hpage
  have hlimit' : limit = p.limit :=
    hread.eq_of_nat (by simp [ListResult.methodField, toFields, Document.get?]) hlimit
  have htotal' : total = p.total :=
    hread.eq_of_nat (by simp [ListResult.methodField, toFields, Document.get?]) htotal
  have hpages' : pages = p.pages :=
    hread.eq_of_nat (by simp [ListResult.methodField, toFields, Document.get?]) hpages
  rw [Wire.objectSlot, hnext] at hn
  rw [Wire.objectSlot, hprev] at hv
  cases hn
  cases hv
  cases hq
  rw [hpage', hlimit', htotal', hpages']

end OffsetPage

namespace KeysetPage

/-- The fields of a page are read as that page, if they are read as a page at all. -/
theorem eq_of_read? {p q : KeysetPage} (hp : PlainDocuments p.docs) {method : String} {d : Document}
    (hread : ReadFrom (ListResult.methodField method :: p.toFields) d)
    (h : read? (.obj d) = some q) : q = p := by
  have hdocs := hp.required_list? hread (by simp [ListResult.methodField, toFields, Document.get?])
  have hmore : d.get? "hasMore" = some (.bool p.hasMore) :=
    hread.get?_of_whole (by simp [ListResult.methodField, toFields, Document.get?]) rfl rfl
  have hnext : (Wire.objectSlot d "next").optional Wire.string? = some p.next := by
    have hget : d.get? "next" = some (.ofOption .str p.next) :=
      hread.get?_of_whole (by simp [ListResult.methodField, toFields, Document.get?])
        (by cases p.next <;> rfl) (by cases p.next <;> rfl)
    rw [Wire.objectSlot, hget]
    cases p.next <;> rfl
  simp only [read?, Wire.slots?, fieldNames, List.map_cons, List.map_nil, Option.bind_some,
    ofSlots?, hdocs, hnext, Option.bind_eq_bind, Option.bind_eq_some_iff] at h
  obtain ⟨limit, hlimit, more, hm, hq⟩ := h
  have hlimit' : limit = p.limit :=
    hread.eq_of_nat (by simp [ListResult.methodField, toFields, Document.get?]) hlimit
  rw [Wire.objectSlot, hmore] at hm
  cases hm
  cases hq
  rw [hlimit']

end KeysetPage

namespace ListResult

/-- The method of a result. -/
def method : ListResult → String
  | .offset _ => "offset"
  | .keyset _ => "keyset"
  | .aggregate _ => "aggregate"

/-- The fields of a result after its method. -/
def pageFields : ListResult → List (String × Value)
  | .offset p => p.toFields
  | .keyset p => p.toFields
  | .aggregate p => p.toFields

theorem toValue_eq_obj (r : ListResult) :
    r.toValue = .obj (methodField r.method :: r.pageFields) := by
  cases r <;> rfl

theorem nodup_names (r : ListResult) :
    ((methodField r.method :: r.pageFields).map Prod.fst).Nodup := by
  have hoffset : ∀ (m : String) (p : OffsetPage),
      ((methodField m :: p.toFields).map Prod.fst).Nodup := by
    intro m p
    cases hw : p.warning <;> simp [methodField, OffsetPage.toFields, hw, Wire.present]
  cases r with
  | offset p => exact hoffset _ p
  | aggregate p => exact hoffset _ p
  | keyset p => simp [methodField, pageFields, KeysetPage.toFields]

/-- The text of a list result is read as that result, if it is read as a result at all. -/
theorem eq_of_ofText? {r q : ListResult} (hr : PlainDocuments r.docs)
    (h : ofText? r.toValue.text = some q) : q = r := by
  simp only [ofText?, Option.bind_eq_bind, Option.bind_eq_some_iff] at h
  obtain ⟨written, hwritten, result, hresult, hq⟩ := h
  have hq' : result = q := by
    split at hq
    · exact Option.some.inj hq
    · cases hq
  subst hq'
  rw [toValue_eq_obj] at hwritten
  obtain ⟨d, hd, hread⟩ := exists_readFrom r.nodup_names hwritten
  have hmethod : Document.get? "method" d = some (.str r.method) :=
    hread.get?_of_whole (by simp [methodField, Document.get?]) rfl rfl
  have hsplit : Wire.splitTag? "method" (.obj d) = some (r.method, .obj d) := by
    simp only [Wire.splitTag?, hmethod, Option.bind_eq_bind, Option.bind_some, Wire.string?]
  rw [hd] at hresult
  cases r with
  | offset p =>
    simp only [read?, hsplit, method, Option.bind_eq_bind, Option.bind_some,
      Option.map_eq_some_iff] at hresult
    obtain ⟨page, hpage, rfl⟩ := hresult
    rw [OffsetPage.eq_of_read? hr hread hpage]
  | keyset p =>
    simp only [read?, hsplit, method, Option.bind_eq_bind, Option.bind_some,
      Option.map_eq_some_iff] at hresult
    obtain ⟨page, hpage, rfl⟩ := hresult
    rw [KeysetPage.eq_of_read? hr hread hpage]
  | aggregate p =>
    simp only [read?, hsplit, method, Option.bind_eq_bind, Option.bind_some,
      Option.map_eq_some_iff] at hresult
    obtain ⟨page, hpage, rfl⟩ := hresult
    rw [OffsetPage.eq_of_read? hr hread hpage]

end ListResult

end Quire
