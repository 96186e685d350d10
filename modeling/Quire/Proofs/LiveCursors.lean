import Quire.Proofs.Listings
import Quire.Proofs.ProjectedIdentifiers
import Quire.Proofs.Streams

/-!
# Tokens that continue

The token of a page is made of a stored document, so that only its length and the nesting of its
values can keep it from being read. Any other token continues the stream, also under a projection,
which keeps the identifiers of all documents or of none.
-/
namespace Quire

/-! ## Cursors of documents -/

namespace Cursor

variable {d : Document} {sort : SortOrder} {idField : String} {version : Nat}

theorem exists_ofDocument_of_ne_nil (hsort : sort.fields ≠ [])
    (hd : (Collection.idOf? idField d).isSome = true) (version : Nat) :
    ∃ c, ofDocument d sort idField version = .ok c := by
  obtain ⟨id, hid⟩ := Option.isSome_iff_exists.mp hd
  obtain ⟨f, fs, hfields⟩ := List.exists_cons_of_ne_nil hsort
  rw [Collection.idOf?] at hid
  rw [ofDocument, hid, SortOrder.primary?, hfields]
  exact ⟨_, rfl⟩

theorem exists_ofDocument (hsort : sort.EndsWith idField)
    (hd : (Collection.idOf? idField d).isSome = true) (version : Nat) :
    ∃ c, ofDocument d sort idField version = .ok c :=
  exists_ofDocument_of_ne_nil hsort.fields_ne_nil hd version

/-- What the cursor of a document holds. -/
theorem of_ofDocument {c : Cursor} (h : ofDocument d sort idField version = .ok c) :
    Collection.idOf? idField d = some c.id ∧ c.version = version ∧
      c.signature = sort.signature ∧
      c.values = (sort.names.filter (· != idField)).map d.fieldOrNull := by
  rw [ofDocument, ← Collection.idOf?] at h
  split at h
  · cases h
  · next id hid =>
    split at h
    · cases h
    · cases h
      exact ⟨hid, rfl, rfl, rfl⟩

/-- The numbers in a cursor are those of its document. -/
theorem sized_of_ofDocument {c : Cursor} (h : ofDocument d sort idField version = .ok c)
    (hversion : version < twoPow 32) (hd : (Value.obj d).Sized) : c.Sized := by
  obtain ⟨hid, hcversion, -, hvalues⟩ := of_ofDocument h
  refine ⟨hcversion ▸ hversion, fun v hv => ?_, ?_⟩
  · rw [hvalues] at hv
    obtain ⟨name, -, rfl⟩ := List.mem_map.mp hv
    exact Document.every_fieldOrNull rfl hd name
  · rw [Collection.idOf?, Option.filter_eq_some_iff] at hid
    exact Value.every_get? hd hid.1

end Cursor

/-! ## The page after a page -/

/-- The projection of a stream names the identifier, unless it keeps all fields. -/
theorem SortOrder.EndsWith.of_keysetProjection {sort : SortOrder} {field : String}
    (h : sort.EndsWith field) {requested : Option Projection} {p : Projection}
    (hp : PagingSettings.keysetProjection requested sort = some p) :
    p.isEmpty = true ∨ field ∈ p.fields := by
  obtain ⟨q, -, hq⟩ := Option.map_eq_some_iff.mp hp
  by_cases hempty : q.isEmpty = true
  · rw [if_pos hempty] at hq
    exact Or.inl (hq ▸ hempty)
  · rw [if_neg hempty] at hq
    have hname : field ∈ sort.names := by
      rw [h.names_eq]
      simp
    exact Or.inr (hq ▸ Projection.mem_addAll.mpr (Or.inr hname))

namespace PagingSettings

variable {s : PagingSettings} {sort : SortOrder}

theorem endsWith_of_keysetSort {requested : Option SortOrder}
    (h : s.keysetSort requested = .ok sort) : sort.EndsWith s.idField := by
  rw [keysetSort] at h
  split at h
  · exact SortOrder.endsWith_forKeyset h
  · cases h

/-- The token of a page is that of its last document. -/
theorem exists_ofDocument_of_keysetPage {limit : Nat} {found : List Document} {page : KeysetPage}
    {token : String} (h : s.keysetPage sort limit found = .ok page)
    (hnext : page.next = some token) :
    ∃ last c, page.docs.getLast? = some last ∧ last ∈ found ∧
      Cursor.ofDocument last sort s.idField s.cursorVersion = .ok c ∧ token = c.encode := by
  rw [keysetPage] at h
  split at h
  · cases h
    cases hnext
  · dsimp only at h
    split at h
    · cases h
      cases hnext
    · next last hlast =>
      cases hc : Cursor.ofDocument last sort s.idField s.cursorVersion with
      | error e =>
        rw [hc] at h
        cases h
      | ok c =>
        rw [hc] at h
        cases h
        cases hnext
        exact ⟨last, c, hlast, List.mem_of_mem_take (List.mem_of_getLast? hlast), hc, rfl⟩

/-- A page can be made of documents that all have identifiers. -/
theorem exists_keysetPage_of_identified (hsort : sort.EndsWith s.idField) (limit : Nat)
    {found : List Document}
    (hfound : ∀ d ∈ found, (Collection.idOf? s.idField d).isSome = true) :
    ∃ page, s.keysetPage sort limit found = .ok page := by
  rw [keysetPage]
  split
  · exact ⟨_, rfl⟩
  · dsimp only
    split
    · exact ⟨_, rfl⟩
    · next last hlast =>
      have hmem : last ∈ found := List.mem_of_mem_take (List.mem_of_getLast? hlast)
      obtain ⟨c, hc⟩ := Cursor.exists_ofDocument hsort (hfound last hmem) s.cursorVersion
      rw [hc]
      exact ⟨_, rfl⟩

end PagingSettings

namespace Pager

variable {σ : Type} (part : Part σ Collection) {settings : PagingSettings}

/-- What a request finds with a filter, before it makes a page. -/
def findStream (settings : PagingSettings) (c : Collection) (r : KeysetRequest)
    (sort : SortOrder) (filter : Filter) : List Document :=
  c.select {
    filter, sort, limit := some (settings.clampLimit r.limit + 1)
    projection := PagingSettings.keysetProjection r.projection sort, populate := r.populate }

/-- A request in its three steps: the filter, the documents, the page. -/
theorem runOn_stream {r : KeysetRequest} {sort : SortOrder}
    (hsort : settings.keysetSort r.sort = .ok sort) (s : σ) :
    ((Pager.mk (Collection.reader part) settings).stream r).runOn s =
      ((settings.keysetFilter r sort).bind fun filter =>
        if (part.get s).canSort filter sort then
          settings.keysetPage sort (settings.clampLimit r.limit)
            (findStream settings (part.get s) r sort filter)
        else .error .contradictoryOrder, s) := by
  rw [stream]
  simp only [Action.runOn_bind, Action.runOn_ofExcept, hsort]
  cases settings.keysetFilter r sort with
  | error e => rfl
  | ok filter =>
    by_cases hcan : (part.get s).canSort filter sort = true
    · simp only [Collection.reader, Action.ofRead, Action.runOn_ofFun, Collection.find, Except.bind,
        hcan, if_true]
      rfl
    · simp only [Collection.reader, Action.ofRead, Action.runOn_ofFun, Collection.find, Except.bind,
        hcan]
      rfl

/-- A page comes of an order, a filter and the documents that are found with them. -/
theorem of_runOn_stream {r : KeysetRequest} {s t : σ} {page : KeysetPage}
    (h : ((Pager.mk (Collection.reader part) settings).stream r).runOn s = (.ok page, t)) :
    ∃ sort filter, settings.keysetSort r.sort = .ok sort ∧
      settings.keysetFilter r sort = .ok filter ∧ (part.get s).canSort filter sort = true ∧
      settings.keysetPage sort (settings.clampLimit r.limit)
        (findStream settings (part.get s) r sort filter) = .ok page := by
  cases hsort : settings.keysetSort r.sort with
  | error e =>
    rw [stream] at h
    simp only [Action.runOn_bind, Action.runOn_ofExcept, hsort] at h
    cases h
  | ok sort =>
    rw [runOn_stream part hsort] at h
    cases hfilter : settings.keysetFilter r sort with
    | error e => simp [hfilter, Except.bind] at h
    | ok filter =>
      rw [hfilter] at h
      have hpage := (Prod.mk.inj h).1
      simp only [Except.bind] at hpage
      split at hpage
      · next hcan => exact ⟨sort, filter, rfl, hfilter, hcan, hpage⟩
      · cases hpage

/-- With the projection of a stream, all documents that are found have identifiers, if one of
them has. -/
theorem isSome_idOf?_findStream {c : Collection} {r : KeysetRequest} {sort : SortOrder}
    (hsort : sort.EndsWith settings.idField)
    (hids : ∀ d ∈ c.docs, (Collection.idOf? settings.idField d).isSome = true) {filter : Filter}
    {last : Document} (hlast : last ∈ findStream settings c r sort filter)
    (hid : (Collection.idOf? settings.idField last).isSome = true) (other : Filter) :
    ∀ d ∈ findStream settings c r sort other,
      (Collection.idOf? settings.idField d).isSome = true := by
  intro e he
  obtain ⟨d, hd, rfl⟩ := Collection.exists_of_mem_select he
  obtain ⟨d', -, rfl⟩ := Collection.exists_of_mem_select hlast
  dsimp only at hid ⊢
  cases hprojection : PagingSettings.keysetProjection r.projection sort with
  | none => exact hids d hd
  | some p =>
    rw [hprojection] at hid
    rcases Projection.keeps_or_drops (hsort.of_keysetProjection hprojection) c.idField with
      hkeeps | hdrops
    · exact hkeeps d (hids d hd)
    · simp [hdrops d'] at hid

/-- What is found has the numbers of what is stored. -/
theorem sized_of_mem_findStream {c : Collection} (hc : ∀ d ∈ c.docs, (Value.obj d).Sized)
    {r : KeysetRequest} {sort : SortOrder} {filter : Filter} :
    ∀ d ∈ findStream settings c r sort filter, (Value.obj d).Sized := by
  intro e he
  obtain ⟨d, hd, rfl⟩ := Collection.exists_of_mem_select he
  dsimp only
  cases PagingSettings.keysetProjection r.projection sort with
  | none => exact hc d hd
  | some p => exact Document.every_project Value.keptBySet_isSized64 (hc d hd) p _

/-- A token that cannot be decoded fails the request. -/
theorem runOn_stream_of_undecoded {r : KeysetRequest} {sort : SortOrder}
    (hsort : settings.keysetSort r.sort = .ok sort) {token text : String}
    (htoken : Cursor.decode token = .error (.invalidCursor text)) (s : σ) :
    ((Pager.mk (Collection.reader part) settings).stream { r with after := some token }).runOn s =
      (.error (.invalidCursor text), s) := by
  have hrefused : settings.keysetFilter { r with after := some token } sort =
      .error (.invalidCursor text) := by
    simp only [PagingSettings.keysetFilter, Cursor.decodeFor, htoken, bind, Except.bind]
  rw [runOn_stream part (r := { r with after := some token }) hsort, hrefused]
  rfl

/-- A token that is decoded to a cursor for the order continues the request, if the matching
documents can be sorted and all that are found have identifiers. -/
theorem exists_runOn_stream_of_decoded {r : KeysetRequest} {sort : SortOrder}
    (hsort : settings.keysetSort r.sort = .ok sort) {token : String} {c : Cursor}
    (htoken : Cursor.decodeFor token sort settings.idField settings.cursorVersion = .ok c)
    (hlength : c.values.length + 1 = sort.fields.length) {s : σ}
    (hcan : (part.get s).canSort r.filter sort = true)
    (hfound : ∀ filter, ∀ d ∈ findStream settings (part.get s) r sort filter,
      (Collection.idOf? settings.idField d).isSome = true) :
    ∃ page, ((Pager.mk (Collection.reader part) settings).stream
      { r with after := some token }).runOn s = (.ok page, s) := by
  have hends := PagingSettings.endsWith_of_keysetSort hsort
  obtain ⟨filter, hafter⟩ := hends.after_isOk r.filter c.id hlength
  have hcontinued : settings.keysetFilter { r with after := some token } sort = .ok filter := by
    simp only [PagingSettings.keysetFilter, htoken, bind, Except.bind, hafter]
  obtain ⟨page, hpage⟩ := PagingSettings.exists_keysetPage_of_identified hends
    (settings.clampLimit r.limit) (hfound filter)
  refine ⟨page, ?_⟩
  have hcan' : (part.get s).canSort filter sort = true :=
    (part.get s).canSort_of_imp (fun d hd => SortOrder.holds_of_after hafter hd) hcan
  rw [runOn_stream part (r := { r with after := some token }) hsort, hcontinued]
  simp only [Except.bind, hcan', if_true]
  exact Prod.ext hpage rfl

/-- The token of a page continues the stream if it is not too long and its values are not nested
too deep, wherever the matching documents can be sorted; behind the first page they can. Any other
token of a page is refused. -/
theorem stream_after_next (hversion : settings.cursorVersion < twoPow 32) {s t : σ}
    (hids : ∀ d ∈ (part.get s).docs, (Collection.idOf? settings.idField d).isSome = true)
    (hnumbers : ∀ d ∈ (part.get s).docs, (Value.obj d).Sized) {r : KeysetRequest}
    {page : KeysetPage} {token : String}
    (hpage : ((Pager.mk (Collection.reader part) settings).stream r).runOn s = (.ok page, t))
    (hnext : page.next = some token) :
    ∃ sort last c, settings.keysetSort r.sort = .ok sort ∧ page.docs.getLast? = some last ∧
      Cursor.ofDocument last sort settings.idField settings.cursorVersion = .ok c ∧
      token = c.encode ∧
      (Cursor.tokenLength token ≤ Cursor.tokenLimit ∧ c.Shallow →
        r.after = none ∨ (part.get s).count r.filter ≤ SortOrder.insertionLimit ∨
          sort.TotalOn ((part.get s).docs.filter fun d => r.filter.holds d) →
        ∃ following, ((Pager.mk (Collection.reader part) settings).stream
          { r with after := some token }).runOn s = (.ok following, s)) ∧
      (¬ (Cursor.tokenLength token ≤ Cursor.tokenLimit ∧ c.Shallow) →
        ∃ text, ((Pager.mk (Collection.reader part) settings).stream
          { r with after := some token }).runOn s = (.error (.invalidCursor text), s)) := by
  obtain ⟨sort, filter, hsort, hfilter, hcan, hkeyset⟩ := of_runOn_stream part hpage
  have hends := PagingSettings.endsWith_of_keysetSort hsort
  obtain ⟨last, c, hlast, hmem, hc, rfl⟩ :=
    PagingSettings.exists_ofDocument_of_keysetPage hkeyset hnext
  obtain ⟨hid, hcversion, hsignature, hvalues⟩ := Cursor.of_ofDocument hc
  have hsized := Cursor.sized_of_ofDocument hc hversion (sized_of_mem_findStream hnumbers last hmem)
  have hcount : c.values.length = (sort.names.filter (· != settings.idField)).length := by
    rw [hvalues, List.length_map]
  refine ⟨sort, last, c, hsort, hlast, hc, rfl, fun hfits htotal => ?_, fun hunfit => ?_⟩
  · have hdecode := hsized.decodeFor_encode hfits.1 hfits.2 hsignature hcount
    rw [hcversion] at hdecode
    have hlength : c.reread.values.length + 1 = sort.fields.length := by
      rw [Cursor.reread, List.length_map, hcount, hends.length_names_filter]
    have hcan' : (part.get s).canSort r.filter sort = true := by
      rcases htotal with hfirst | htotal
      · rw [PagingSettings.keysetFilter, hfirst] at hfilter
        cases hfilter
        exact hcan
      · exact (Collection.canSort_iff _ _ _).mpr htotal
    exact exists_runOn_stream_of_decoded part hsort hdecode hlength hcan'
      (isSome_idOf?_findStream hends hids hmem (by simp [hid]))
  · obtain ⟨text, hdecode⟩ := hsized.exists_decode_encode_eq_error hunfit
    exact ⟨text, runOn_stream_of_undecoded part hsort hdecode s⟩

/-- After the first two of three rows comes the third. -/
theorem stream_after_next_threeRows :
    ∃ page token, (pagerOfRows.stream twoAtATime).runOn threeRows = (.ok page, threeRows) ∧
      page.next = some token ∧
      ∃ following, (pagerOfRows.stream { twoAtATime with after := some token }).runOn threeRows =
        (.ok following, threeRows) := by
  have hfirst : (((pagerOfRows.stream twoAtATime).runOn threeRows).1.toOption.any fun page =>
      page.next.any fun token => Cursor.tokenLength token ≤ Cursor.tokenLimit) = true := by
    decide +kernel
  have hshallow : (((pagerOfRows.stream twoAtATime).runOn threeRows).1.toOption.all fun page =>
      (pagerOfRows.settings.keysetSort twoAtATime.sort).toOption.all fun sort =>
        page.docs.getLast?.all fun last =>
          (Cursor.ofDocument last sort "id" 1).toOption.all fun c => c.Shallow) = true := by
    decide +kernel
  have hids : ∀ d ∈ threeRows.docs,
      (Collection.idOf? pagerOfRows.settings.idField d).isSome = true := by decide +kernel
  have hnumbers : ∀ d ∈ threeRows.docs, (Value.obj d).Sized := by decide +kernel
  rcases hpage : (pagerOfRows.stream twoAtATime).runOn threeRows with ⟨e | page, t⟩
  · simp [hpage, Except.toOption] at hfirst
  have ht : t = threeRows := (congrArg Prod.snd hpage).symm
  subst ht
  simp only [hpage, Except.toOption, Option.any_some, Option.any_eq_true,
    decide_eq_true_eq] at hfirst
  obtain ⟨token, hnext, hlen⟩ := hfirst
  obtain ⟨sort, last, c, hsort, hlast, hc, htoken, hlive, -⟩ :=
    stream_after_next (s := threeRows) Part.whole (by decide) hids hnumbers hpage hnext
  refine ⟨page, token, rfl, hnext, hlive ⟨hlen, ?_⟩ (Or.inl rfl)⟩
  have hsort' : pagerOfRows.settings.keysetSort twoAtATime.sort = .ok sort := hsort
  have hc' : Cursor.ofDocument last sort "id" 1 = .ok c := hc
  simpa [hpage, hsort', hlast, hc', Except.toOption] using hshallow

/-! ## Refused tokens -/

/-- Two rows, of which one has a text. -/
def textRows (s : String) : Collection where
  idField := "id"
  docs := [[("id", .int 1)], [("id", .int 2), ("s", .str s)]]

/-- Pages of one document, texts first. -/
def oneByText : KeysetRequest where
  sort := some ⟨[⟨"s", .desc⟩]⟩
  limit := some 1

/-- The cursor of the row with the text. -/
def textCursor (s : String) : Cursor where
  version := 1
  signature := SortOrder.signature ⟨[⟨"s", .desc⟩, ⟨"id", .desc⟩]⟩
  primary := "s"
  values := [.str s]
  id := .int 2

theorem runOn_stream_textRows (s : String) :
    (pagerOfRows.stream oneByText).runOn (textRows s) =
      (.ok (.build [[("id", .int 2), ("s", .str s)]] 1 (some (textCursor s).encode)),
        textRows s) := by
  have hsort : pagerOfRows.settings.keysetSort oneByText.sort =
      .ok ⟨[⟨"s", .desc⟩, ⟨"id", .desc⟩]⟩ := rfl
  exact (runOn_stream Part.whole hsort (textRows s)).trans rfl

/-- The token of the first page is longer than the text, and is refused where the text is long. -/
theorem exists_stream_textRows_eq_error {s : String} (h : Cursor.tokenLimit < s.toList.length) :
    ∃ text, (pagerOfRows.stream { oneByText with after := some (textCursor s).encode }).runOn
      (textRows s) = (.error (.invalidCursor text), textRows s) := by
  have hsort : pagerOfRows.settings.keysetSort oneByText.sort =
      .ok ⟨[⟨"s", .desc⟩, ⟨"id", .desc⟩]⟩ := rfl
  have hsized : (textCursor s).Sized :=
    ⟨(by decide : 1 < twoPow 32), by simp [textCursor, Value.Sized, Value.every, Value.isSized64],
      (by decide : (Value.int 2).Sized)⟩
  have hlong := Cursor.length_le_tokenLength (c := textCursor s) (s := s) List.mem_cons_self
  obtain ⟨text, htext⟩ := hsized.exists_decode_encode_eq_error fun hfits => by omega
  exact ⟨text, runOn_stream_of_undecoded Part.whole hsort htext (textRows s)⟩

/-- A page whose token the next request refuses. -/
theorem stream_refuses_next :
    ∃ c : Collection, (∀ d ∈ c.docs, (Collection.idOf? "id" d).isSome = true) ∧
      ∃ page token, (pagerOfRows.stream oneByText).runOn c = (.ok page, c) ∧
        page.next = some token ∧
        ∃ text, (pagerOfRows.stream { oneByText with after := some token }).runOn c =
          (.error (.invalidCursor text), c) := by
  have hlong : Cursor.tokenLimit < (String.ofList (List.replicate 4097 'a')).toList.length := by
    rw [String.toList_ofList, List.length_replicate]
    decide
  refine ⟨textRows (String.ofList (List.replicate 4097 'a')), ?_, _, _, runOn_stream_textRows _,
    rfl, exists_stream_textRows_eq_error hlong⟩
  simp only [textRows, List.forall_mem_cons]
  exact ⟨rfl, rfl, by simp⟩

end Pager
end Quire
