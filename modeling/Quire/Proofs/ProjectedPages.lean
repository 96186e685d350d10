import Quire.Proofs.CopiedFields
import Quire.Proofs.LiveCursors

/-!
# Projected pages

A page of a stream under a projection has the projected documents of the page without one. It reads
the same at the fields of the projection, and continues with the same token, where the arrays of
the documents are restored. The fields of the order belong to the projection too, and may enter an
array that the caller asked for.
-/
namespace Quire

/-! ## Cursors and pages of projected documents -/

/-- A cursor depends on the identifier and on the fields of the order only. -/
theorem Cursor.ofDocument_congr {d e : Document} {sort : SortOrder} {idField : String}
    (hid : d.get? idField = e.get? idField)
    (hnames : ∀ name ∈ sort.names, d.getPath? name = e.getPath? name) (version : Nat) :
    ofDocument d sort idField version = ofDocument e sort idField version := by
  have hvalues : (sort.names.filter (· != idField)).map d.fieldOrNull =
      (sort.names.filter (· != idField)).map e.fieldOrNull :=
    List.map_congr_left fun name hname => by
      rw [Document.fieldOrNull, Document.fieldOrNull, hnames name (List.mem_of_mem_filter hname)]
  rw [ofDocument, ofDocument, hid, hvalues]

namespace PagingSettings

variable {settings : PagingSettings} {sort : SortOrder}

/-- The page of changed documents has the changed documents of the page. It has the same token if
the last document gives the same cursor. -/
theorem exists_keysetPage_of_map (hsort : sort.EndsWith settings.idField) {limit : Nat}
    {found : List Document}
    (hfound : ∀ d ∈ found, (Collection.idOf? settings.idField d).isSome = true)
    {f : Document → Document} {page : KeysetPage}
    (h : settings.keysetPage sort limit (found.map f) = .ok page) :
    ∃ whole, settings.keysetPage sort limit found = .ok whole ∧
      (∀ d ∈ whole.docs, d ∈ found) ∧ page.docs = whole.docs.map f ∧ page.limit = whole.limit ∧
      page.hasMore = whole.hasMore ∧
      ((∀ last ∈ whole.docs.getLast?,
        Cursor.ofDocument (f last) sort settings.idField settings.cursorVersion =
          Cursor.ofDocument last sort settings.idField settings.cursorVersion) →
        page.next = whole.next) := by
  rw [keysetPage, List.length_map] at h
  rw [keysetPage]
  split at h
  · next hall =>
    cases h
    rw [if_pos hall]
    exact ⟨_, rfl, fun _ hd => hd, rfl, rfl, rfl, fun _ => rfl⟩
  · next hmore =>
    rw [if_neg hmore]
    dsimp only at h ⊢
    rw [← List.map_take, List.getLast?_map] at h
    cases hlast : (found.take limit).getLast? with
    | none =>
      rw [hlast] at h
      cases h
      exact ⟨_, rfl, fun _ hd => List.mem_of_mem_take hd, rfl, rfl, rfl, fun _ => rfl⟩
    | some last =>
      rw [hlast] at h
      have hmem : last ∈ found := List.mem_of_mem_take (List.mem_of_getLast? hlast)
      obtain ⟨c, hc⟩ := Cursor.exists_ofDocument hsort (hfound last hmem) settings.cursorVersion
      cases hcopy : Cursor.ofDocument (f last) sort settings.idField settings.cursorVersion with
      | error e =>
        simp only [Option.map_some, hcopy] at h
        cases h
      | ok c' =>
        simp only [Option.map_some, hcopy] at h
        cases h
        dsimp only
        rw [hc]
        refine ⟨_, rfl, fun _ hd => List.mem_of_mem_take hd, rfl, rfl, rfl, fun hsame => ?_⟩
        have hcursor := (hcopy.symm.trans (hsame last hlast)).trans hc
        rw [Except.ok.inj hcursor]
        rfl

end PagingSettings

/-! ## Streams under a projection -/

namespace Pager

variable {σ : Type} (part : Part σ Collection) {settings : PagingSettings}

theorem findStream_projected (c : Collection) (r : KeysetRequest) {p : Projection}
    (hp : p.isEmpty = false) (sort : SortOrder) (filter : Filter) :
    findStream settings c { r with projection := some p } sort filter =
      (findStream settings c { r with projection := none } sort filter).map
        ((p.addAll sort.names).apply c.idField) := by
  rw [findStream, findStream, PagingSettings.keysetProjection, Option.map_some, hp]
  rfl

/-- A page under a projection is the page without one, with its documents projected to the fields
that the caller and the order name. Such a document reads the same at all of them exactly when its
arrays are restored, and the token is the same if those of the last document are. -/
theorem stream_of_projected {s t : σ} (hfield : (part.get s).idField = settings.idField)
    (hdot : '.' ∉ settings.idField.toList)
    (hids : ∀ d ∈ (part.get s).docs, (Collection.idOf? settings.idField d).isSome = true)
    (hordered : ∀ d ∈ (part.get s).docs, (Value.obj d).Ordered) {r : KeysetRequest}
    {p : Projection} (hp : p.isEmpty = false) {page : KeysetPage}
    (hpage : ((Pager.mk (Collection.reader part) settings).stream
      { r with projection := some p }).runOn s = (.ok page, t)) :
    ∃ sort whole, settings.keysetSort r.sort = .ok sort ∧
      ((Pager.mk (Collection.reader part) settings).stream
        { r with projection := none }).runOn s = (.ok whole, s) ∧
      (∀ d ∈ whole.docs, d ∈ (part.get s).docs) ∧
      page.docs = whole.docs.map ((p.addAll sort.names).apply settings.idField) ∧
      page.limit = whole.limit ∧ page.hasMore = whole.hasMore ∧
      (∀ d ∈ whole.docs,
        (∀ name, name = settings.idField ∨ name ∈ p.fields ∨ name ∈ sort.names →
          ((p.addAll sort.names).apply settings.idField d).getPath? name = d.getPath? name) ↔
        (p.addAll sort.names).Restores settings.idField d) ∧
      ((∀ last ∈ whole.docs.getLast?, (p.addAll sort.names).Restores settings.idField last) →
        page.next = whole.next) := by
  obtain ⟨sort, filter, hsort, hfilter, hcan, hkeyset⟩ := of_runOn_stream part hpage
  have hends := PagingSettings.endsWith_of_keysetSort hsort
  rw [findStream_projected _ r hp, hfield] at hkeyset
  have hstored : ∀ d ∈ findStream settings (part.get s) { r with projection := none } sort filter,
      d ∈ (part.get s).docs := by
    intro d hd
    obtain ⟨e, he, rfl⟩ := Collection.exists_of_mem_select hd
    exact he
  obtain ⟨whole, hwhole, hfound, hdocs, hlimit, hmore, hnext⟩ :=
    PagingSettings.exists_keysetPage_of_map hends (fun d hd => hids d (hstored d hd)) hkeyset
  have hmem : ∀ d ∈ whole.docs, d ∈ (part.get s).docs := fun d hd => hstored d (hfound d hd)
  have hextended : (p.addAll sort.names).isEmpty = false := by
    obtain ⟨name, hname⟩ := List.exists_mem_of_ne_nil _ (show p.fields ≠ [] by
      simpa [Projection.isEmpty] using hp)
    have hkept : name ∈ (p.addAll sort.names).fields := Projection.mem_addAll.mpr (Or.inl hname)
    rw [Projection.isEmpty, List.isEmpty_eq_false_iff]
    exact List.ne_nil_of_mem hkept
  have hreads : ∀ d ∈ whole.docs,
      (∀ name, name = settings.idField ∨ name ∈ p.fields ∨ name ∈ sort.names →
        ((p.addAll sort.names).apply settings.idField d).getPath? name = d.getPath? name) ↔
      (p.addAll sort.names).Restores settings.idField d := by
    intro d hd
    rw [← Projection.getPath?_apply_iff hextended hdot (hordered d (hmem d hd))]
    simp only [List.mem_cons, Projection.mem_addAll]
  refine ⟨sort, whole, hsort, ?_, hmem, hdocs, hlimit, hmore, hreads, fun hlast => hnext ?_⟩
  · rw [runOn_stream part (r := { r with projection := none }) hsort]
    refine Prod.ext ?_ rfl
    have hsame : settings.keysetFilter { r with projection := none } sort = .ok filter := hfilter
    rw [hsame]
    simp only [Except.bind, hcan, if_true]
    exact hwhole
  · intro last hmost
    have hkept := (hreads last (List.mem_of_getLast? hmost)).mpr (hlast last hmost)
    refine Cursor.ofDocument_congr ?_ (fun name hname => hkept name (Or.inr (Or.inr hname))) _
    rw [← Document.getPath?_of_undotted hdot, ← Document.getPath?_of_undotted hdot]
    exact hkept _ (Or.inl rfl)

/-- Two rows that have arrays. -/
def taggedRows : Collection where
  idField := "id"
  docs := [[("id", .int 1), ("tags", .arr [.int 5])], [("id", .int 2), ("tags", .arr [.int 6])]]

/-- Pages of one document, by the given fields. -/
def oneBy (names : List String) : KeysetRequest where
  sort := some ⟨names.map fun name => ⟨name, .asc⟩⟩
  limit := some 1

/-- A projection to an item of an array, in the order of the whole array. -/
theorem stream_of_projected_taggedRows :
    ∃ page whole, (pagerOfRows.stream { oneBy ["tags"] with projection := some ⟨["tags.0"]⟩ }).runOn
        taggedRows = (.ok page, taggedRows) ∧
      (pagerOfRows.stream { oneBy ["tags"] with projection := none }).runOn taggedRows =
        (.ok whole, taggedRows) ∧
      page.next = whole.next ∧
      ∀ d ∈ whole.docs,
        (Projection.apply ⟨["tags.0", "tags", "id"]⟩ "id" d).getPath? "tags.0" =
          d.getPath? "tags.0" := by
  rcases hpage : (pagerOfRows.stream
    { oneBy ["tags"] with projection := some ⟨["tags.0"]⟩ }).runOn taggedRows with ⟨e | page, t⟩
  · have hok : ((pagerOfRows.stream { oneBy ["tags"] with projection := some ⟨["tags.0"]⟩ }).runOn
        taggedRows).1.toOption.isSome = true := by decide +kernel
    rw [hpage] at hok
    cases hok
  have ht : t = taggedRows := (congrArg Prod.snd hpage).symm
  subst ht
  obtain ⟨sort, whole, hsort, hwhole, hmem, -, -, -, hreads, hnext⟩ :=
    stream_of_projected (s := taggedRows) Part.whole rfl (by decide) (by decide +kernel)
      (by decide +kernel) rfl hpage
  have horder : pagerOfRows.settings.keysetSort (oneBy ["tags"]).sort =
      .ok ⟨[⟨"tags", .asc⟩, ⟨"id", .asc⟩]⟩ := rfl
  cases hsort.symm.trans horder
  have hrestores : ∀ d ∈ taggedRows.docs,
      Projection.Restores ⟨["tags.0", "tags", "id"]⟩ "id" d := by decide +kernel
  refine ⟨page, whole, rfl, hwhole, hnext fun last hlast => ?_, fun d hd => ?_⟩
  · exact hrestores last (hmem last (List.mem_of_getLast? hlast))
  · exact (hreads d hd).mpr (hrestores d (hmem d hd)) "tags.0" (Or.inr (Or.inl (by decide)))

/-- The cursor of the first row, with what is read at its array. -/
def tagsCursor (tags : Value) : Cursor where
  version := 1
  signature := SortOrder.signature ⟨[⟨"tags", .asc⟩, ⟨"tags.0", .asc⟩, ⟨"id", .asc⟩]⟩
  primary := "tags"
  values := [tags, .int 5]
  id := .int 1

/-- A projection to an array, in an order that goes on into the array: an object takes its place,
also in the token. -/
theorem stream_projection_loses_array :
    ∃ c : Collection, c.idField = "id" ∧ Regular "id" c.docs ∧
      ∃ page whole, (pagerOfRows.stream
          { oneBy ["tags", "tags.0"] with projection := some ⟨["tags"]⟩ }).runOn c = (.ok page, c) ∧
        (pagerOfRows.stream { oneBy ["tags", "tags.0"] with projection := none }).runOn c =
          (.ok whole, c) ∧
        page.docs.map (·.getPath? "tags") = [some (.obj [("0", .int 5)])] ∧
        whole.docs.map (·.getPath? "tags") = [some (.arr [.int 5])] ∧
        page.next ≠ whole.next := by
  have hsort : pagerOfRows.settings.keysetSort (oneBy ["tags", "tags.0"]).sort =
      .ok ⟨[⟨"tags", .asc⟩, ⟨"tags.0", .asc⟩, ⟨"id", .asc⟩]⟩ := rfl
  refine ⟨taggedRows, rfl, by decide +kernel,
    .build [[("id", .int 1), ("tags", .obj [("0", .int 5)])]] 1
      (some (tagsCursor (.obj [("0", .int 5)])).encode),
    .build [[("id", .int 1), ("tags", .arr [.int 5])]] 1
      (some (tagsCursor (.arr [.int 5])).encode),
    (runOn_stream Part.whole
      (r := { oneBy ["tags", "tags.0"] with projection := some ⟨["tags"]⟩ }) hsort _).trans rfl,
    (runOn_stream Part.whole
      (r := { oneBy ["tags", "tags.0"] with projection := none }) hsort _).trans rfl,
    rfl, rfl, ?_⟩
  decide +kernel

end Pager
end Quire
