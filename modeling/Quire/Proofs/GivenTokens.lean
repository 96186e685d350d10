import Quire.Proofs.IssuedTokens
import Quire.Proofs.KeysetSelections

/-!
# Any text as a token

A text given as a token is refused, or it stands for a cursor of the version and the order of the
request. Then the request returns, of the matching documents beyond the position in the cursor, as
many as fit, and says whether there are others; it is aborted where these documents cannot be
sorted. Nobody need have issued the token for that.
-/
namespace Quire

/-- The fault lies in the token of the request. -/
def Fault.IsOfToken : Fault → Prop
  | .invalidCursor _ | .cursorVersion _ _ | .cursorSort => True
  | _ => False

/-! ## Reading a token -/

namespace Cursor

theorem isOfToken_of_decode {token : String} {f : Fault} (h : decode token = .error f) :
    f.IsOfToken := by
  rw [decode] at h
  split at h
  · cases h; trivial
  split at h
  · cases h; trivial
  split at h
  · cases h; trivial
  split at h
  · cases h
  · cases h; trivial

/-- How reading a token for a version and a sort order ends. -/
theorem decodeFor_cases (token : String) (sort : SortOrder) (idField : String) (version : Nat) :
    (∃ f, decodeFor token sort idField version = .error f ∧ f.IsOfToken) ∨
      ∃ c, decodeFor token sort idField version = .ok c ∧ decode token = .ok c ∧
        c.version = version := by
  cases hdecode : decode token with
  | error f =>
    exact Or.inl ⟨f, by simp only [decodeFor, hdecode, bind, Except.bind],
      isOfToken_of_decode hdecode⟩
  | ok c =>
    by_cases hversion : version = c.version
    · rw [hversion, decodeFor_of_version_eq hdecode]
      split
      · exact Or.inr ⟨c, rfl, rfl, rfl⟩
      · exact Or.inl ⟨_, rfl, trivial⟩
    · exact Or.inl ⟨_, decodeFor_of_version_ne hdecode hversion, trivial⟩

end Cursor

/-! ## The documents beyond a position -/

namespace SortOrder

instance (s : SortOrder) (values : List Value) (d : Document) : Decidable (s.IsBeyond values d) :=
  decidable_of_iff _ (s.isBeyond_iff values d).symm

theorem liesBeyond_some (s : SortOrder) (values : List Value) (d : Document) :
    s.liesBeyond (some values) d = decide (s.IsBeyond values d) := by
  rw [liesBeyond, Option.all_some, Bool.eq_iff_iff, beq_iff_eq, decide_eq_true_iff, isBeyond_iff]

/-- The matching documents beyond a position, in the order of the collection. -/
def beyondOf (s : SortOrder) (filter : Filter) (values : List Value) (docs : List Document) :
    List Document :=
  docs.filter fun d => filter.holds d && decide (s.IsBeyond values d)

theorem mem_beyondOf {s : SortOrder} {filter : Filter} {values : List Value}
    {docs : List Document} {d : Document} :
    d ∈ s.beyondOf filter values docs ↔
      d ∈ docs ∧ filter.holds d = true ∧ s.IsBeyond values d := by
  rw [beyondOf, List.mem_filter, Bool.and_eq_true, decide_eq_true_iff]

theorem remaining_some (s : SortOrder) (filter : Filter) (values : List Value)
    (docs : List Document) :
    s.remaining filter (some values) docs = s.sort (s.beyondOf filter values docs) := by
  simp only [remaining, beyondOf, liesBeyond_some]

end SortOrder

/-! ## One request -/

/-- A page built of one document more than fit leaves the surplus out and reports it. -/
theorem PagingSettings.of_keysetPage {s : PagingSettings} {sort : SortOrder} {limit : Nat}
    (hlimit : 1 ≤ limit) {found : List Document} {page : KeysetPage}
    (h : s.keysetPage sort limit found = .ok page) :
    page.docs = found.take limit ∧ (page.hasMore = true ↔ limit < found.length) := by
  rw [keysetPage] at h
  split at h
  · next hfits =>
    cases h
    exact ⟨(List.take_of_length_le hfits).symm, iff_of_false Bool.false_ne_true (by omega)⟩
  · next hmore =>
    dsimp only at h
    split at h
    · next hnone =>
      have hempty : (found.take limit).length = 0 := by
        rw [List.getLast?_eq_none_iff.mp hnone, List.length_nil]
      rw [List.length_take] at hempty
      omega
    · next last hlast =>
      cases hc : Cursor.ofDocument last sort s.idField s.cursorVersion with
      | error f =>
        rw [hc] at h
        cases h
      | ok c =>
        rw [hc] at h
        cases h
        exact ⟨rfl, iff_of_true rfl (by omega)⟩

namespace Pager

variable {σ : Type} (part : Part σ Collection) {settings : PagingSettings} {sort : SortOrder}

/-- A request with a filter for the documents beyond a position returns the first of them, if they
can be sorted. -/
theorem exists_stream_beyond {s : σ}
    (hids : ∀ d ∈ (part.get s).docs, (Collection.idOf? settings.idField d).isSome = true)
    {r : KeysetRequest} (hr : settings.Accepts r sort) {values : List Value}
    (hafter : settings.ContinuesFrom sort r.after (some values)) :
    ∃ page, ((Pager.mk (Collection.reader part) settings).stream r).runOn s =
        (if sort.canSort (sort.beyondOf r.filter values (part.get s).docs) then .ok page
          else .error .contradictoryOrder, s) ∧
      page.docs = (sort.sort (sort.beyondOf r.filter values (part.get s).docs)).take
        (settings.clampLimit r.limit) ∧
      (page.hasMore = true ↔ settings.clampLimit r.limit <
        (sort.beyondOf r.filter values (part.get s).docs).length) := by
  obtain ⟨f, hf, hholds⟩ := PagingSettings.exists_keysetFilter hr.endsWith hafter
  have hfound : findStream settings (part.get s) r sort f =
      (sort.sort (sort.beyondOf r.filter values (part.get s).docs)).take
        (settings.clampLimit r.limit + 1) := by
    rw [← SortOrder.remaining_some, findStream]
    simp only [Collection.select, hholds, hr.projection_eq, PagingSettings.keysetProjection,
      Option.map_none, List.drop_zero, SortOrder.remaining]
  have hcan : (part.get s).canSort f sort =
      sort.canSort (sort.beyondOf r.filter values (part.get s).docs) := by
    simp only [Collection.canSort, hholds, SortOrder.liesBeyond_some, SortOrder.beyondOf]
  have hfoundIds : ∀ d ∈ findStream settings (part.get s) r sort f,
      (Collection.idOf? settings.idField d).isSome = true := by
    intro d hd
    rw [hfound] at hd
    exact hids d (SortOrder.mem_beyondOf.mp
      ((sort.sort_perm _).mem_iff.mp (List.mem_of_mem_take hd))).1
  obtain ⟨page, hpage⟩ := PagingSettings.exists_keysetPage_of_identified hr.endsWith
    (settings.clampLimit r.limit) hfoundIds
  obtain ⟨hdocs, hmore⟩ := PagingSettings.of_keysetPage (settings.one_le_clampLimit r.limit) hpage
  refine ⟨page, ?_, ?_, ?_⟩
  · rw [runOn_stream part hr.keysetSort, hf]
    simp only [Except.bind, hcan, hpage]
  · rw [hdocs, hfound, List.take_take, Nat.min_eq_left (Nat.le_succ _)]
  · rw [hmore, hfound, List.length_take, (sort.sort_perm _).length_eq]
    omega

/-- Whatever text a request brings as its token: it is refused for the token, or the token is
decoded to a cursor of the configured version, the page holds as many as fit of the matching
documents beyond the position in the cursor, and there are more exactly where some do not fit. For
that the documents must be few or in a total order; otherwise the request is aborted. -/
theorem stream_of_given_token {s : σ}
    (hids : ∀ d ∈ (part.get s).docs, (Collection.idOf? settings.idField d).isSome = true)
    {r : KeysetRequest} (hr : settings.Accepts r sort) (token : String) :
    (∃ f, ((Pager.mk (Collection.reader part) settings).stream
        { r with after := some token }).runOn s = (.error f, s) ∧ f.IsOfToken) ∨
      ∃ c, Cursor.decode token = .ok c ∧ c.version = settings.cursorVersion ∧
        c.values.length + 1 = sort.fields.length ∧
        ((sort.beyondOf r.filter (c.values ++ [c.id]) (part.get s).docs).length ≤
            SortOrder.insertionLimit ∨
          sort.TotalOn (sort.beyondOf r.filter (c.values ++ [c.id]) (part.get s).docs) →
          ∃ page, ((Pager.mk (Collection.reader part) settings).stream
              { r with after := some token }).runOn s = (.ok page, s) ∧
            (∀ d ∈ page.docs, d ∈ (part.get s).docs ∧ r.filter.holds d = true ∧
              sort.IsBeyond (c.values ++ [c.id]) d) ∧
            page.docs = (sort.sort (sort.beyondOf r.filter (c.values ++ [c.id])
              (part.get s).docs)).take (settings.clampLimit r.limit) ∧
            page.docs.length = min (settings.clampLimit r.limit)
              (sort.beyondOf r.filter (c.values ++ [c.id]) (part.get s).docs).length ∧
            (page.hasMore = true ↔ settings.clampLimit r.limit <
              (sort.beyondOf r.filter (c.values ++ [c.id]) (part.get s).docs).length)) ∧
        (¬ ((sort.beyondOf r.filter (c.values ++ [c.id]) (part.get s).docs).length ≤
              SortOrder.insertionLimit ∨
            sort.TotalOn (sort.beyondOf r.filter (c.values ++ [c.id]) (part.get s).docs)) →
          ((Pager.mk (Collection.reader part) settings).stream
            { r with after := some token }).runOn s = (.error .contradictoryOrder, s)) := by
  rcases Cursor.decodeFor_cases token sort settings.idField settings.cursorVersion with
    ⟨f, hrefused, hf⟩ | ⟨c, haccepted, hdecode, hversion⟩
  · refine Or.inl ⟨f, ?_, hf⟩
    have hfilter : settings.keysetFilter { r with after := some token } sort = .error f := by
      simp only [PagingSettings.keysetFilter, hrefused, bind, Except.bind]
    rw [runOn_stream part (r := { r with after := some token }) hr.keysetSort, hfilter]
    rfl
  · have hlength : c.values.length + 1 = sort.fields.length := by
      rw [Cursor.length_values_of_decodeFor haccepted, hr.endsWith.length_names_filter]
    obtain ⟨page, hpage, hdocs, hmore⟩ :=
      exists_stream_beyond part hids (hr.continued (some token)) (.token haccepted)
    refine Or.inr ⟨c, hdecode, hversion, hlength, fun hcan => ?_, fun hcan => ?_⟩
    · rw [if_pos (SortOrder.canSort_iff.mpr hcan)] at hpage
      refine ⟨page, hpage, fun d hd => ?_, hdocs, ?_, hmore⟩
      · rw [hdocs] at hd
        exact SortOrder.mem_beyondOf.mp ((sort.sort_perm _).mem_iff.mp (List.mem_of_mem_take hd))
      · rw [hdocs, List.length_take, (sort.sort_perm _).length_eq]
    · rw [if_neg fun h => hcan (SortOrder.canSort_iff.mp h)] at hpage
      exact hpage

/-- A cursor between two rows, which stands for neither. -/
def betweenRows : Cursor where
  version := 1
  signature := SortOrder.signature ⟨[⟨"n", .desc⟩, ⟨"id", .desc⟩]⟩
  primary := "n"
  values := [.int 5]
  id := .int 2

theorem plain_betweenRows : betweenRows.Plain :=
  ⟨(by decide : 1 < twoPow 32), (by decide : ∀ v ∈ [Value.int 5], Cursor.Carries v),
    (by decide : Cursor.Carries (.int 2))⟩

theorem tokenLength_betweenRows : Cursor.tokenLength betweenRows.encode ≤ Cursor.tokenLimit := by
  decide +kernel

/-- With a token that nobody issued, the request continues with the row behind it. -/
theorem stream_of_given_token_betweenRows :
    ∃ page, (pagerOfRows.stream
        { twoAtATime with limit := some 1, after := some betweenRows.encode }).runOn threeRows =
          (.ok page, threeRows) ∧
      page.docs = [[("id", .int 1), ("n", .int 5)]] ∧ page.hasMore = true := by
  have hids : ∀ d ∈ threeRows.docs,
      (Collection.idOf? pagerOfRows.settings.idField d).isSome = true := by decide +kernel
  have haccepts : pagerOfRows.settings.Accepts { twoAtATime with limit := some 1 }
      ⟨[⟨"n", .desc⟩, ⟨"id", .desc⟩]⟩ :=
    ⟨accepts_twoAtATime.undotted, accepts_twoAtATime.version_lt, accepts_twoAtATime.sort_eq, rfl⟩
  have haccepted : Cursor.decodeFor betweenRows.encode ⟨[⟨"n", .desc⟩, ⟨"id", .desc⟩]⟩ "id" 1 =
      .ok betweenRows :=
    plain_betweenRows.decodeFor_encode tokenLength_betweenRows rfl rfl
  obtain ⟨shown, hshown, -⟩ := exists_stream_beyond Part.whole (s := threeRows) hids
    (haccepts.continued (some betweenRows.encode)) (.token haccepted)
  rw [if_pos (SortOrder.canSort_iff.mpr (Or.inl (by decide +kernel)))] at hshown
  rcases stream_of_given_token Part.whole (s := threeRows) hids haccepts betweenRows.encode with
    ⟨f, hrefused, -⟩ | ⟨c, hdecode, -, -, hpage, -⟩
  · cases hshown.symm.trans hrefused
  · cases (plain_betweenRows.decode_encode tokenLength_betweenRows).symm.trans hdecode
    obtain ⟨page, hpage, -, hdocs, -, hmore⟩ := hpage (Or.inl (by decide +kernel))
    exact ⟨page, hpage, hdocs, hmore.mpr (by decide +kernel)⟩

/-- One of three numbers in turn: two whole ones next to each other, and one in binary64 that ties
with both. -/
def blurredRow (i : Nat) : Document :=
  [("id", .int i), ("n", [.int 9007199254740992, .float (.ofInt 9007199254740992),
    .int 9007199254740993].getD (i % 3) .null)]

/-- More rows than are sorted by insertion. -/
def blurredRows : Collection where
  idField := "id"
  docs := (List.range 21).map blurredRow

/-- A cursor ahead of all rows. -/
def aheadOfRows : Cursor where
  version := 1
  signature := SortOrder.signature ⟨[⟨"n", .asc⟩, ⟨"id", .asc⟩]⟩
  primary := "n"
  values := [.null]
  id := .int 0

/-- Three rows go in a circle: the first two tie but for their identifiers, so do the second and the
third, and the first has the greater number than the third. -/
theorem not_totalOn_blurredRows :
    ¬ SortOrder.TotalOn ⟨[⟨"n", .asc⟩, ⟨"id", .asc⟩]⟩ blurredRows.docs := by
  intro h
  have hmem : ∀ i < 21, blurredRow i ∈ blurredRows.docs := fun i hi =>
    List.mem_map_of_mem (List.mem_range.mpr hi)
  have hcircle := h (blurredRow 2) (hmem 2 (by decide)) (blurredRow 4) (hmem 4 (by decide))
    (blurredRow 6) (hmem 6 (by decide)) (by decide +kernel) (by decide +kernel)
  revert hcircle
  decide +kernel

/-- A request with a token that is no fault of its own is aborted. -/
theorem stream_aborts_blurredRows :
    (∀ d ∈ blurredRows.docs, (Collection.idOf? "id" d).isSome = true) ∧
      Cursor.decode aheadOfRows.encode = .ok aheadOfRows ∧ aheadOfRows.version = 1 ∧
      ∃ f, (pagerOfRows.stream {
          sort := some (.ascending "n"), after := some aheadOfRows.encode }).runOn blurredRows =
        (.error f, blurredRows) ∧ ¬ f.IsOfToken := by
  have hplain : aheadOfRows.Plain :=
    ⟨(by decide : 1 < twoPow 32), (by decide : ∀ v ∈ [Value.null], Cursor.Carries v),
      (by decide : Cursor.Carries (.int 0))⟩
  have hlength : Cursor.tokenLength aheadOfRows.encode ≤ Cursor.tokenLimit := by decide +kernel
  have hids : ∀ d ∈ blurredRows.docs,
      (Collection.idOf? pagerOfRows.settings.idField d).isSome = true := by decide +kernel
  have hbeyond : SortOrder.beyondOf ⟨[⟨"n", .asc⟩, ⟨"id", .asc⟩]⟩ .all
      (aheadOfRows.values ++ [aheadOfRows.id]) blurredRows.docs = blurredRows.docs := by
    refine List.filter_eq_self.mpr ?_
    decide +kernel
  have hcannot : ¬ SortOrder.canSort ⟨[⟨"n", .asc⟩, ⟨"id", .asc⟩]⟩ blurredRows.docs = true := by
    have hmany : ¬ blurredRows.docs.length ≤ SortOrder.insertionLimit := by
      simp [blurredRows, SortOrder.insertionLimit]
    rw [SortOrder.canSort_iff]
    exact fun h => h.elim hmany not_totalOn_blurredRows
  have haccepts : pagerOfRows.settings.Accepts { sort := some (.ascending "n") }
      ⟨[⟨"n", .asc⟩, ⟨"id", .asc⟩]⟩ :=
    ⟨accepts_twoAtATime.undotted, accepts_twoAtATime.version_lt, ⟨_, rfl, rfl⟩, rfl⟩
  have haccepted : Cursor.decodeFor aheadOfRows.encode ⟨[⟨"n", .asc⟩, ⟨"id", .asc⟩]⟩ "id" 1 =
      .ok aheadOfRows := hplain.decodeFor_encode hlength rfl rfl
  obtain ⟨page, hpage, -⟩ := exists_stream_beyond Part.whole (s := blurredRows) hids
    (haccepts.continued (some aheadOfRows.encode)) (.token haccepted)
  have haborted : (pagerOfRows.stream {
      sort := some (.ascending "n"), after := some aheadOfRows.encode }).runOn blurredRows =
        (if SortOrder.canSort ⟨[⟨"n", .asc⟩, ⟨"id", .asc⟩]⟩ (SortOrder.beyondOf
            ⟨[⟨"n", .asc⟩, ⟨"id", .asc⟩]⟩ .all (aheadOfRows.values ++ [aheadOfRows.id])
              blurredRows.docs) then .ok page
          else .error .contradictoryOrder, blurredRows) := hpage
  rw [hbeyond, if_neg hcannot] at haborted
  exact ⟨hids, hplain.decode_encode hlength, rfl, _, haborted, fun h => h⟩

end Pager
end Quire
