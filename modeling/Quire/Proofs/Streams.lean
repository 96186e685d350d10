import Mathlib.Data.List.Pairwise
import Quire.Paging
import Quire.Proofs.CursorTokens
import Quire.Proofs.KeysetFilters
import Quire.Proofs.TotalOrders

/-!
# Streams

What one request of a stream returns: of the matching documents beyond the position of its cursor,
in order, as many as fit, with a cursor that stands for the position of the last one. A chain of
requests over an unchanged collection returns every matching document once.
-/
namespace Quire

/-- Stored documents as keyset paging needs them: with whole signed numbers, and each with an
identifier of its own. The fields of a document are listed in order, as every operation on
documents keeps them. -/
structure Regular (idField : String) (docs : List Document) : Prop where
  ordered : ∀ d ∈ docs, (Value.obj d).Ordered
  signed : ∀ d ∈ docs, (Value.obj d).Signed
  hasId : ∀ d ∈ docs, (Collection.idOf? idField d).isSome = true
  distinct : docs.Pairwise fun a b =>
    (a.get? idField).all (fun id => !Collection.hasId idField id b) = true

instance (idField : String) (docs : List Document) : Decidable (Regular idField docs) :=
  decidable_of_iff
    ((∀ d ∈ docs, (Value.obj d).Ordered ∧ (Value.obj d).Signed ∧
        (Collection.idOf? idField d).isSome = true) ∧
      docs.Pairwise fun a b =>
        (a.get? idField).all (fun id => !Collection.hasId idField id b) = true)
    ⟨fun h => ⟨fun d hd => (h.1 d hd).1, fun d hd => (h.1 d hd).2.1, fun d hd => (h.1 d hd).2.2,
        h.2⟩,
      fun h => ⟨fun d hd => ⟨h.ordered d hd, h.signed d hd, h.hasId d hd⟩, h.distinct⟩⟩

namespace Regular

variable {idField : String} {docs : List Document} {sort : SortOrder}

theorem get?_of_mem (h : Regular idField docs) {d : Document} (hd : d ∈ docs) :
    ∃ id, d.get? idField = some id ∧ id.isNull = false := by
  obtain ⟨id, hid⟩ := Option.isSome_iff_exists.mp (h.hasId d hd)
  rw [Collection.idOf?, Option.filter_eq_some_iff] at hid
  exact ⟨id, hid.1, by simpa using hid.2⟩

theorem signed_of_mem_position (h : Regular idField docs) {d : Document} (hd : d ∈ docs) :
    ∀ v ∈ sort.position d, v.Signed := by
  intro v hv
  obtain ⟨name, -, rfl⟩ := List.mem_map.mp hv
  exact Document.every_fieldOrNull rfl (h.signed d hd) name

theorem totalOn (h : Regular idField docs) : sort.TotalOn docs :=
  SortOrder.totalOn_of_signed fun _ hd => h.signed_of_mem_position hd

theorem position_eq (hsort : sort.EndsWith idField) (hdot : '.' ∉ idField.toList) {d : Document}
    {id : Value} (hid : d.get? idField = some id) :
    sort.position d = (sort.names.filter (· != idField)).map d.fieldOrNull ++ [id] := by
  rw [SortOrder.position, hsort.names_eq]
  simp only [List.map_append, List.map_cons, List.map_nil, Document.fieldOrNull_of_get? hdot hid,
    List.filter_append, List.filter_filter, Bool.and_self, bne_self_eq_false, List.filter_cons,
    List.filter_nil, Bool.false_eq_true, if_false, List.append_nil]

theorem eq_of_hasId (h : Regular idField docs) {a b : Document} (ha : a ∈ docs) (hb : b ∈ docs)
    {id : Value} (hid : a.get? idField = some id) (hb' : Collection.hasId idField id b = true) :
    a = b := by
  have hsymm : Std.Symm fun c d : Document =>
      (c.get? idField).all (fun v => !Collection.hasId idField v d) = true := by
    refine ⟨fun c d hcd => ?_⟩
    cases hc : c.get? idField with
    | none => simp [Collection.hasId, hc]
    | some w =>
      cases hd : d.get? idField with
      | none => rfl
      | some v =>
        simp only [Collection.hasId, hc, hd, Option.all_some, Option.any_some, Value.equal,
          ← Value.compare_swap w v] at hcd ⊢
        cases hwv : w.compare v <;> simp_all
  by_contra hne
  have hfalse := List.Pairwise.forall h.distinct ha hb hne
  rw [hid, Option.all_some, hb'] at hfalse
  cases hfalse

/-- A sort order that ends with the identifier tells the documents apart. -/
theorem separates (h : Regular idField docs) (hsort : sort.EndsWith idField)
    (hdot : '.' ∉ idField.toList) : sort.Separates docs where
  signed _ hd := h.signed_of_mem_position hd
  distinct := by
    refine h.distinct.imp_of_mem fun {a b} ha hb hne heq => ?_
    obtain ⟨v, hv, -⟩ := h.get?_of_mem ha
    obtain ⟨w, hw, -⟩ := h.get?_of_mem hb
    rw [position_eq hsort hdot hv, position_eq hsort hdot hw] at heq
    have hlast := (List.append_inj' heq rfl).2
    simp only [List.cons.injEq, and_true] at hlast
    rw [hv, Option.all_some, Collection.hasId, hw, Option.any_some, hlast, Value.equal,
      Value.compare_self] at hne
    cases hne

end Regular

/-! ## Cursors of documents -/

/-- The values of a position are not nested too deep for a token. -/
def SortOrder.Shallow (sort : SortOrder) (d : Document) : Prop :=
  ∀ v ∈ sort.position d, v.depth < 100

instance (sort : SortOrder) (d : Document) : Decidable (sort.Shallow d) :=
  inferInstanceAs (Decidable (∀ v ∈ sort.position d, v.depth < 100))

/-- The cursor of a document holds its position, and a token can carry it. -/
theorem Regular.exists_ofDocument {idField : String} {docs : List Document} {sort : SortOrder}
    (h : Regular idField docs) (hsort : sort.EndsWith idField) (hdot : '.' ∉ idField.toList)
    {version : Nat} (hversion : version < twoPow 32) {d : Document} (hd : d ∈ docs)
    (hshallow : sort.Shallow d) :
    ∃ c, Cursor.ofDocument d sort idField version = .ok c ∧ c.Plain ∧ c.version = version ∧
      c.signature = sort.signature ∧
      c.values.length = (sort.names.filter (· != idField)).length ∧
      sort.position d = c.values ++ [c.id] := by
  obtain ⟨id, hid, hnull⟩ := h.get?_of_mem hd
  obtain ⟨primary, hprimary⟩ := hsort.primary?_isSome
  have hposition := Regular.position_eq hsort hdot hid
  have hcarries : ∀ v ∈ sort.position d, Cursor.Carries v := by
    intro v hv
    have hdepth := hshallow v hv
    have hlimit : Value.depthLimit = 127 := rfl
    refine ⟨(h.signed_of_mem_position hd v hv).whole, ?_, by omega⟩
    obtain ⟨name, -, rfl⟩ := List.mem_map.mp hv
    exact Document.every_fieldOrNull rfl (h.ordered d hd) name
  rw [hposition] at hcarries
  rw [Cursor.ofDocument, hid, Option.filter_some, if_pos (by simp [hnull]), hprimary]
  refine ⟨_, rfl, ⟨hversion, fun v hv => ?_, ?_⟩, rfl, rfl, List.length_map .., hposition⟩
  · exact hcarries v (List.mem_append_left _ hv)
  · exact hcarries id (by simp)

namespace PagingSettings

/-- What a request continues from: the beginning, or the position in its token. -/
inductive ContinuesFrom (s : PagingSettings) (sort : SortOrder) :
    Option String → Option (List Value) → Prop
  | beginning : ContinuesFrom s sort none none
  | token {token : String} {c : Cursor}
      (h : Cursor.decodeFor token sort s.idField s.cursorVersion = .ok c) :
      ContinuesFrom s sort (some token) (some (c.values ++ [c.id]))

end PagingSettings

theorem Cursor.length_values_of_decodeFor {token : String} {sort : SortOrder} {idField : String}
    {version : Nat} {c : Cursor} (h : decodeFor token sort idField version = .ok c) :
    c.values.length = (sort.names.filter (· != idField)).length := by
  rw [decodeFor] at h
  cases hdecode : decode token with
  | error e => rw [hdecode] at h; cases h
  | ok d =>
    rw [hdecode] at h
    simp only [bind, Except.bind] at h
    cases hcheck : d.checkVersion version with
    | error e => rw [hcheck] at h; cases h
    | ok u =>
      rw [hcheck] at h
      simp only [checkSort] at h
      split at h
      · cases h
      · next hsort =>
        cases h
        split at hsort
        · next hboth => exact hboth.2
        · cases hsort

/-- Whether a document lies beyond a position, which all do at the beginning. -/
def SortOrder.liesBeyond (sort : SortOrder) (position : Option (List Value)) (d : Document) :
    Bool :=
  position.all fun vs => comparePositions sort.fields (sort.position d) vs == .gt

namespace PagingSettings

variable {s : PagingSettings} {sort : SortOrder}

/-- The filter of a request selects the matching documents beyond its position. -/
theorem exists_keysetFilter (hsort : sort.EndsWith s.idField) {r : KeysetRequest}
    {position : Option (List Value)} (hafter : s.ContinuesFrom sort r.after position) :
    ∃ f, s.keysetFilter r sort = .ok f ∧
      ∀ d, f.holds d = (r.filter.holds d && sort.liesBeyond position d) := by
  rw [keysetFilter]
  cases hafter' : r.after with
  | none =>
    rw [hafter'] at hafter
    cases hafter
    exact ⟨r.filter, rfl, fun d => by simp [SortOrder.liesBeyond]⟩
  | some token =>
    rw [hafter'] at hafter
    cases hafter with
    | token hdecode =>
      rename_i c
      have hlen := Cursor.length_values_of_decodeFor hdecode
      have hfields : c.values.length + 1 = sort.fields.length := by
        rw [hlen, hsort.length_names_filter]
      obtain ⟨f, hf⟩ := hsort.after_isOk r.filter c.id hfields
      refine ⟨f, ?_, fun d => ?_⟩
      · simp only [hdecode, bind, Except.bind, hf]
      · rw [SortOrder.holds_after hf, SortOrder.liesBeyond, Option.all_some]

end PagingSettings

/-! ## One request -/

/-- The matching documents beyond a position, in order. -/
def SortOrder.remaining (sort : SortOrder) (filter : Filter) (position : Option (List Value))
    (docs : List Document) : List Document :=
  sort.sort (docs.filter fun d => filter.holds d && sort.liesBeyond position d)

theorem SortOrder.mem_remaining {sort : SortOrder} {filter : Filter}
    {position : Option (List Value)} {docs : List Document} {d : Document} :
    d ∈ sort.remaining filter position docs ↔
      d ∈ docs ∧ filter.holds d = true ∧ sort.liesBeyond position d = true := by
  rw [remaining, (sort_perm _ _).mem_iff, List.mem_filter, Bool.and_eq_true]

/-- A page holds as many of the remaining documents as fit. There is more exactly where some do
not fit, and then its token, if it is not too long, continues after the last one that does. -/
structure PagingSettings.IsPageOf (s : PagingSettings) (sort : SortOrder) (limit : Nat)
    (remaining : List Document) (page : KeysetPage) : Prop where
  docs : page.docs = remaining.take limit
  hasMore : page.hasMore = decide (limit < remaining.length)
  next_eq_none : remaining.length ≤ limit → page.next = none
  next_eq_some : limit < remaining.length → ∃ last token,
    page.docs.getLast? = some last ∧ page.next = some token ∧
      (Cursor.tokenLength token ≤ Cursor.tokenLimit →
        s.ContinuesFrom sort (some token) (some (sort.position last)))

namespace PagingSettings

variable {s : PagingSettings} {sort : SortOrder}

theorem keysetSort_of_forKeyset {requested : SortOrder}
    (h : requested.forKeyset s.idField = .ok sort) : s.keysetSort (some requested) = .ok sort := by
  rw [keysetSort, Option.filter_some, if_pos (by simp [SortOrder.ne_empty_of_forKeyset h])]
  exact h

/-- A keyset request without a projection, whose sort order is accepted in the given form. The
identifier is a field of the document itself, and the version of cursors has its width. -/
structure Accepts (s : PagingSettings) (r : KeysetRequest) (sort : SortOrder) : Prop where
  undotted : '.' ∉ s.idField.toList
  version_lt : s.cursorVersion < twoPow 32
  sort_eq : ∃ requested, r.sort = some requested ∧ requested.forKeyset s.idField = .ok sort
  projection_eq : r.projection = none

/-- A request is accepted wherever it continues from. -/
theorem Accepts.continued {r : KeysetRequest} (h : s.Accepts r sort) (after : Option String) :
    s.Accepts { r with after } sort := ⟨h.undotted, h.version_lt, h.sort_eq, h.projection_eq⟩

theorem Accepts.endsWith {r : KeysetRequest} (h : s.Accepts r sort) : sort.EndsWith s.idField := by
  obtain ⟨requested, -, hsort⟩ := h.sort_eq
  exact SortOrder.endsWith_forKeyset hsort

theorem Accepts.keysetSort {r : KeysetRequest} (h : s.Accepts r sort) :
    s.keysetSort r.sort = .ok sort := by
  obtain ⟨requested, hrequested, hsort⟩ := h.sort_eq
  rw [hrequested, keysetSort_of_forKeyset hsort]

theorem one_le_clampLimit (s : PagingSettings) (requested : Option Nat) :
    1 ≤ s.clampLimit requested := Nat.le_max_left _ _

/-- The page made of one document more than fit. -/
theorem exists_keysetPage {docs : List Document} (h : Regular s.idField docs)
    (hsort : sort.EndsWith s.idField) (hdot : '.' ∉ s.idField.toList)
    (hversion : s.cursorVersion < twoPow 32) {limit : Nat} (hlimit : 1 ≤ limit)
    {remaining : List Document} (hremaining : ∀ d ∈ remaining, d ∈ docs ∧ sort.Shallow d) :
    ∃ page, s.keysetPage sort limit (remaining.take (limit + 1)) = .ok page ∧
      s.IsPageOf sort limit remaining page := by
  rw [keysetPage]
  by_cases hfits : remaining.length ≤ limit
  · have htake : remaining.take (limit + 1) = remaining := List.take_of_length_le (by omega)
    rw [htake, if_pos hfits]
    refine ⟨_, rfl, (List.take_of_length_le hfits).symm, ?_, fun _ => rfl, fun hmore => ?_⟩
    · simp [KeysetPage.build, Nat.not_lt.mpr hfits]
    · omega
  · have htake : (remaining.take (limit + 1)).take limit = remaining.take limit := by
      rw [List.take_take, Nat.min_eq_left (by omega)]
    have hne : remaining.take limit ≠ [] := by
      rw [← List.length_pos_iff, List.length_take]
      omega
    rw [if_neg (by rw [List.length_take]; omega)]
    simp only [htake]
    rw [List.getLast?_eq_some_getLast hne]
    obtain ⟨hmem, hshallow⟩ := hremaining _ (List.mem_of_mem_take (List.getLast_mem hne))
    obtain ⟨c, hc, hplain, hcversion, hsignature, hvalues, hposition⟩ :=
      h.exists_ofDocument hsort hdot hversion hmem hshallow
    simp only [hc, bind, Except.bind]
    refine ⟨_, rfl, rfl, ?_, fun hle => absurd hle hfits, fun _ => ⟨_, _,
      List.getLast?_eq_some_getLast hne, rfl, fun hlen => ?_⟩⟩
    · simp [KeysetPage.build, Nat.lt_of_not_le hfits]
    · rw [hposition]
      refine .token ?_
      rw [← hcversion]
      exact hplain.decodeFor_encode hlen hsignature hvalues

end PagingSettings

namespace Pager

variable {σ : Type} (part : Part σ Collection) {settings : PagingSettings} {sort : SortOrder}

/-- An accepted request returns the page of what remains, and changes nothing. -/
theorem exists_stream {s : σ} (h : Regular settings.idField (part.get s).docs)
    {r : KeysetRequest} (hr : settings.Accepts r sort)
    (hshallow : ∀ d ∈ (part.get s).docs, r.filter.holds d = true → sort.Shallow d)
    {position : Option (List Value)}
    (hafter : settings.ContinuesFrom sort r.after position) :
    ∃ page, ((Pager.mk (Collection.reader part) settings).stream r).runOn s = (.ok page, s) ∧
      settings.IsPageOf sort (settings.clampLimit r.limit)
        (sort.remaining r.filter position (part.get s).docs) page := by
  obtain ⟨f, hf, hholds⟩ := PagingSettings.exists_keysetFilter hr.endsWith hafter
  have hremaining : ∀ d ∈ sort.remaining r.filter position (part.get s).docs,
      d ∈ (part.get s).docs ∧ sort.Shallow d := by
    intro d hd
    obtain ⟨hmem, hholds, -⟩ := SortOrder.mem_remaining.mp hd
    exact ⟨hmem, hshallow d hmem hholds⟩
  obtain ⟨page, hpage, hpageOf⟩ := PagingSettings.exists_keysetPage h hr.endsWith hr.undotted
    hr.version_lt (settings.one_le_clampLimit r.limit) hremaining
  refine ⟨page, ?_, hpageOf⟩
  have hfind : (part.get s).find {
        filter := f, sort, limit := some (settings.clampLimit r.limit + 1)
        populate := r.populate } =
      .ok ((sort.remaining r.filter position (part.get s).docs).take
        (settings.clampLimit r.limit + 1)) := by
    rw [Collection.find_eq_ok (h.totalOn.filter _).canSort]
    simp only [Collection.select, hholds, List.drop_zero, SortOrder.remaining]
  rw [stream]
  simp only [Action.runOn_bind, Action.runOn_ofExcept, hr.keysetSort, hf, hr.projection_eq,
    PagingSettings.keysetProjection, Option.map_none, Collection.reader, Action.ofRead,
    Action.runOn_ofFun, hfind, hpage]

end Pager

/-! ## Chains of requests -/

namespace SortOrder

variable {sort : SortOrder}

theorem liesBeyond_position (sort : SortOrder) (d e : Document) :
    sort.liesBeyond (some (sort.position e)) d = (sort.compare e d == .lt) := by
  rw [liesBeyond, Option.all_some, ← compare_eq_comparePositions, ← compare_swap sort e d]
  cases sort.compare e d <;> rfl

theorem remaining_none (sort : SortOrder) (filter : Filter) (docs : List Document) :
    sort.remaining filter none docs = sort.sort (docs.filter fun d => filter.holds d) := by
  simp [remaining, liesBeyond]

/-- What lies beyond a position is a part of what lies beyond the beginning. -/
theorem Separates.remaining_eq_filter {docs : List Document} (h : sort.Separates docs)
    (filter : Filter) (position : Option (List Value)) :
    sort.remaining filter position docs =
      (sort.remaining filter none docs).filter (sort.liesBeyond position) := by
  rw [remaining_none, ← (h.filter _).sort_filter, List.filter_filter, remaining]
  simp only [Bool.and_comm]

theorem Separates.pairwise_remaining {docs : List Document} (h : sort.Separates docs)
    (filter : Filter) (position : Option (List Value)) :
    (sort.remaining filter position docs).Pairwise fun a b => sort.compare a b = .lt :=
  (h.filter _).pairwise_sort

/-- Of a list in strict order, what lies beyond one of its documents is what comes after it. -/
theorem filter_liesBeyond_append {front back : List Document} {last : Document}
    (h : (front ++ back).Pairwise fun a b => sort.compare a b = .lt)
    (hlast : front.getLast? = some last) :
    (front ++ back).filter (sort.liesBeyond (some (sort.position last))) = back := by
  obtain ⟨init, rfl⟩ := List.getLast?_eq_some_iff.mp hlast
  rw [List.append_assoc, List.pairwise_append] at h
  have hback := (List.pairwise_cons.mp h.2.1).1
  have hinit : ∀ d ∈ init ++ [last], sort.liesBeyond (some (sort.position last)) d = false := by
    intro d hd
    rw [liesBeyond_position, ← compare_swap sort d last]
    rcases List.mem_append.mp hd with hd | hd
    · rw [h.2.2 d hd last List.mem_cons_self]
      rfl
    · rw [List.mem_singleton.mp hd, compare_self]
      rfl
  rw [List.filter_append, List.filter_eq_nil_iff.mpr (by simpa using hinit), List.nil_append,
    List.filter_eq_self]
  intro d hd
  rw [liesBeyond_position, hback d hd]
  rfl

end SortOrder

/-- The pages that hold some documents: all but the last page are full, and each says whether
another one follows. -/
structure PagesOf (limit : Nat) (docs : List Document) (pages : List KeysetPage) : Prop where
  length : pages.length = max 1 ((docs.length + limit - 1) / limit)
  full : ∀ (i : Nat) (h : i < pages.length), i + 1 < pages.length → pages[i].docs.length = limit
  hasMore : ∀ (i : Nat) (h : i < pages.length), pages[i].hasMore = decide (i + 1 < pages.length)
  next : ∀ (i : Nat) (h : i < pages.length), pages[i].next.isSome = decide (i + 1 < pages.length)
  docs : pages.flatMap (·.docs) = docs

namespace PagesOf

variable {s : PagingSettings} {sort : SortOrder} {limit : Nat} {docs : List Document}
  {page : KeysetPage}

theorem single (h : s.IsPageOf sort limit docs page) (hlimit : 1 ≤ limit)
    (hfits : docs.length ≤ limit) : PagesOf limit docs [page] where
  length := by
    rw [Nat.max_eq_left]
    · rfl
    · have hlt : docs.length + limit - 1 < 2 * limit := by omega
      exact Nat.le_of_lt_succ (Nat.div_lt_of_lt_mul (by omega))
  full i hi hlt := by simp only [List.length_singleton] at hlt; omega
  hasMore i hi := by
    simp only [List.length_singleton] at hi
    have hzero : i = 0 := by omega
    subst hzero
    simp [h.hasMore, Nat.not_lt.mpr hfits]
  next i hi := by
    simp only [List.length_singleton] at hi
    have hzero : i = 0 := by omega
    subst hzero
    simp [h.next_eq_none hfits]
  docs := by simp [h.docs, List.take_of_length_le hfits]

theorem cons (h : s.IsPageOf sort limit docs page) (hlimit : 1 ≤ limit)
    (hmore : limit < docs.length) {pages : List KeysetPage}
    (hpages : PagesOf limit (docs.drop limit) pages) : PagesOf limit docs (page :: pages) := by
  have hpos : 0 < pages.length := by
    rw [hpages.length]
    omega
  obtain ⟨last, token, -, htoken, -⟩ := h.next_eq_some hmore
  refine ⟨?_, fun i hi hlt => ?_, fun i hi => ?_, fun i hi => ?_, ?_⟩
  · have hsplit : docs.length + limit - 1 = docs.length - 1 + limit := by omega
    have hrest : docs.length - limit + limit - 1 = docs.length - 1 := by omega
    have hdiv : 1 ≤ (docs.length - 1) / limit :=
      (Nat.le_div_iff_mul_le (by omega)).mpr (by omega)
    rw [List.length_cons, hpages.length, List.length_drop, hrest, hsplit,
      Nat.add_div_right _ (by omega), Nat.max_eq_right hdiv, Nat.max_eq_right (by omega)]
  · cases i with
    | zero =>
      rw [List.getElem_cons_zero, h.docs, List.length_take]
      omega
    | succ i =>
      simp only [List.length_cons] at hi hlt
      exact hpages.full i (by omega) (by omega)
  · cases i with
    | zero => simp [h.hasMore, hmore, hpos]
    | succ i =>
      simp only [List.length_cons] at hi
      simpa using hpages.hasMore i (by omega)
  · cases i with
    | zero => simp [htoken, hpos]
    | succ i =>
      simp only [List.length_cons] at hi
      simpa using hpages.next i (by omega)
  · rw [List.flatMap_cons, h.docs, hpages.docs, List.take_append_drop]

end PagesOf

namespace Pager

variable {σ : Type} (part : Part σ Collection) {settings : PagingSettings} {sort : SortOrder}

/-- Whether all tokens of a chain of requests are short enough to be read. -/
def ShortTokens (p : Pager σ) (r : KeysetRequest) (s : σ) : Prop :=
  ∀ bound pages, (p.walk bound r).runOn s = (.ok pages, s) →
    ∀ page ∈ pages, ∀ token, page.next = some token →
      Cursor.tokenLength token ≤ Cursor.tokenLimit

/-- The tokens of a chain are short if its first one is, and those of the rest are. -/
theorem ShortTokens.of_stream {p : Pager σ} {r : KeysetRequest} {s : σ} {page : KeysetPage}
    (hpage : (p.stream r).runOn s = (.ok page, s))
    (hnext : ∀ token, page.next = some token → Cursor.tokenLength token ≤ Cursor.tokenLimit ∧
      ShortTokens p { r with after := some token } s) : ShortTokens p r s := by
  intro bound pages hwalk
  cases bound with
  | zero =>
    cases hwalk
    simp
  | succ bound =>
    rw [walk, Action.runOn_bind, hpage] at hwalk
    cases htoken : page.next with
    | none =>
      simp only [htoken, Action.runOn_pure, Prod.mk.injEq, Except.ok.injEq, and_true] at hwalk
      subst hwalk
      simp [htoken]
    | some token =>
      obtain ⟨hshort, hrest⟩ := hnext token htoken
      simp only [htoken, Action.runOn_bind] at hwalk
      cases hpages : (p.walk bound { r with after := some token }).runOn s with
      | mk outcome t =>
        cases outcome with
        | error e => simp [hpages] at hwalk
        | ok rest =>
          simp only [hpages, Action.runOn_pure, Prod.mk.injEq, Except.ok.injEq] at hwalk
          obtain ⟨rfl, rfl⟩ := hwalk
          rw [List.forall_mem_cons]
          refine ⟨fun token' htoken' => ?_, hrest bound rest hpages⟩
          cases htoken.symm.trans htoken'
          exact hshort

theorem runOn_walk_of_next_eq_none {p : Pager σ} {r : KeysetRequest} {s : σ} {page : KeysetPage}
    (hpage : (p.stream r).runOn s = (.ok page, s)) (hnext : page.next = none) {bound : Nat}
    (hbound : 1 ≤ bound) : (p.walk bound r).runOn s = (.ok [page], s) := by
  obtain ⟨bound, rfl⟩ : ∃ b, bound = b + 1 := ⟨bound - 1, by omega⟩
  rw [walk, Action.runOn_bind, hpage]
  simp only [hnext, Action.runOn_pure]

theorem runOn_walk_of_next_eq_some {p : Pager σ} {r : KeysetRequest} {s : σ} {page : KeysetPage}
    (hpage : (p.stream r).runOn s = (.ok page, s)) {token : String} (hnext : page.next = some token)
    {bound : Nat} {pages : List KeysetPage}
    (hrest : (p.walk bound { r with after := some token }).runOn s = (.ok pages, s)) :
    (p.walk (bound + 1) r).runOn s = (.ok (page :: pages), s) := by
  rw [walk, Action.runOn_bind, hpage]
  simp only [hnext, Action.runOn_bind, hrest, Action.runOn_pure]

/-- A chain of requests returns what remains beyond the position that it continues from. What was
returned before, `front`, ends at that position. -/
theorem exists_walk_from {s : σ} (h : Regular settings.idField (part.get s).docs)
    {r : KeysetRequest} (hr : settings.Accepts r sort)
    (hshallow : ∀ d ∈ (part.get s).docs, r.filter.holds d = true → sort.Shallow d)
    {front back : List Document} {position : Option (List Value)}
    (hafter : settings.ContinuesFrom sort r.after position)
    (hall : sort.remaining r.filter none (part.get s).docs = front ++ back)
    (hback : sort.remaining r.filter position (part.get s).docs = back)
    (htokens : ShortTokens (Pager.mk (Collection.reader part) settings) r s) :
    ∃ pages,
      (∀ bound, pages.length ≤ bound →
        ((Pager.mk (Collection.reader part) settings).walk bound r).runOn s = (.ok pages, s)) ∧
      PagesOf (settings.clampLimit r.limit) back pages := by
  induction hn : back.length using Nat.strongRecOn generalizing r front back position with
  | ind n ih =>
    have hlimit := settings.one_le_clampLimit r.limit
    obtain ⟨page, hpage, hpageOf⟩ := exists_stream part h hr hshallow hafter
    rw [hback] at hpageOf
    by_cases hfits : back.length ≤ settings.clampLimit r.limit
    · refine ⟨[page], fun bound hbound => ?_, .single hpageOf hlimit hfits⟩
      exact runOn_walk_of_next_eq_none hpage (hpageOf.next_eq_none hfits) hbound
    · have hmore : settings.clampLimit r.limit < back.length := Nat.lt_of_not_le hfits
      obtain ⟨last, token, hlast, htoken, hcontinues⟩ := hpageOf.next_eq_some hmore
      rw [hpageOf.docs] at hlast
      have hone : ((Pager.mk (Collection.reader part) settings).walk 1 r).runOn s =
          (.ok [page], s) := runOn_walk_of_next_eq_some hpage htoken rfl
      have hshort := htokens 1 [page] hone page List.mem_cons_self token htoken
      have hseparates := h.separates hr.endsWith hr.undotted
      have hsorted := hseparates.pairwise_remaining r.filter none
      have hall' : sort.remaining r.filter none (part.get s).docs =
          (front ++ back.take (settings.clampLimit r.limit)) ++
            back.drop (settings.clampLimit r.limit) := by
        rw [hall, List.append_assoc, List.take_append_drop]
      have hback' : sort.remaining r.filter (some (sort.position last)) (part.get s).docs =
          back.drop (settings.clampLimit r.limit) := by
        rw [hseparates.remaining_eq_filter, hall']
        rw [hall'] at hsorted
        refine SortOrder.filter_liesBeyond_append hsorted ?_
        rw [List.getLast?_append, hlast, Option.some_or]
      obtain ⟨pages, hwalk, hpages⟩ := ih _ (by rw [List.length_drop]; omega)
        (hr.continued (some token)) hshallow (hcontinues hshort) hall' hback'
        (fun bound pages hrest p hp => htokens (bound + 1) (page :: pages)
          (runOn_walk_of_next_eq_some hpage htoken hrest) p (List.mem_cons_of_mem _ hp)) rfl
      refine ⟨page :: pages, fun bound hbound => ?_, .cons hpageOf hlimit hmore hpages⟩
      rw [List.length_cons] at hbound
      obtain ⟨bound, rfl⟩ : ∃ b, bound = b + 1 := ⟨bound - 1, by omega⟩
      exact runOn_walk_of_next_eq_some hpage htoken (hwalk bound (by omega))

/-- A chain of requests over an unchanged collection ends. Its pages hold what the store finds
without a limit, and that is every matching document once, in order. -/
theorem exists_walk_select {s : σ} (h : Regular settings.idField (part.get s).docs)
    {r : KeysetRequest} (hr : settings.Accepts r sort) (hafter : r.after = none)
    (hshallow : ∀ d ∈ (part.get s).docs, r.filter.holds d = true → sort.Shallow d)
    (htokens : ShortTokens (Pager.mk (Collection.reader part) settings) r s) :
    ∃ pages rows,
      (∀ bound, pages.length ≤ bound →
        ((Pager.mk (Collection.reader part) settings).walk bound r).runOn s = (.ok pages, s)) ∧
      PagesOf (settings.clampLimit r.limit) rows pages ∧
      ((Collection.reader part).find { filter := r.filter, sort }).runOn s = (.ok rows, s) ∧
      rows.length = (part.get s).count r.filter ∧
      rows.Perm ((part.get s).docs.filter fun d => r.filter.holds d) ∧
      rows.Pairwise fun a b => sort.compare a b = .lt := by
  have hseparates := (h.separates hr.endsWith hr.undotted).filter fun d => r.filter.holds d
  have hselect : (part.get s).select { filter := r.filter, sort } =
      sort.remaining r.filter none (part.get s).docs := by
    simp only [Collection.select, List.drop_zero, SortOrder.remaining_none]
  have hfind : (part.get s).find { filter := r.filter, sort } =
      .ok (sort.remaining r.filter none (part.get s).docs) :=
    hselect ▸ Collection.find_eq_ok (h.totalOn.filter _).canSort
  have hperm := sort.sort_perm ((part.get s).docs.filter fun d => r.filter.holds d)
  have hbeginning : settings.ContinuesFrom sort r.after none := hafter ▸ .beginning
  obtain ⟨pages, hwalk, hpages⟩ :=
    exists_walk_from part h hr hshallow hbeginning (List.nil_append _).symm rfl htokens
  refine ⟨pages, _, hwalk, hpages, Prod.ext hfind rfl, ?_⟩
  rw [SortOrder.remaining_none]
  exact ⟨hperm.length_eq, hperm, hseparates.pairwise_sort⟩

/-- Three documents, of which two agree in a field that the third lacks. -/
def threeRows : Collection where
  idField := "id"
  docs := [[("id", .int 1), ("n", .int 5)], [("id", .str "b")], [("id", .int 3), ("n", .int 5)]]

/-- Pages of two documents, the largest first. -/
def twoAtATime : KeysetRequest where
  sort := some ⟨[⟨"n", .desc⟩]⟩
  limit := some 2

/-- Paging over the documents alone. -/
def pagerOfRows : Pager Collection := ⟨Collection.reader Part.whole, { idField := "id" }⟩

theorem regular_threeRows : Regular "id" threeRows.docs := by decide +kernel

theorem accepts_twoAtATime :
    pagerOfRows.settings.Accepts twoAtATime ⟨[⟨"n", .desc⟩, ⟨"id", .desc⟩]⟩ where
  undotted := by decide
  version_lt := by decide
  sort_eq := ⟨⟨[⟨"n", .desc⟩]⟩, rfl, by simp [pagerOfRows, SortOrder.forKeyset,
    SortOrder.isEmpty, SortOrder.distinctFields, SortOrder.endWith, SortOrder.dominant, Except.map]⟩
  projection_eq := rfl

theorem shallow_threeRows : ∀ d ∈ threeRows.docs, twoAtATime.filter.holds d = true →
    SortOrder.Shallow ⟨[⟨"n", .desc⟩, ⟨"id", .desc⟩]⟩ d := by
  decide +kernel

/-- The first page ends with a short token, and the second one is the last. -/
theorem shortTokens_threeRows : ShortTokens pagerOfRows twoAtATime threeRows := by
  have hshort : (((pagerOfRows.stream twoAtATime).runOn threeRows).1.toOption.all fun page =>
      page.next.all fun token => Cursor.tokenLength token ≤ Cursor.tokenLimit) = true := by
    decide +kernel
  have hlast : (((pagerOfRows.stream twoAtATime).runOn threeRows).1.toOption.all fun page =>
      ((pagerOfRows.stream { twoAtATime with after := page.next }).runOn threeRows).1.toOption.all
        (·.next.isNone)) = true := by
    decide +kernel
  obtain ⟨first, hfirst, hfirstOf⟩ := exists_stream Part.whole (s := threeRows)
    regular_threeRows accepts_twoAtATime shallow_threeRows .beginning
  change (pagerOfRows.stream twoAtATime).runOn threeRows = _ at hfirst
  simp only [hfirst, Except.toOption, Option.all_some] at hshort hlast
  refine ShortTokens.of_stream hfirst fun token htoken => ?_
  have hlen : Cursor.tokenLength token ≤ Cursor.tokenLimit := by simpa [htoken] using hshort
  refine ⟨hlen, ?_⟩
  obtain ⟨last, token', -, htoken', hcontinues⟩ := hfirstOf.next_eq_some (by decide +kernel)
  cases htoken.symm.trans htoken'
  obtain ⟨second, hsecond, -⟩ := exists_stream Part.whole (s := threeRows)
    regular_threeRows (accepts_twoAtATime.continued (some token)) shallow_threeRows
    (hcontinues hlen)
  change (pagerOfRows.stream { twoAtATime with after := some token }).runOn threeRows = _
    at hsecond
  rw [htoken, hsecond] at hlast
  refine ShortTokens.of_stream hsecond fun token' htoken' => ?_
  simp [htoken'] at hlast

/-- Three documents in pages of two. -/
theorem exists_walk_select_threeRows :
    ∃ pages rows,
      (∀ bound, pages.length ≤ bound →
        (pagerOfRows.walk bound twoAtATime).runOn threeRows = (.ok pages, threeRows)) ∧
      PagesOf 2 rows pages ∧
      (pagerOfRows.reader.find {
        filter := twoAtATime.filter, sort := ⟨[⟨"n", .desc⟩, ⟨"id", .desc⟩]⟩ }).runOn threeRows =
          (.ok rows, threeRows) ∧
      rows.length = 3 ∧ rows.Perm threeRows.docs ∧
      rows.Pairwise fun a b =>
        SortOrder.compare ⟨[⟨"n", .desc⟩, ⟨"id", .desc⟩]⟩ a b = .lt := by
  have hall : (threeRows.docs.filter fun d => twoAtATime.filter.holds d) = threeRows.docs := rfl
  obtain ⟨pages, rows, hwalk, hpages, hfind, hlength, hperm, hsorted⟩ :=
    exists_walk_select Part.whole (s := threeRows) regular_threeRows accepts_twoAtATime
      rfl shallow_threeRows shortTokens_threeRows
  exact ⟨pages, rows, hwalk, hpages, hfind, hlength.trans rfl, hall ▸ hperm, hsorted⟩

end Pager
end Quire
