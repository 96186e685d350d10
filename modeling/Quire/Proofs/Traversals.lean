import Mathlib.Data.List.Induction
import Mathlib.Data.List.Infix
import Quire.Proofs.Streams
import Quire.Store.Calls

/-!
# Traversals of a changing collection

A chain of requests between which others write. Whatever they write, the positions of the returned
documents increase strictly, and a document that stays in its place is returned once.
-/
namespace Quire

/-- Makes a call and drops its result. -/
def StoreCall.perform {σ : Type} (store : Store σ) : StoreCall → Action σ Unit
  | .find q => do let _ ← store.find q
  | .findOne q => do let _ ← store.findOne q
  | .count f => do let _ ← store.count f
  | .estimate => do let _ ← store.estimate
  | .aggregate stages => do let _ ← store.aggregate stages
  | .insertOne d => do let _ ← store.insertOne d
  | .insertMany ds => do let _ ← store.insertMany ds
  | .updateOne f patch => do let _ ← store.updateOne f patch
  | .updateMany f patch => do let _ ← store.updateMany f patch
  | .deleteOne f => do let _ ← store.deleteOne f
  | .deleteMany f => do let _ ← store.deleteMany f

/-- A traversal under way: the state that others change too, and what was returned so far. -/
structure Traversal (σ : Type) where
  state : σ
  pages : List KeysetPage := []
  /-- The token that the next request brings. -/
  after : Option String := none
  /-- Whether the last page had no token. -/
  ended : Bool := false
  /-- The fault of a failed request. -/
  fault : Option Fault := none

namespace Traversal

/-- What happens in a traversal. -/
inductive Event where
  /-- A call of somebody else. -/
  | call (c : StoreCall)
  /-- The next request. -/
  | request

variable {σ : Type}

/-- The documents returned so far. -/
def docs (t : Traversal σ) : List Document := t.pages.flatMap (·.docs)

/-- The next request; after the last page there is none. -/
def request (p : Pager σ) (r : KeysetRequest) (t : Traversal σ) : Traversal σ :=
  if t.ended then t
  else
    match (p.stream { r with after := t.after }).runOn t.state with
    | (.ok page, s) =>
      { t with
        state := s, pages := t.pages ++ [page], after := page.next, ended := page.next.isNone }
    | (.error e, s) => { t with state := s, ended := true, fault := some e }

/-- One event over a collection in memory. -/
def step (part : Part σ Collection) (ids : Part σ IdSource) (settings : PagingSettings)
    (r : KeysetRequest) (t : Traversal σ) : Event → Traversal σ
  | .call c => { t with state := ((c.perform (Collection.store part ids)).runOn t.state).2 }
  | .request => t.request ⟨Collection.reader part, settings⟩ r

/-- The traversal after some events. -/
def run (part : Part σ Collection) (ids : Part σ IdSource) (settings : PagingSettings)
    (r : KeysetRequest) (s : σ) (events : List Event) : Traversal σ :=
  events.foldl (step part ids settings r) { state := s }

variable {part : Part σ Collection} {ids : Part σ IdSource} {settings : PagingSettings}
  {sort : SortOrder} {r : KeysetRequest} {t : Traversal σ}

/-- The returned documents are in strict order, and the next request continues after the last of
them. -/
structure InOrder (settings : PagingSettings) (sort : SortOrder) (t : Traversal σ) : Prop where
  fault_eq : t.fault = none
  signed : ∀ d ∈ t.docs, ∀ v ∈ sort.position d, v.Signed
  pairwise : t.docs.Pairwise fun a b => sort.compare a b = .lt
  continues : t.ended = false →
    settings.ContinuesFrom sort t.after (t.docs.getLast?.map sort.position)

/-- What the collection must satisfy whenever it is read. -/
structure Readable (settings : PagingSettings) (sort : SortOrder) (filter : Filter)
    (docs : List Document) : Prop where
  regular : Regular settings.idField docs
  shallow : ∀ d ∈ docs, filter.holds d = true → sort.Shallow d

instance (settings : PagingSettings) (sort : SortOrder) (filter : Filter) (docs : List Document) :
    Decidable (Readable settings sort filter docs) :=
  decidable_of_iff (Regular settings.idField docs ∧
      ∀ d ∈ docs, filter.holds d = true → sort.Shallow d)
    ⟨fun h => ⟨h.1, h.2⟩, fun h => ⟨h.regular, h.shallow⟩⟩

/-- Where requests do not fail, the next one adds a page of what remains beyond the last
document. -/
theorem exists_request (hr : settings.Accepts r sort)
    (h : Readable settings sort r.filter (part.get t.state).docs) (ht : t.InOrder settings sort)
    (hended : t.ended = false) :
    ∃ page,
      t.request ⟨Collection.reader part, settings⟩ r =
        { t with pages := t.pages ++ [page], after := page.next, ended := page.next.isNone } ∧
      settings.IsPageOf sort (settings.clampLimit r.limit)
        (sort.remaining r.filter (t.docs.getLast?.map sort.position) (part.get t.state).docs)
        page := by
  obtain ⟨page, hpage, hpageOf⟩ := Pager.exists_stream part (s := t.state) h.regular
    (hr.continued t.after) h.shallow (ht.continues hended)
  refine ⟨page, ?_, hpageOf⟩
  rw [request, if_neg (by simp [hended]), hpage]

theorem docs_append_page (t : Traversal σ) (page : KeysetPage) (after : Option String)
    (ended : Bool) :
    docs { t with pages := t.pages ++ [page], after, ended } = t.docs ++ page.docs := by
  simp [docs]

/-- A document in strict order after the last returned one comes after all of them. -/
theorem InOrder.compare_of_liesBeyond (ht : t.InOrder settings sort) {d : Document}
    (hd : ∀ v ∈ sort.position d, v.Signed)
    (hbeyond : sort.liesBeyond (t.docs.getLast?.map sort.position) d = true) :
    ∀ a ∈ t.docs, sort.compare a d = .lt := by
  intro a ha
  obtain ⟨last, hlast⟩ : ∃ last, t.docs.getLast? = some last :=
    Option.ne_none_iff_exists'.mp fun hnone => by
      rw [List.getLast?_eq_none_iff.mp hnone] at ha
      cases ha
  rw [hlast, Option.map_some, SortOrder.liesBeyond_position, beq_iff_eq] at hbeyond
  obtain ⟨init, hinit⟩ := List.getLast?_eq_some_iff.mp hlast
  have hpairwise := ht.pairwise
  have hsigned := ht.signed
  rw [hinit] at ha hpairwise hsigned
  rcases List.mem_append.mp ha with ha | ha
  · have halast := (List.pairwise_append.mp hpairwise).2.2 a ha last (by simp)
    rw [SortOrder.compare_eq_comparePositions] at halast hbeyond ⊢
    exact SortOrder.comparePositions_trans (hsigned a (by simp [ha])) (hsigned last (by simp)) hd
      halast hbeyond
  · rw [List.mem_singleton.mp ha]
    exact hbeyond

/-- A request keeps the returned documents in order. -/
theorem InOrder.request (hr : settings.Accepts r sort)
    (h : Readable settings sort r.filter (part.get t.state).docs) (ht : t.InOrder settings sort)
    (hshort : ∀ page ∈ (t.request ⟨Collection.reader part, settings⟩ r).pages,
      ∀ token, page.next = some token → Cursor.tokenLength token ≤ Cursor.tokenLimit) :
    (t.request ⟨Collection.reader part, settings⟩ r).InOrder settings sort := by
  cases hended : t.ended with
  | true => rwa [Traversal.request, if_pos hended]
  | false =>
    obtain ⟨page, hpage, hpageOf⟩ := exists_request hr h ht hended
    rw [hpage] at hshort ⊢
    have hnew : ∀ d ∈ page.docs, d ∈ (part.get t.state).docs ∧ r.filter.holds d = true ∧
        sort.liesBeyond (t.docs.getLast?.map sort.position) d = true := by
      intro d hd
      rw [hpageOf.docs] at hd
      exact SortOrder.mem_remaining.mp (List.mem_of_mem_take hd)
    have hsigned : ∀ d ∈ page.docs, ∀ v ∈ sort.position d, v.Signed :=
      fun d hd => h.regular.signed_of_mem_position (hnew d hd).1
    refine ⟨ht.fault_eq, ?_, ?_, fun hnext => ?_⟩
    · rw [docs_append_page]
      intro d hd
      exact (List.mem_append.mp hd).elim (ht.signed d) (hsigned d)
    · rw [docs_append_page, List.pairwise_append]
      refine ⟨ht.pairwise, ?_, fun a ha d hd =>
        ht.compare_of_liesBeyond (hsigned d hd) (hnew d hd).2.2 a ha⟩
      rw [hpageOf.docs]
      have hseparates := h.regular.separates hr.endsWith hr.undotted
      exact (hseparates.pairwise_remaining r.filter _).sublist (List.take_sublist _ _)
    · obtain ⟨token, htoken⟩ := Option.ne_none_iff_exists'.mp
        (fun hnone => by simp [hnone] at hnext : page.next ≠ none)
      by_cases hfits : (sort.remaining r.filter (t.docs.getLast?.map sort.position)
          (part.get t.state).docs).length ≤ settings.clampLimit r.limit
      · rw [hpageOf.next_eq_none hfits] at htoken
        cases htoken
      · obtain ⟨last, token', hlast, htoken', hcontinues⟩ :=
          hpageOf.next_eq_some (Nat.lt_of_not_le hfits)
        rw [docs_append_page, List.getLast?_append, hlast]
        simp only [htoken', Option.some_or, Option.map_some]
        exact hcontinues (hshort page (by simp) token' htoken')

/-! ## Documents that stay -/

/-- A matching document with the identifier stands at the position. -/
def Stays (sort : SortOrder) (idField : String) (filter : Filter) (id : Value)
    (position : List Value) (docs : List Document) : Prop :=
  ∃ d ∈ docs, filter.holds d = true ∧ d.get? idField = some id ∧ sort.position d = position

/-- Whether a document stands at a position can be computed, where numbers are whole and signed. -/
theorem stays_of_any {idField : String} {filter : Filter} {id : Value} {position : List Value}
    {docs : List Document} (h : Regular idField docs) (hid : id.Signed)
    (hposition : ∀ v ∈ position, v.Signed) (hlen : position.length = sort.fields.length)
    (hany : docs.any (fun d => filter.holds d && Collection.hasId idField id d &&
      SortOrder.comparePositions sort.fields (sort.position d) position == .eq) = true) :
    Stays sort idField filter id position docs := by
  obtain ⟨d, hd, hall⟩ := List.any_eq_true.mp hany
  rw [Bool.and_eq_true, Bool.and_eq_true, beq_iff_eq] at hall
  obtain ⟨⟨hholds, hhas⟩, heq⟩ := hall
  obtain ⟨v, hv, -⟩ := h.get?_of_mem hd
  rw [Collection.hasId, hv, Option.any_some, Value.equal, beq_iff_eq] at hhas
  have hsigned := Value.every_get? (h.signed d hd) hv
  refine ⟨d, hd, hholds, ?_, ?_⟩
  · rw [hv, Value.Signed.eq_of_compare hsigned hid hhas]
  · exact SortOrder.eq_of_comparePositions (h.signed_of_mem_position hd) hposition
      (SortOrder.length_position sort d) hlen heq

/-- A document was returned at its position, or it is still ahead. -/
structure Accounts (sort : SortOrder) (idField : String) (id : Value) (position : List Value)
    (t : Traversal σ) : Prop where
  position_eq : ∀ d ∈ t.docs, Collection.hasId idField id d = true → sort.position d = position
  returned_or_ahead : (∃ d ∈ t.docs, Collection.hasId idField id d = true) ∨
    t.ended = false ∧ ∀ last, t.docs.getLast? = some last →
      SortOrder.comparePositions sort.fields (sort.position last) position = .lt

theorem hasId_of_get? {idField : String} {id : Value} {d : Document}
    (h : d.get? idField = some id) : Collection.hasId idField id d = true := by
  rw [Collection.hasId, h, Option.any_some, Value.equal, Value.compare_self]
  rfl

/-- A request returns a document that stays, or leaves it ahead. -/
theorem Accounts.request (hr : settings.Accepts r sort)
    (h : Readable settings sort r.filter (part.get t.state).docs) (ht : t.InOrder settings sort)
    {id : Value} {position : List Value}
    (hstays : Stays sort settings.idField r.filter id position (part.get t.state).docs)
    (ha : t.Accounts sort settings.idField id position) :
    (t.request ⟨Collection.reader part, settings⟩ r).Accounts sort settings.idField id
      position := by
  cases hended : t.ended with
  | true => rwa [Traversal.request, if_pos hended]
  | false =>
    obtain ⟨page, hpage, hpageOf⟩ := exists_request hr h ht hended
    obtain ⟨kept, hkept, hholds, hid, hposition⟩ := hstays
    rw [hpage]
    refine ⟨?_, ?_⟩
    · rw [docs_append_page]
      intro d hd hdid
      rcases List.mem_append.mp hd with hd | hd
      · exact ha.position_eq d hd hdid
      · rw [hpageOf.docs] at hd
        have hmem := (SortOrder.mem_remaining.mp (List.mem_of_mem_take hd)).1
        rw [← h.regular.eq_of_hasId hkept hmem hid hdid, hposition]
    · rw [docs_append_page]
      rcases ha.returned_or_ahead with ⟨d, hd, hdid⟩ | ⟨-, hahead⟩
      · exact Or.inl ⟨d, List.mem_append_left _ hd, hdid⟩
      have hbeyond : sort.liesBeyond (t.docs.getLast?.map sort.position) kept = true := by
        cases hlast : t.docs.getLast? with
        | none => rfl
        | some last =>
          rw [Option.map_some, SortOrder.liesBeyond_position,
            SortOrder.compare_eq_comparePositions, hposition, hahead last hlast]
          rfl
      have hsorted := (h.regular.separates hr.endsWith hr.undotted).pairwise_remaining r.filter
        (t.docs.getLast?.map sort.position)
      have hremaining := SortOrder.mem_remaining.mpr ⟨hkept, hholds, hbeyond⟩
      rw [← List.take_append_drop (settings.clampLimit r.limit)
        (sort.remaining _ _ _)] at hremaining hsorted
      rcases List.mem_append.mp hremaining with hreturned | hleft
      · rw [← hpageOf.docs] at hreturned
        exact Or.inl ⟨kept, List.mem_append_right _ hreturned, hasId_of_get? hid⟩
      · have hmore := List.length_pos_of_mem hleft
        rw [List.length_drop] at hmore
        obtain ⟨last, token, hlast, htoken, -⟩ := hpageOf.next_eq_some (by omega)
        refine Or.inr ⟨by simp [htoken], fun last' hlast' => ?_⟩
        rw [List.getLast?_append, hlast, Option.some_or] at hlast'
        cases hlast'
        rw [hpageOf.docs] at hlast
        rw [← hposition, ← SortOrder.compare_eq_comparePositions]
        exact (List.pairwise_append.mp hsorted).2.2 last (List.mem_of_getLast? hlast) kept hleft

/-- In a strict order, no two documents have one position. -/
theorem countP_le_one {docs : List Document} {p : Document → Bool} {position : List Value}
    (hpairwise : docs.Pairwise fun a b => sort.compare a b = .lt)
    (hposition : ∀ d ∈ docs, p d = true → sort.position d = position) : docs.countP p ≤ 1 := by
  rw [List.countP_eq_length_filter]
  have hfilter := hpairwise.filter p
  have hall : ∀ d ∈ docs.filter p, sort.position d = position := fun d hd =>
    hposition d (List.mem_filter.mp hd).1 (List.mem_filter.mp hd).2
  match docs.filter p, hfilter, hall with
  | [], _, _ => exact Nat.zero_le 1
  | [_], _, _ => exact Nat.le_refl 1
  | a :: b :: rest, hfilter, hall =>
    have hlt := (List.pairwise_cons.mp hfilter).1 b List.mem_cons_self
    rw [SortOrder.compare_eq_comparePositions, hall a (by simp), hall b (by simp),
      SortOrder.comparePositions_self] at hlt
    cases hlt

/-! ## Runs -/

theorem run_concat (s : σ) (events : List Event) (e : Event) :
    run part ids settings r s (events ++ [e]) =
      step part ids settings r (run part ids settings r s events) e := by
  rw [run, List.foldl_append]
  rfl

theorem mem_pages_step {page : KeysetPage} (h : page ∈ t.pages) (e : Event) :
    page ∈ (step part ids settings r t e).pages := by
  cases e with
  | call c => exact h
  | request =>
    rw [step, request]
    split
    · exact h
    · split
      · exact List.mem_append_left _ h
      · exact h

/-- The state in which a run has brought the documents. -/
def docsAfter (part : Part σ Collection) (ids : Part σ IdSource) (settings : PagingSettings)
    (r : KeysetRequest) (s : σ) (events : List Event) : List Document :=
  (part.get (run part ids settings r s events).state).docs

/-- Whatever others write, the returned documents are in strict order. -/
theorem inOrder_run (hr : settings.Accepts r sort) {s : σ} {events : List Event}
    (hreadable : ∀ front, front <+: events →
      Readable settings sort r.filter (docsAfter part ids settings r s front))
    (hshort : ∀ page ∈ (run part ids settings r s events).pages,
      ∀ token, page.next = some token → Cursor.tokenLength token ≤ Cursor.tokenLimit) :
    (run part ids settings r s events).InOrder settings sort := by
  induction events using List.reverseRecOn with
  | nil => exact ⟨rfl, by simp [run, docs], .nil, fun _ => .beginning⟩
  | append_singleton events e ih =>
    rw [run_concat] at hshort ⊢
    have hbefore := ih
      (fun front hfront => hreadable front (hfront.trans (List.prefix_append events [e])))
      (fun page hpage => hshort page (mem_pages_step hpage e))
    cases e with
    | call c => exact ⟨hbefore.fault_eq, hbefore.signed, hbefore.pairwise, hbefore.continues⟩
    | request => exact hbefore.request hr (hreadable events (List.prefix_append _ _)) hshort

/-- A document that stays in its place all the time was returned there, or it is still ahead. -/
theorem accounts_run (hr : settings.Accepts r sort) {s : σ} {events : List Event}
    (hreadable : ∀ front, front <+: events →
      Readable settings sort r.filter (docsAfter part ids settings r s front))
    (hshort : ∀ page ∈ (run part ids settings r s events).pages,
      ∀ token, page.next = some token → Cursor.tokenLength token ≤ Cursor.tokenLimit)
    {id : Value} {position : List Value}
    (hstays : ∀ front, front <+: events →
      Stays sort settings.idField r.filter id position (docsAfter part ids settings r s front)) :
    (run part ids settings r s events).Accounts sort settings.idField id position := by
  induction events using List.reverseRecOn with
  | nil => exact ⟨by simp [run, docs], Or.inr ⟨rfl, by simp [run, docs]⟩⟩
  | append_singleton events e ih =>
    have hinit : ∀ front, front <+: events → front <+: events ++ [e] :=
      fun front hfront => hfront.trans (List.prefix_append events [e])
    rw [run_concat] at hshort ⊢
    have hshort' : ∀ page ∈ (run part ids settings r s events).pages,
        ∀ token, page.next = some token → Cursor.tokenLength token ≤ Cursor.tokenLimit :=
      fun page hpage => hshort page (mem_pages_step hpage e)
    have hbefore := ih (fun front hfront => hreadable front (hinit front hfront)) hshort'
      (fun front hfront => hstays front (hinit front hfront))
    cases e with
    | call c => exact ⟨hbefore.position_eq, hbefore.returned_or_ahead⟩
    | request =>
      have horder := inOrder_run hr (fun front hfront => hreadable front (hinit front hfront))
        hshort'
      exact hbefore.request hr (hreadable events (List.prefix_append _ _)) horder
        (hstays events (List.prefix_append _ _))

/-- Whatever calls others make between the requests of a traversal, no request fails, the positions
of the returned documents increase strictly, and a document that stays in its place is returned at
most once, and once when the traversal has ended. -/
theorem run_returns_staying (hr : settings.Accepts r sort) {s : σ} {events : List Event}
    (hreadable : ∀ front, front <+: events →
      Readable settings sort r.filter (docsAfter part ids settings r s front))
    (hshort : ∀ page ∈ (run part ids settings r s events).pages,
      ∀ token, page.next = some token → Cursor.tokenLength token ≤ Cursor.tokenLimit) :
    (run part ids settings r s events).fault = none ∧
      (run part ids settings r s events).docs.Pairwise (fun a b => sort.compare a b = .lt) ∧
      ∀ id position,
        (∀ front, front <+: events → Stays sort settings.idField r.filter id position
          (docsAfter part ids settings r s front)) →
        (run part ids settings r s events).docs.countP
            (Collection.hasId settings.idField id) ≤ 1 ∧
          ((run part ids settings r s events).ended = true →
            (run part ids settings r s events).docs.countP
              (Collection.hasId settings.idField id) = 1) := by
  have horder := inOrder_run hr hreadable hshort
  refine ⟨horder.fault_eq, horder.pairwise, fun id position hstays => ?_⟩
  have haccounts := accounts_run hr hreadable hshort hstays
  have hle := countP_le_one horder.pairwise haccounts.position_eq
  refine ⟨hle, fun hended => ?_⟩
  rcases haccounts.returned_or_ahead with hreturned | ⟨hrunning, -⟩
  · have hpos := List.countP_pos_iff.mpr hreturned
    omega
  · rw [hended] at hrunning
    cases hrunning

/-- Between two requests, the last returned document is deleted, another one is inserted before it,
and the one to be returned is changed outside of its position. -/
def busyEvents : List Event :=
  [.request, .call (.deleteOne (.test .eq "id" (.int 1))),
    .call (.insertOne [("id", .int 7), ("n", .int 9)]),
    .call (.updateOne (.test .eq "id" (.str "b")) [("m", .int 1)]), .request]

/-- The three documents with a supply of identifiers. -/
def rowsAndIds : Collection × IdSource := (Pager.threeRows, ⟨fun n => toString n, 0⟩)

theorem run_returns_staying_busyEvents :
    (run Part.fst Part.snd { idField := "id" } Pager.twoAtATime rowsAndIds busyEvents).docs.countP
      (Collection.hasId "id" (.str "b")) = 1 := by
  have hreadable : ∀ front ∈ busyEvents.inits,
      Readable { idField := "id" } ⟨[⟨"n", .desc⟩, ⟨"id", .desc⟩]⟩ .all
        (docsAfter Part.fst Part.snd { idField := "id" } Pager.twoAtATime rowsAndIds front) := by
    decide +kernel
  have hshort : ∀ page ∈ (run Part.fst Part.snd { idField := "id" } Pager.twoAtATime rowsAndIds
      busyEvents).pages, page.next.all (Cursor.tokenLength · ≤ Cursor.tokenLimit) = true := by
    decide +kernel
  have hstands : ∀ front ∈ busyEvents.inits,
      (docsAfter Part.fst Part.snd { idField := "id" } Pager.twoAtATime rowsAndIds front).any
        (fun d => Filter.all.holds d && Collection.hasId "id" (.str "b") d &&
          SortOrder.comparePositions [⟨"n", .desc⟩, ⟨"id", .desc⟩]
            (SortOrder.position ⟨[⟨"n", .desc⟩, ⟨"id", .desc⟩]⟩ d) [.null, .str "b"] == .eq) =
        true := by
    decide +kernel
  have hended : (run Part.fst Part.snd { idField := "id" } Pager.twoAtATime rowsAndIds
      busyEvents).ended = true := by decide +kernel
  refine ((run_returns_staying Pager.accepts_twoAtATime
    (fun front hfront => hreadable front ((List.mem_inits front busyEvents).mpr hfront))
    (fun page hpage token htoken => by simpa [htoken] using hshort page hpage)).2.2 (.str "b")
    [.null, .str "b"] fun front hfront => ?_).2 hended
  have hmem := (List.mem_inits front busyEvents).mpr hfront
  exact stays_of_any (hreadable front hmem).regular rfl (by decide +kernel) rfl
    (hstands front hmem)

end Traversal
end Quire
