import Quire.Proofs.RepositoryCalls

/-!
# Faults of pages

What a request for a page can fail with is the request's own fault, or a document without an
identifier. A result of another shape than was asked for is none of these.
-/
namespace Quire

namespace Fault

variable {α β : Type}

/-- Whether a fault lies inside. -/
def isInternal : Fault → Bool
  | .internal _ => true
  | _ => false

/-- The outcome is no fault that lies inside. -/
def IsOutside (r : Except Fault α) : Prop := ∀ f, r = .error f → f.isInternal = false

theorem isOutside_ok (x : α) : IsOutside (.ok x : Except Fault α) := fun _ h => by cases h

theorem isOutside_error {f : Fault} (h : f.isInternal = false) :
    IsOutside (.error f : Except Fault α) := fun g hg => by
  cases hg
  exact h

theorem IsOutside.bind {r : Except Fault α} (h : IsOutside r) {k : α → Except Fault β}
    (hk : ∀ x, IsOutside (k x)) : IsOutside (r >>= k) := by
  cases r with
  | error f => exact isOutside_error (h f rfl)
  | ok x => exact hk x

end Fault

open Fault

/-! ## Orders and cursors -/

namespace SortOrder

theorem isOutside_distinctFields (seen fields : List SortField) :
    IsOutside (distinctFields seen fields) := by
  induction fields generalizing seen with
  | nil => exact isOutside_ok _
  | cons f fs ih =>
    rw [distinctFields]
    split
    · exact isOutside_error rfl
    · split
      · split
        · exact ih seen
        · exact isOutside_error rfl
      · exact ih _

theorem isOutside_forKeyset (s : SortOrder) (idField : String) :
    IsOutside (s.forKeyset idField) := by
  rw [forKeyset]
  split
  · exact isOutside_error rfl
  · have h := isOutside_distinctFields [] s.fields
    cases hfields : distinctFields [] s.fields with
    | error f => exact isOutside_error (h f hfields)
    | ok fields => exact isOutside_ok _

theorem isOutside_after (s : SortOrder) (base : Filter) (values : List Value) (id : Value)
    (idField : String) : IsOutside (s.after base values id idField) := by
  rw [after]
  split
  · exact isOutside_error rfl
  · split
    · exact isOutside_error rfl
    · exact isOutside_ok _

end SortOrder

namespace Cursor

theorem isOutside_decode (token : String) : IsOutside (decode token) := by
  rw [decode]
  split
  · exact isOutside_error rfl
  · split
    · exact isOutside_error rfl
    · split
      · exact isOutside_error rfl
      · split
        · exact isOutside_ok _
        · exact isOutside_error rfl

theorem isOutside_decodeFor (token : String) (sort : SortOrder) (idField : String)
    (version : Nat) : IsOutside (decodeFor token sort idField version) := by
  refine (isOutside_decode token).bind fun c => IsOutside.bind ?_ fun _ => IsOutside.bind ?_
    fun _ => isOutside_ok c
  · rw [checkVersion]
    split
    · exact isOutside_ok _
    · exact isOutside_error rfl
  · rw [checkSort]
    split
    · exact isOutside_ok _
    · exact isOutside_error rfl

end Cursor

/-! ## Pages -/

namespace PagingSettings

variable (s : PagingSettings)

theorem isOutside_offsetSort (requested : Option SortOrder) :
    IsOutside (s.offsetSort requested) := by
  rw [offsetSort]
  split
  · exact SortOrder.isOutside_forKeyset _ _
  · exact isOutside_ok _

theorem isOutside_keysetSort (requested : Option SortOrder) :
    IsOutside (s.keysetSort requested) := by
  rw [keysetSort]
  split
  · exact SortOrder.isOutside_forKeyset _ _
  · exact isOutside_error rfl

theorem isOutside_keysetFilter (r : KeysetRequest) (sort : SortOrder) :
    IsOutside (s.keysetFilter r sort) := by
  rw [keysetFilter]
  split
  · exact isOutside_ok _
  · exact (Cursor.isOutside_decodeFor _ _ _ _).bind fun c =>
      SortOrder.isOutside_after _ _ _ _ _

/-- Inside, a page by position can only lack the identifier of its last document. -/
theorem eq_of_keysetPage_eq_internal {sort : SortOrder} {limit : Nat} {found : List Document}
    {text : String} (h : s.keysetPage sort limit found = .error (.internal text)) :
    text = s!"document has no '{s.idField}' field" := by
  rw [keysetPage] at h
  split at h
  · cases h
  · dsimp only at h
    split at h
    · cases h
    · next last hlast =>
      rcases hc : Cursor.ofDocument last sort s.idField s.cursorVersion with f | c
      · rw [hc] at h
        cases h
        rw [Cursor.ofDocument] at hc
        split at hc
        · cases hc
          rfl
        · split at hc <;> cases hc
      · rw [hc] at h
        cases h

end PagingSettings

theorem Collection.isOutside_find (c : Collection) (q : FindQuery) : IsOutside (c.find q) := by
  rw [find]
  split
  · exact isOutside_ok _
  · exact isOutside_error rfl

namespace Pager

variable {σ : Type} (part : Part σ Collection) (settings : PagingSettings)

/-- A page by number fails only with a fault of the order that was asked for, or for want of an
order. -/
theorem isOutside_paginate (r : OffsetRequest) (s : σ) :
    IsOutside (((Pager.mk (Collection.reader part) settings).paginate r).runOn s).1 := by
  rw [paginate, Action.runOn_bind, Action.runOn_ofExcept]
  cases hsort : settings.offsetSort r.sort with
  | error f => exact isOutside_error (settings.isOutside_offsetSort r.sort f hsort)
  | ok sort =>
    dsimp only
    rw [Action.runOn_bind]
    simp only [Collection.reader, Action.ofRead, Action.runOn_ofFun]
    generalize hfound : (part.get s).find _ = found
    have houtside : IsOutside found := hfound ▸ (part.get s).isOutside_find _
    cases found with
    | error f => exact isOutside_error (houtside f rfl)
    | ok docs =>
      rcases hestimated : r.filter.isEmpty && (r.estimatedCount || settings.estimatedCount) with
        _ | _
      all_goals exact isOutside_ok _

theorem eq_of_runOn_stream_eq_internal {r : KeysetRequest} {s : σ} {text : String}
    (h : (((Pager.mk (Collection.reader part) settings).stream r).runOn s).1 =
      .error (.internal text)) : text = s!"document has no '{settings.idField}' field" := by
  cases hsort : settings.keysetSort r.sort with
  | error f =>
    rw [stream, Action.runOn_bind, Action.runOn_ofExcept, hsort] at h
    cases h
    have := settings.isOutside_keysetSort r.sort _ hsort
    cases this
  | ok sort =>
    cases hfilter : settings.keysetFilter r sort with
    | error f =>
      rw [stream, Action.runOn_bind, Action.runOn_ofExcept, hsort] at h
      dsimp only at h
      rw [Action.runOn_bind, Action.runOn_ofExcept, hfilter] at h
      cases h
      have := settings.isOutside_keysetFilter r sort _ hfilter
      cases this
    | ok filter =>
      rw [stream, Action.runOn_bind, Action.runOn_ofExcept, hsort] at h
      dsimp only at h
      rw [Action.runOn_bind, Action.runOn_ofExcept, hfilter] at h
      dsimp only at h
      rw [Action.runOn_bind] at h
      simp only [Collection.reader, Action.ofRead, Action.runOn_ofFun] at h
      generalize hfound : (part.get s).find _ = found at h
      cases found with
      | error f =>
        cases h
        have := (part.get s).isOutside_find _ _ hfound
        cases this
      | ok docs => exact settings.eq_of_keysetPage_eq_internal h

end Pager

/-! ## Repositories without hooks -/

namespace Repository

variable {τ : Type} {q : Repository τ} (hq : q.hooks = [])

include hq

/-- Where nobody listens, a repository pages as its pager does. -/
theorem runOn_paginate_of_no_hooks (request : OffsetRequest) (t : τ) :
    (q.paginate request).runOn t = (q.pager.paginate request).runOn t := by
  have hlist : (q.getAll { mode := .offset request }).runOn t =
      (ListResult.offset <$> q.pager.paginate request).runOn t := by
    rw [getAll_eq, runOn_readThrough_of_no_hooks hq _ _ rfl]
    rfl
  rw [paginate_eq, Action.runOn_bind, hlist, Action.runOn_map]
  rcases (q.pager.paginate request).runOn t with ⟨f | page, u⟩ <;> rfl

theorem runOn_stream_of_no_hooks (request : KeysetRequest) (t : τ) :
    (q.stream request).runOn t = (q.pager.stream request).runOn t := by
  have hlist : (q.getAll { mode := .keyset request }).runOn t =
      (ListResult.keyset <$> q.pager.stream request).runOn t := by
    rw [getAll_eq, runOn_readThrough_of_no_hooks hq _ _ rfl]
    rfl
  rw [stream_eq, Action.runOn_bind, hlist, Action.runOn_map]
  rcases (q.pager.stream request).runOn t with ⟨f | page, u⟩ <;> rfl

end Repository

namespace StoreParts

variable {τ : Type} (T : StoreParts τ) (name : String) (settings : PagingSettings)
  (timestamps : Bool)

theorem runOn_paginate_ne_shape (request : OffsetRequest) (t : τ) :
    (((T.repository name settings timestamps []).paginate request).runOn t).1 ≠
      .error (.internal "offset read produced a different result shape") := by
  rw [Repository.runOn_paginate_of_no_hooks rfl]
  intro h
  have := Pager.isOutside_paginate T.collection settings request t _ h
  cases this

theorem runOn_stream_ne_shape (request : KeysetRequest) (t : τ) :
    (((T.repository name settings timestamps []).stream request).runOn t).1 ≠
      .error (.internal "keyset read produced a different result shape") := by
  rw [Repository.runOn_stream_of_no_hooks rfl]
  intro h
  have htext := Pager.eq_of_runOn_stream_eq_internal T.collection settings h
  have hfirst := congrArg (fun text : String => text.toList.head?) htext
  simp [toString] at hfirst

end StoreParts
end Quire
