import Quire.Proofs.FollowedActions

/-!
# Calls of a repository

Everything that a caller can ask of a repository, as data. Behind harmless hooks a call ends as
without them, unless it is a read that a hook served; and a list read always has the shape that was
asked for.
-/
namespace Quire

/-- What a caller can ask of a repository. -/
inductive Call where
  | create (d : Document)
  | createMany (ds : List Document)
  | update (id : DocumentId) (patch : Document)
  | updateMany (filter : Filter) (patch : Document)
  | delete (id : DocumentId)
  | deleteMany (filter : Filter)
  | getById (id : DocumentId) (options : ReadOptions)
  | requireById (id : DocumentId) (options : ReadOptions)
  | getByQuery (filter : Filter) (options : ReadOptions)
  | getAll (request : ListRequest)
  | paginate (request : OffsetRequest)
  | stream (request : KeysetRequest)
  | aggregatePaginate (request : AggregateRequest)

/-- What a call returns. -/
inductive Answer where
  | document (d : Document)
  | documents (ds : List Document)
  | found (d : Option Document)
  | number (n : Nat)
  | flag (b : Bool)
  | list (result : ListResult)
  | page (p : OffsetPage)
  | keysetPage (p : KeysetPage)

namespace Call

variable {σ τ : Type}

/-- Carries a call out. -/
def run (r : Repository σ) : Call → Action σ Answer
  | .create d => .document <$> r.create d
  | .createMany ds => .documents <$> r.createMany ds
  | .update id patch => .found <$> r.update id patch
  | .updateMany f patch => .number <$> r.updateMany f patch
  | .delete id => .flag <$> r.delete id
  | .deleteMany f => .number <$> r.deleteMany f
  | .getById id o => .found <$> r.getById id o
  | .requireById id o => .document <$> r.requireById id o
  | .getByQuery f o => .found <$> r.getByQuery f o
  | .getAll request => .list <$> r.getAll request
  | .paginate request => .page <$> r.paginate request
  | .stream request => .keysetPage <$> r.stream request
  | .aggregatePaginate request => .page <$> r.aggregatePaginate request

/-- Whether a hook may serve the call: it is an announced read, not past the cache. -/
def mayBeServed : Call → Bool
  | .getById _ o | .requireById _ o | .getByQuery _ o => !o.skipCache
  | .getAll request => !request.skipCache
  | .paginate _ | .stream _ => true
  | _ => false

end Call

namespace Repository

variable {σ τ : Type}

theorem requireById_eq (r : Repository σ) (id : DocumentId) (o : ReadOptions) :
    r.requireById id o = r.getById id o >>= fun found => Action.ofExcept
      (found.elim (.error (.notFound "Document" id.display)) .ok) := by
  rw [requireById]
  refine bind_congr fun found => ?_
  cases found <;> rfl

/-- The page of a list read by number. -/
def offsetPage : ListResult → Except Fault OffsetPage
  | .offset page => .ok page
  | _ => .error (.internal "offset read produced a different result shape")

/-- The page of a list read by position. -/
def keysetPage : ListResult → Except Fault KeysetPage
  | .keyset page => .ok page
  | _ => .error (.internal "keyset read produced a different result shape")

theorem paginate_eq (r : Repository σ) (request : OffsetRequest) :
    r.paginate request = r.getAll { mode := .offset request } >>= fun result =>
      Action.ofExcept (offsetPage result) := by
  rw [paginate]
  refine bind_congr fun result => ?_
  cases result <;> rfl

theorem stream_eq (r : Repository σ) (request : KeysetRequest) :
    r.stream request = r.getAll { mode := .keyset request } >>= fun result =>
      Action.ofExcept (keysetPage result) := by
  rw [stream]
  refine bind_congr fun result => ?_
  cases result <;> rfl

theorem exists_offset_of_servedList? {request : OffsetRequest} {served : Option HookResult}
    {result : ListResult} (h : servedList? (.offset request) served = some result) :
    ∃ page, result = .offset page := by
  rcases served with _ | _ | list
  · cases h
  · cases h
  · cases list with
    | offset page => exact ⟨page, (Option.some.inj h).symm⟩
    | keyset | aggregate => cases h

theorem exists_keyset_of_servedList? {request : KeysetRequest} {served : Option HookResult}
    {result : ListResult} (h : servedList? (.keyset request) served = some result) :
    ∃ page, result = .keyset page := by
  rcases served with _ | _ | list
  · cases h
  · cases h
  · cases list with
    | keyset page => exact ⟨page, (Option.some.inj h).symm⟩
    | offset | aggregate => cases h

end Repository

/-! ## Calls behind harmless hooks -/

namespace StoreParts

open Repository

variable {σ τ υ : Type} {R : σ → τ → Prop} {silent : Prop} {S : StoreParts σ} {T : StoreParts τ}
  {hooks : List (Hook σ)} (hhooks : ∀ hook ∈ hooks, hook.Harmless R silent)
  (name : String) (settings : PagingSettings) (timestamps : Bool)

include hhooks

/-- Behind harmless hooks a write changes the store as without them. -/
theorem announced_lift_alike {α : Type} {part : Part σ υ} {part' : Part τ υ}
    (hpart : part.Alike R part') (e : BeforeEvent) (change : Action υ α) (report : α → AfterEvent) :
    ((S.repository name settings timestamps hooks).announced e (part.lift change) report).Alike R
      ((T.repository name settings timestamps []).announced e (part'.lift change) report) :=
  announced_alike hhooks rfl e (hpart.lift change) report

variable (h : S.Alike R T)

include h

/-- A read of one document follows the store, up to documents that hooks serve. -/
theorem findOne_follows (skip : Bool) (e : BeforeEvent) (q : FindQuery)
    (report : Option Document → AfterEvent) :
    ((S.repository name settings timestamps hooks).readThrough skip e
        (fun served => (servedDocument? served).map some)
        ((S.repository name settings timestamps hooks).store.findOne q) report).Follows R
      (fun found => ¬ (skip = true ∨ silent) ∧ found.isSome = true)
      ((T.repository name settings timestamps []).readThrough skip e
        (fun served => (servedDocument? served).map some)
        ((T.repository name settings timestamps []).store.findOne q) report) := by
  refine (readThrough_follows hhooks rfl skip e rfl
    (h.collection.ofRead fun c => c.findOne q) (fun _ _ hst => hst) report).mono ?_
  rintro found ⟨hquiet, served, hpick⟩
  obtain ⟨d, -, rfl⟩ := Option.map_eq_some_iff.mp hpick
  exact ⟨hquiet, rfl⟩

/-- A list read follows the store, up to lists of the right shape that hooks serve. -/
theorem getAll_follows (request : ListRequest) :
    ((S.repository name settings timestamps hooks).getAll request).Follows R
      (fun result => ¬ (request.skipCache = true ∨ silent) ∧
        ∃ served, servedList? request.mode served = some result)
      ((T.repository name settings timestamps []).getAll request) := by
  rw [getAll_eq, getAll_eq]
  refine readThrough_follows hhooks rfl _ _ rfl
    (h.readList name settings timestamps hooks request.mode) (fun s t hst => ?_) _
  rw [runOn_readList T.collection T.ids _ rfl]
  exact hst

/-- Behind harmless hooks every call ends as without them, unless a hook served it. -/
theorem run_follows (c : Call) :
    (c.run (S.repository name settings timestamps hooks)).Follows R
      (fun _ => c.mayBeServed = true ∧ ¬ silent)
      (c.run (T.repository name settings timestamps [])) := by
  have hwrite : ∀ {α : Type} {a : Action σ α} {b : Action τ α} (f : α → Answer),
      a.Alike R b → (f <$> a).Follows R (fun _ => c.mayBeServed = true ∧ ¬ silent) (f <$> b) :=
    fun f hab => hab.map fun _ hfalse => hfalse.elim
  cases c with
  | create d =>
    rw [Call.run, Call.run, create_eq, create_eq]
    refine hwrite _ ((h.prepareNew name settings timestamps hooks d).bind fun d => ?_)
    exact announced_lift_alike hhooks name settings timestamps (h.collection.pair h.ids) (.create d)
      (Collection.insertOne d) .create
  | createMany ds =>
    rw [Call.run, Call.run, createMany_eq, createMany_eq]
    refine hwrite _ ((h.prepareAllNew name settings timestamps hooks ds).bind fun ds => ?_)
    exact announced_lift_alike hhooks name settings timestamps (h.collection.pair h.ids)
      (.createMany ds) (Collection.insertMany ds) .createMany
  | update id patch =>
    rw [Call.run, Call.run, update_eq, update_eq]
    refine hwrite _ ((h.preparePatch name settings timestamps hooks patch).bind fun patch => ?_)
    exact announced_lift_alike hhooks name settings timestamps h.collection (.update id patch)
      (Action.ofStep (Collection.updateOne (.byId settings.idField id) patch)) (.update id)
  | updateMany f patch =>
    rw [Call.run, Call.run, updateMany_eq, updateMany_eq]
    refine hwrite _ ((h.preparePatch name settings timestamps hooks patch).bind fun patch => ?_)
    exact announced_lift_alike hhooks name settings timestamps h.collection (.updateMany f patch)
      (Action.ofStep (Collection.updateMany f patch)) (.updateMany f)
  | delete id =>
    rw [Call.run, Call.run, delete_eq, delete_eq]
    exact hwrite _ (announced_lift_alike hhooks name settings timestamps h.collection (.delete id)
      (Action.ofStep (Collection.deleteOne (.byId settings.idField id))) (.delete id))
  | deleteMany f =>
    rw [Call.run, Call.run, deleteMany_eq, deleteMany_eq]
    exact hwrite _ (announced_lift_alike hhooks name settings timestamps h.collection
      (.deleteMany f) (Action.ofStep (Collection.deleteMany f)) (.deleteMany f))
  | getById id o =>
    rw [Call.run, Call.run, getById_eq, getById_eq]
    refine (findOne_follows hhooks name settings timestamps h _ _ _ _).map ?_
    rintro found ⟨hquiet, -⟩
    simpa [Call.mayBeServed] using hquiet
  | requireById id o =>
    rw [Call.run, Call.run, requireById_eq, requireById_eq, getById_eq, getById_eq]
    refine ((findOne_follows hhooks name settings timestamps h _ _ _ _).bind_ofExcept
      (fun _ => ¬ (o.skipCache = true ∨ silent)) ?_).map ?_
    · rintro (_ | d) ⟨hquiet, hsome⟩
      · cases hsome
      · exact ⟨d, rfl, hquiet⟩
    · intro d hquiet
      simpa [Call.mayBeServed] using hquiet
  | getByQuery f o =>
    rw [Call.run, Call.run, getByQuery_eq, getByQuery_eq]
    refine (findOne_follows hhooks name settings timestamps h _ _ _ _).map ?_
    rintro found ⟨hquiet, -⟩
    simpa [Call.mayBeServed] using hquiet
  | getAll request =>
    refine (getAll_follows hhooks name settings timestamps h request).map ?_
    rintro result ⟨hquiet, -⟩
    simpa [Call.mayBeServed] using hquiet
  | paginate request =>
    rw [Call.run, Call.run, paginate_eq, paginate_eq]
    refine ((getAll_follows hhooks name settings timestamps h _).bind_ofExcept
      (fun _ => ¬ silent) ?_).map fun _ hsilent => ⟨rfl, hsilent⟩
    rintro result ⟨hquiet, served, hpick⟩
    obtain ⟨page, rfl⟩ := exists_offset_of_servedList? hpick
    exact ⟨page, rfl, fun hsilent => hquiet (Or.inr hsilent)⟩
  | stream request =>
    rw [Call.run, Call.run, stream_eq, stream_eq]
    refine ((getAll_follows hhooks name settings timestamps h _).bind_ofExcept
      (fun _ => ¬ silent) ?_).map fun _ hsilent => ⟨rfl, hsilent⟩
    rintro result ⟨hquiet, served, hpick⟩
    obtain ⟨page, rfl⟩ := exists_keyset_of_servedList? hpick
    exact ⟨page, rfl, fun hsilent => hquiet (Or.inr hsilent)⟩
  | aggregatePaginate request =>
    exact hwrite _ (Pager.aggregatePaginate_alike h.collection settings request)

end StoreParts
end Quire
