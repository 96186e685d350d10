import Quire.Proofs.AdapterWrites

/-!
# Cache accounts

What a cached repository counts over a run of calls and invalidations by hand, whatever store and
adapter are behind it and whichever of their calls fail. Every read that asks the cache is a hit or
a miss, only a miss is followed by an entry, and the version moves by one for each write that
succeeds and each time that lists are made stale by hand.
-/
namespace Quire

open CacheState

/-! ## Stores beside a cache -/

section Beside

variable {σ τ α : Type}

/-- An action that does nothing to a part of the state. -/
def Action.Spares (part : Part σ τ) (a : Action σ α) : Prop :=
  ∀ s, part.get (a.runOn s).2 = part.get s

theorem Action.Spares.preserves {part : Part σ τ} {a : Action σ α} (h : a.Spares part)
    (P : τ → Prop) : a.Preserves fun s => P (part.get s) :=
  fun s hs => (congrArg P (h s)).mpr hs

theorem Action.Spares.bind {β : Type} {part : Part σ τ} {a : Action σ α} {k : α → Action σ β}
    (h : a.Spares part) (hk : ∀ x, (k x).Spares part) : (a >>= k).Spares part := fun s =>
  Action.Preserves.bind (h.preserves (· = part.get s))
    (fun x => (hk x).preserves (· = part.get s)) s rfl

/-- A repository whose store, identifiers and clock do nothing to a part of the state, where
something else can be kept. -/
structure Repository.Beside (r : Repository σ) (part : Part σ τ) : Prop where
  get_set : ∀ t s, part.get (part.set t s) = t
  find : ∀ q, (r.store.find q).Spares part
  findOne : ∀ q, (r.store.findOne q).Spares part
  count : ∀ f, (r.store.count f).Spares part
  estimate : r.store.estimate.Spares part
  aggregate : ∀ stages, (r.store.aggregate stages).Spares part
  insertOne : ∀ d, (r.store.insertOne d).Spares part
  insertMany : ∀ ds, (r.store.insertMany ds).Spares part
  updateOne : ∀ f patch, (r.store.updateOne f patch).Spares part
  updateMany : ∀ f patch, (r.store.updateMany f patch).Spares part
  deleteOne : ∀ f, (r.store.deleteOne f).Spares part
  deleteMany : ∀ f, (r.store.deleteMany f).Spares part
  ids : ∀ ids s, part.get (r.ids.set ids s) = part.get s
  clock : ∀ clock s, part.get (r.clock.set clock s) = part.get s

namespace Repository.Beside

variable {r : Repository σ} {part : Part σ τ} (h : r.Beside part)

include h

theorem paginate_spares (request : OffsetRequest) : (r.pager.paginate request).Spares part := by
  refine Action.Spares.bind (fun _ => rfl) fun sort => ?_
  refine (h.find _).bind fun docs => ?_
  dsimp only
  split
  · exact h.estimate.bind fun _ _ => rfl
  · exact (h.count _).bind fun _ _ => rfl

theorem stream_spares (request : KeysetRequest) : (r.pager.stream request).Spares part := by
  refine Action.Spares.bind (fun _ => rfl) fun sort => ?_
  refine Action.Spares.bind (fun _ => rfl) fun filter => ?_
  exact (h.find _).bind fun _ _ => rfl

theorem aggregatePaginate_spares (request : AggregateRequest) :
    (r.aggregatePaginate request).Spares part :=
  (h.aggregate _).bind fun _ => Action.Spares.bind (fun _ => rfl) fun _ _ => rfl

theorem readList_spares (mode : ListMode) : (r.readList mode).Spares part := by
  cases mode with
  | offset request =>
    rw [readList, map_eq_pure_bind]
    exact (h.paginate_spares request).bind fun _ _ => rfl
  | keyset request =>
    rw [readList, map_eq_pure_bind]
    exact (h.stream_spares request).bind fun _ _ => rfl

theorem preserves_ids (P : τ → Prop) {α : Type} (a : Action IdSource α) :
    (r.ids.lift a).Preserves fun s => P (part.get s) :=
  fun _ hs => (congrArg P (h.ids _ _)).mpr hs

theorem preserves_clock (P : τ → Prop) {α : Type} (a : Action Clock α) :
    (r.clock.lift a).Preserves fun s => P (part.get s) :=
  fun _ hs => (congrArg P (h.clock _ _)).mpr hs

end Repository.Beside

end Beside

/-! ## Announced operations -/

namespace Repository

open Quire.Action

variable {σ κ α : Type} {n : CacheCounters}

theorem inContext_ensures {c : HookContext} {a : Action (HookContext × σ) α} {P : σ → Prop}
    {Q : Except Fault α → σ → Prop}
    (h : a.Ensures (fun x => x.1 = c ∧ P x.2) fun out x => Q out x.2) :
    (inContext c a).Ensures P Q := fun s hs => h (c, s) ⟨rfl, hs⟩

/-- What is ensured by an announcement to a hook over a part of the state. -/
theorem announcement_ensures {part : Part σ (CacheState κ)}
    (hpart : ∀ t s, part.get (part.set t s) = t) {a : Action (HookContext × CacheState κ) Unit}
    {P : HookContext × CacheState κ → Prop}
    {Q : Except Fault Unit → HookContext × CacheState κ → Prop} (h : a.Ensures P Q) :
    ((Part.fst.pair (Part.snd.comp part)).lift a).Ensures (fun x => P (x.1, part.get x.2))
      fun out x => Q out (x.1, part.get x.2) := by
  let pair : Part (HookContext × σ) (HookContext × CacheState κ) :=
    Part.fst.pair (Part.snd.comp part)
  have hpair : ∀ t x, pair.get (pair.set t x) = t := fun _ _ => Prod.ext rfl (hpart _ _)
  exact Part.lift_ensures hpair h

section Announcements

variable {r : Repository σ} {part : Part σ (CacheState κ)} {p : CachePlugin κ}
  (hhooks : r.hooks = []) (hpart : ∀ t s, part.get (part.set t s) = t)

include hhooks hpart

/-- What the plugin ensures before an operation, where it is the only hook. -/
theorem withCache_before_ensures {e : BeforeEvent} {P : HookContext × CacheState κ → Prop}
    {Q : Except Fault Unit → HookContext × CacheState κ → Prop} (h : (p.before e).Ensures P Q) :
    ((r.withCache p part).before e).Ensures (fun x => P (x.1, part.get x.2))
      fun out x => Q out (x.1, part.get x.2) := by
  have hemit : (r.withCache p part).before e = (p.hook part).before e := by
    rw [before, withCache, hhooks]
    exact bind_pure _
  rw [hemit]
  exact announcement_ensures hpart h

theorem withCache_after_ensures {e : AfterEvent} {P : HookContext × CacheState κ → Prop}
    {Q : Except Fault Unit → HookContext × CacheState κ → Prop} (h : (p.after e).Ensures P Q) :
    ((r.withCache p part).after e).Ensures (fun x => P (x.1, part.get x.2))
      fun out x => Q out (x.1, part.get x.2) := by
  have hemit : (r.withCache p part).after e = (p.hook part).after e := by
    rw [after, withCache, hhooks]
    exact bind_pure _
  rw [hemit]
  exact announcement_ensures hpart h

variable (henabled : p.settings.enabled = true)

include henabled

/-- A write raises the version if it succeeds, and counts nothing. -/
theorem announced_ensures {e : BeforeEvent} (he : e.operation.isRead = false)
    {change : Action σ α} (hchange : change.Spares part) {report : α → AfterEvent}
    (hreport : ∀ x, (report x).operation.isRead = false) :
    ((r.withCache p part).announced e change report).Ensures (fun s => At n (part.get s))
      fun out s => At (if out.isOk then n.raise else n) (part.get s) := by
  have hbefore : (p.before e).Ensures (fun x => x.1 = {} ∧ At n x.2) fun _ => n.Looked false := by
    refine p.before_ensures henabled rfl fun version => ?_
    cases e <;> first | rfl | cases he
  have hunasked : ∀ x : HookContext × σ, n.Looked false (x.1, part.get x.2) →
      At n (part.get x.2) := by
    intro x hx
    cases hx with
    | past _ hs => exact hs
  refine inContext_ensures ((withCache_before_ensures hhooks hpart hbefore).bind (fun _ => ?_)
    fun _ x hx => hunasked x hx)
  have hstore : (onState change).Ensures (fun x => n.Looked false (x.1, part.get x.2))
      fun _ x => At n (part.get x.2) :=
    fun x hx => hchange.preserves (At n) x.2 (hunasked x hx)
  refine hstore.bind (fun x => ?_) fun _ _ hx => hx
  refine (withCache_after_ensures hhooks hpart (p.after_ensures henabled (hreport x))).bind
    (fun _ => ensures_pure fun _ hx => hx.2) ?_
  -- The plugin does not fail after a write, so the operation succeeds where the store does.
  rintro f x ⟨hok, -⟩
  cases hok

/-- A read that asks the cache is counted once, also when the store fails. -/
theorem readThrough_ensures {skip asked : Bool} {e : BeforeEvent}
    (hasked : ∀ version, (p.source? { skipCache := skip } version e).isSome = asked)
    (pick : Option HookResult → Option α) {find : Action σ α} (hfind : find.Spares part)
    {report : α → AfterEvent} {entry : α → Option Value} {ttl : Nat}
    (hreport : ∀ x, p.after (report x) = p.keepResult (entry x) ttl) :
    ((r.withCache p part).readThrough skip e pick find report).Ensures
      (fun s => At n (part.get s)) fun _ s => n.Moved (part.get s).counters asked.toNat 0 := by
  have hserved : (servedOr pick find).Preserves
      fun x => n.Looked asked (x.1, part.get x.2) := by
    refine Preserves.bind (fun x hx => hx.of_context rfl rfl) fun served => ?_
    cases pick served with
    | some x => exact preserves_pure x
    | none => exact fun x hx => hfind.preserves (fun s => n.Looked asked (x.1, s)) x.2 hx
  refine inContext_ensures ((withCache_before_ensures hhooks hpart
    (p.before_ensures henabled rfl hasked)).bind (fun _ => ?_) fun _ _ hx => hx.moved)
  refine hserved.ensures.bind (fun x => ?_) fun _ _ hx => hx.moved
  have hkept : (p.after (report x)).Ensures (n.Looked asked)
      fun _ y => n.Moved y.2.counters asked.toNat 0 :=
    hreport x ▸ p.keepResult_ensures (entry x) ttl
  exact (withCache_after_ensures hhooks hpart hkept).bind (fun _ => ensures_pure fun _ hx => hx)
    fun _ _ hx => hx

end Announcements

end Repository

/-! ## Calls -/

namespace Call

open Quire.Action Repository

variable {σ κ : Type}

/-- Whether a call is a read that asks the cache: it does not go past it, by identifier it returns
the whole document, and a list has no larger limit than the cache keeps. -/
def asksCache (p : CachePlugin κ) : Call → Bool
  | .getById _ o | .requireById _ o => !o.skipCache && !o.isShaped
  | .getByQuery _ o => !o.skipCache
  | .getAll request => !request.skipCache && !p.exceedsLimit request
  | .paginate request => !p.exceedsLimit { mode := .offset request }
  | .stream request => !p.exceedsLimit { mode := .keyset request }
  | _ => false

def isWrite : Call → Bool
  | .create _ | .createMany _ | .update _ _ | .updateMany _ _ | .delete _ | .deleteMany _ => true
  | _ => false

variable {r : Repository σ} {part : Part σ (CacheState κ)} {p : CachePlugin κ}
  {n : CacheCounters} (h : r.Beside part) (hhooks : r.hooks = [])
  (henabled : p.settings.enabled = true)

include h hhooks henabled

/-- A list read is counted once if it asks the cache. -/
theorem getAll_ensures (request : ListRequest) :
    ((r.withCache p part).getAll request).Ensures (fun s => At n (part.get s))
      fun _ s => n.Moved (part.get s).counters
        (!request.skipCache && !p.exceedsLimit request).toNat 0 := by
  rw [getAll_eq]
  refine readThrough_ensures hhooks h.get_set henabled (fun version => ?_) _
    (h.readList_spares request.mode) (CachePlugin.after_getAll henabled request)
  rw [CachePlugin.source?]
  cases request.skipCache <;> cases p.exceedsLimit request <;> rfl

/-- A read by identifier is counted once if it asks the cache. -/
theorem getById_ensures (id : DocumentId) (o : ReadOptions) :
    ((r.withCache p part).getById id o).Ensures (fun s => At n (part.get s))
      fun _ s => n.Moved (part.get s).counters (!o.skipCache && !o.isShaped).toNat 0 := by
  rw [getById_eq]
  refine readThrough_ensures hhooks h.get_set henabled (fun version => ?_) _ (h.findOne _)
    (CachePlugin.after_getById henabled id o)
  rw [CachePlugin.source?]
  cases o.skipCache <;> cases o.isShaped <;> rfl

/-- A read by filter is counted once if it asks the cache. -/
theorem getByQuery_ensures (f : Filter) (o : ReadOptions) :
    ((r.withCache p part).getByQuery f o).Ensures (fun s => At n (part.get s))
      fun _ s => n.Moved (part.get s).counters (!o.skipCache).toNat 0 := by
  rw [getByQuery_eq]
  refine readThrough_ensures hhooks h.get_set henabled (fun version => ?_) _ (h.findOne _)
    (CachePlugin.after_getByQuery henabled f o)
  rw [CachePlugin.source?]
  cases o.skipCache <;> rfl

/-- A call counts one read if it asks the cache, and raises the version if it is a write that
succeeds. -/
theorem run_ensures (c : Call) :
    (c.run (r.withCache p part)).Ensures (fun s => At n (part.get s)) fun out s =>
      n.Moved (part.get s).counters (c.asksCache p).toNat (c.isWrite && out.isOk).toNat := by
  have hwrite : ∀ {α : Type} {a : Action σ α} (f : α → Answer),
      a.Ensures (fun s => At n (part.get s))
        (fun out s => At (if out.isOk then n.raise else n) (part.get s)) →
      (f <$> a).Ensures (fun s => At n (part.get s))
        fun out s => n.Moved (part.get s).counters 0 out.isOk.toNat := fun f ha =>
    (ha.map (R := fun ok s => At (if ok then n.raise else n) (part.get s)) f).mono
      fun out s hs => hs.moved (n.moved_if out.isOk)
  have hread : ∀ {α : Type} {a : Action σ α} {asked : Bool} (f : α → Answer),
      a.Ensures (fun s => At n (part.get s))
        (fun _ s => n.Moved (part.get s).counters asked.toNat 0) →
      (f <$> a).Ensures (fun s => At n (part.get s))
        fun _ s => n.Moved (part.get s).counters asked.toNat 0 := fun {_ _ asked} f ha =>
    ha.map (R := fun _ s => n.Moved (part.get s).counters asked.toNat 0) f
  have hids : ∀ {α : Type} (a : Action IdSource α),
      ((r.withCache p part).ids.lift a).Preserves fun s => At n (part.get s) := h.preserves_ids _
  have hclock : ∀ {α : Type} (a : Action Clock α),
      ((r.withCache p part).clock.lift a).Preserves fun s => At n (part.get s) :=
    h.preserves_clock _
  cases c with
  | create d =>
    rw [run, create_eq]
    refine hwrite _ ((preserves_prepareNew hids hclock d).ensures.bind (fun d => ?_)
      fun _ _ hs => hs)
    exact announced_ensures hhooks h.get_set henabled rfl (h.insertOne d) fun _ => rfl
  | createMany ds =>
    rw [run, createMany_eq]
    refine hwrite _ ((preserves_prepareAllNew hids hclock ds).ensures.bind (fun ds => ?_)
      fun _ _ hs => hs)
    exact announced_ensures hhooks h.get_set henabled rfl (h.insertMany ds) fun _ => rfl
  | update id patch =>
    rw [run, update_eq]
    refine hwrite _ ((preserves_preparePatch hclock patch).ensures.bind (fun patch => ?_)
      fun _ _ hs => hs)
    exact announced_ensures hhooks h.get_set henabled rfl (h.updateOne _ patch) fun _ => rfl
  | updateMany f patch =>
    rw [run, updateMany_eq]
    refine hwrite _ ((preserves_preparePatch hclock patch).ensures.bind (fun patch => ?_)
      fun _ _ hs => hs)
    exact announced_ensures hhooks h.get_set henabled rfl (h.updateMany f patch) fun _ => rfl
  | delete id =>
    rw [run, delete_eq]
    exact hwrite _ (announced_ensures hhooks h.get_set henabled rfl (h.deleteOne _) fun _ => rfl)
  | deleteMany f =>
    rw [run, deleteMany_eq]
    exact hwrite _ (announced_ensures hhooks h.get_set henabled rfl (h.deleteMany f) fun _ => rfl)
  | getById id o => exact hread _ (getById_ensures h hhooks henabled id o)
  | requireById id o =>
    rw [run, requireById_eq]
    exact hread _ ((getById_ensures h hhooks henabled id o).bind (fun _ _ hs => hs)
      fun _ _ hs => hs)
  | getByQuery f o => exact hread _ (getByQuery_ensures h hhooks henabled f o)
  | getAll request => exact hread _ (getAll_ensures h hhooks henabled request)
  | paginate request =>
    rw [run, paginate_eq]
    exact hread _ ((getAll_ensures h hhooks henabled _).bind (fun _ _ hs => hs) fun _ _ hs => hs)
  | stream request =>
    rw [run, stream_eq]
    exact hread _ ((getAll_ensures h hhooks henabled _).bind (fun _ _ hs => hs) fun _ _ hs => hs)
  | aggregatePaginate request =>
    have hpage := ((h.aggregatePaginate_spares request).preserves (At n)).ensures
    exact hread _ (hpage.mono fun _ _ hs => hs.moved n.moved_refl)

end Call

/-! ## Runs -/

theorem countP_cons_toNat {α : Type} (q : α → Bool) (x : α) (l : List α) :
    (x :: l).countP q = (q x).toNat + l.countP q := by
  rw [List.countP_cons, Nat.add_comm]
  cases q x <;> rfl

/-- A turn as it went. -/
structure TurnReport where
  turn : CacheTurn
  /-- Whether it had a result, or failed. -/
  succeeded : Bool
  /-- Whether the adapter, as it was then, cleared the collection's entries by pattern. -/
  clears : Bool

namespace TurnReport

/-- A write that succeeded. -/
def wrote (t : TurnReport) : Bool :=
  match t.turn with
  | .call c => c.isWrite && t.succeeded
  | _ => false

/-- Lists made stale by hand. -/
def staledLists (t : TurnReport) : Bool :=
  match t.turn with
  | .invalidateLists => true
  | _ => false

/-- All entries made stale by hand where they could not be cleared. -/
def staledAll (t : TurnReport) : Bool :=
  match t.turn with
  | .invalidateAll => !t.clears
  | _ => false

/-- How often the turn raises the version. -/
def raises (t : TurnReport) : Nat := t.wrote.toNat + t.staledLists.toNat + t.staledAll.toNat

theorem sum_raises (reports : List TurnReport) :
    (reports.map raises).sum =
      reports.countP wrote + reports.countP staledLists + reports.countP staledAll := by
  induction reports with
  | nil => rfl
  | cons t reports ih =>
    rw [List.map_cons, List.sum_cons, ih, raises]
    simp only [countP_cons_toNat]
    omega

end TurnReport

namespace CacheTurn

open Quire.Action TurnReport

variable {σ κ : Type}

/-- Whether a turn is a read that asks the cache. -/
def asksCache (p : CachePlugin κ) : CacheTurn → Bool
  | .call c => c.asksCache p
  | _ => false

/-- Carries turns out one after another, and tells how each went. -/
def reports (p : CachePlugin κ) (part : Part σ (CacheState κ)) (r : Repository σ) :
    List CacheTurn → σ → List TurnReport
  | [], _ => []
  | turn :: turns, s =>
    ⟨turn, ((turn.run p part r).runOn s).1.isOk, p.clears (part.get s).adapter⟩ ::
      reports p part r turns ((turn.run p part r).runOn s).2

variable {r : Repository σ} {part : Part σ (CacheState κ)} {p : CachePlugin κ}
  (h : r.Beside part) (hhooks : r.hooks = []) (henabled : p.settings.enabled = true)

include h hhooks henabled

omit hhooks henabled in
theorem invalidation_ensures {α : Type} {a : Action (CacheState κ) α} {P : CacheState κ → Prop}
    {m : CacheCounters} (ha : a.Ensures P fun _ => At m) :
    ((fun _ => (none : Option Answer)) <$> part.lift a).Ensures (fun s => P (part.get s))
      fun _ s => At m (part.get s) :=
  (Part.lift_ensures h.get_set ha).map (R := fun _ s => At m (part.get s)) _

/-- A turn counts one read if it asks the cache, and raises the version as its report says. -/
theorem run_ensures (turn : CacheTurn) (n : CacheCounters) (clears : Bool) :
    (turn.run p part (r.withCache p part)).Ensures
      (fun s => At n (part.get s) ∧ p.clears (part.get s).adapter = clears) fun out s =>
        n.Moved (part.get s).counters (turn.asksCache p).toNat
          (TurnReport.mk turn out.isOk clears).raises := by
  cases turn with
  | call c =>
    have hcall := Call.run_ensures (n := n) h hhooks henabled c
    exact fun s hs => (hcall.map (R := fun ok s => n.Moved (part.get s).counters
      (c.asksCache p).toNat (c.isWrite && ok).toNat) some) s hs.1
  | invalidate id =>
    exact fun s hs => (invalidation_ensures h (p.dropById_ensures id) s hs.1).moved n.moved_refl
  | invalidateLists =>
    exact fun s hs => (invalidation_ensures h p.bump_ensures s hs.1).moved n.moved_raise
  | invalidateAll =>
    intro s hs
    have hat := invalidation_ensures h p.invalidateAll_ensures s hs
    cases clears with
    | true => exact hat.moved n.moved_refl
    | false => exact hat.moved n.moved_raise

/-- What turns count, one after another. -/
theorem afterAll_moved (turns : List CacheTurn) (s : σ) :
    (part.get s).counters.Moved
      (part.get (afterAll (run p part (r.withCache p part)) turns s)).counters
      (turns.countP (asksCache p))
      ((reports p part (r.withCache p part) turns s).map raises).sum := by
  induction turns generalizing s with
  | nil => exact CacheCounters.moved_refl _
  | cons turn turns ih =>
    have hturn := run_ensures h hhooks henabled turn _ _ s ⟨rfl, rfl⟩
    rw [countP_cons_toNat, reports, List.map_cons, List.sum_cons]
    exact hturn.trans (ih _)

end CacheTurn

/-- Over any run of calls and invalidations by hand, through a repository with caching as its only
hook, whatever its adapter does: hits and misses are together the reads that asked the cache, no
more entries were written than reads missed, and the version has been raised once by each write
that succeeded, each time that the lists were made stale, and each time that all entries should
have gone and the adapter did not clear them. Until the counter comes to its end, the version has
grown by their number. -/
theorem Repository.attachCache_accounts {σ κ : Type} {r : Repository σ}
    {part : Part σ (CacheState κ)} (hbeside : r.Beside part) (hhooks : r.hooks = [])
    (p : CachePlugin κ) (henabled : p.settings.enabled = true) (publish : Bool) (start : Nat)
    (k : κ) (s : σ) :
    let cached := r.withCache p part
    ∃ w, (r.attachCache p part (.start p.keys.collection publish start k)).runOn s =
        (.ok cached, w) ∧
      ∀ turns : List CacheTurn,
        let cache := part.get (Action.afterAll (CacheTurn.run p part cached) turns w)
        let reports := CacheTurn.reports p part cached turns w
        let attached := (part.get w).version.current
        let raised := reports.countP (·.wrote) + reports.countP (·.staledLists) +
          reports.countP (·.staledAll)
        cache.stats.hits + cache.stats.misses = turns.countP (·.asksCache p) ∧
          cache.stats.sets ≤ cache.stats.misses ∧
          cache.version.current = ListVersion.next^[raised] attached ∧
          (attached + raised < twoPow 64 → cache.version.current = attached + raised) := by
  intro cached
  let fresh : CacheState κ := .start p.keys.collection publish start k
  obtain ⟨seen, stats, hboot⟩ := p.runOn_bootstrap fresh
  obtain ⟨version, hfresh⟩ := p.bootstrap_ensures fresh rfl
  let w := part.set (p.bootstrap.runOn fresh).2 (part.set fresh s)
  have hw : part.get w = (p.bootstrap.runOn fresh).2 := hbeside.get_set _ _
  refine ⟨w, ?_, fun turns => ?_⟩
  · have hset : (Action.ofStep fun s => ((), part.set fresh s)).runOn s =
        (.ok (), part.set fresh s) := rfl
    have hlift : (part.lift p.bootstrap).runOn (part.set fresh s) = (.ok seen, w) := by
      have hok : (p.bootstrap.runOn fresh).1 = .ok seen := congrArg Prod.fst hboot
      rw [Part.runOn_lift, hbeside.get_set, hok]
    rw [attachCache, Action.runOn_bind_of_ok hset, Action.runOn_bind_of_ok hlift]
    rfl
  · have hmoved := CacheTurn.afterAll_moved hbeside hhooks henabled turns w
    rw [TurnReport.sum_raises] at hmoved
    rw [← hw, At] at hfresh
    have hlooked := hmoved.looked
    have hkept := hmoved.kept
    rw [hfresh] at hlooked hkept
    refine ⟨hlooked.trans (Nat.zero_add _), ?_, hmoved.version, fun hfits => ?_⟩
    · exact (Nat.le_add_right _ _).trans (hkept.trans_eq (Nat.zero_add _))
    · exact hmoved.version.trans (ListVersion.iterate_next hfits)

namespace CachedStore

variable {κ : Type}

theorem beside_plain (name : String) (settings : PagingSettings) (timestamps : Bool) :
    (plain name settings timestamps : Repository (CachedStore κ)).Beside cachePart where
  get_set _ _ := rfl
  find _ _ := rfl
  findOne _ _ := rfl
  count _ _ := rfl
  estimate _ := rfl
  aggregate _ _ := rfl
  insertOne _ _ := rfl
  insertMany _ _ := rfl
  updateOne _ _ _ := rfl
  updateMany _ _ _ := rfl
  deleteOne _ _ := rfl
  deleteMany _ _ := rfl
  ids _ _ := rfl
  clock _ _ := rfl

theorem attach_eq_of_runOn {p : CachePlugin κ} {settings : PagingSettings}
    {timestamps publish : Bool} {start : Nat} {k : κ} {w v : CachedStore κ}
    {out : Except Fault (Repository (CachedStore κ))}
    (h : ((plain p.keys.collection settings timestamps).attachCache p cachePart
      (.start p.keys.collection publish start k)).runOn w = (out, v)) :
    attach p settings timestamps publish start k w = v := by
  rw [attach, h]

/-- A row is created, refused a second time, read twice and changed; then its lists and all of its
entries are dropped by hand. -/
def countedTurns : List CacheTurn :=
  [.call (.create [("id", .int 1), ("n", .int 5)]), .call (.create [("id", .int 1)]),
    .call (.getById (.int 1) {}), .call (.getById (.int 1) {}),
    .call (.updateMany .all [("n", .int 6)]), .invalidateLists, .invalidateAll]

/-- Two reads asked the cache. Two writes succeeded and lists were dropped once, while the adapter
cleared the entries by itself; the version is far from its end. -/
theorem attachCache_accounts_countedTurns :
    let cached := (plain rowsCache.keys.collection rowsPaging false).withCache rowsCache cachePart
    let w := attach rowsCache rowsPaging false false 0 (.empty 100) noRows
    let cache :=
      cachePart.get (Action.afterAll (CacheTurn.run rowsCache cachePart cached) countedTurns w)
    cache.stats.hits + cache.stats.misses = 2 ∧ cache.stats.sets ≤ cache.stats.misses ∧
      cache.version.current = (cachePart.get w).version.current + 3 := by
  intro cached w
  have hasked : countedTurns.countP (·.asksCache rowsCache) = 2 := by decide +kernel
  have hraised : (CacheTurn.reports rowsCache cachePart cached countedTurns w).countP (·.wrote) +
      (CacheTurn.reports rowsCache cachePart cached countedTurns w).countP (·.staledLists) +
      (CacheTurn.reports rowsCache cachePart cached countedTurns w).countP (·.staledAll) = 3 := by
    decide +kernel
  obtain ⟨v, hv, haccounts⟩ := Repository.attachCache_accounts
    (beside_plain rowsCache.keys.collection rowsPaging false) rfl rowsCache rfl false 0
    (.empty 100) noRows
  rw [← attach_eq_of_runOn hv] at haccounts
  -- Only the sums are evaluated, not the run itself.
  have h := haccounts countedTurns
  dsimp only [cached, w] at h hraised ⊢
  rw [hasked, hraised] at h
  obtain ⟨hlooked, hkept, -, hgrown⟩ := h
  exact ⟨hlooked, hkept, hgrown (by decide +kernel)⟩

end CachedStore
end Quire
