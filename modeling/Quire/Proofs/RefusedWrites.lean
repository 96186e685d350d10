import Quire.Proofs.CommittedWrites
import Quire.Proofs.StoredIdentities

/-!
# Refused writes

A write is refused by the first hook that fails before it, or by the store if none does. It ends
then and there: no further hook hears of it, and the documents and the cache are as before. What
the store does not refuse it takes as a whole.
-/
namespace Quire

variable {σ α β : Type}

theorem Action.runOn_map_error {a : Action σ α} {g : α → β} {s t : σ} {f : Fault} :
    (g <$> a).runOn s = (.error f, t) ↔ a.runOn s = (.error f, t) := by
  rw [runOn_map]
  rcases a.runOn s with ⟨f' | x, u⟩
  · simp only [Except.map, Prod.mk.injEq, Except.error.injEq]
  · constructor <;> intro h <;> cases h

theorem Action.Preserves.of_runOn {P : σ → Prop} {a : Action σ α} (h : a.Preserves P) {s t : σ}
    {out : Except Fault α} (hrun : a.runOn s = (out, t)) (hs : P s) : P t := by
  have ht := h s hs
  rwa [hrun] at ht

theorem Action.Preserves.map {P : σ → Prop} {a : Action σ α} (h : a.Preserves P) (g : α → β) :
    (g <$> a).Preserves P := by
  rw [map_eq_pure_bind]
  exact h.bind fun _ => preserves_pure _

/-! ## Refusals -/

namespace Hook

/-- If the announcement of an operation fails, then at the first hook that fails. -/
theorem exists_of_emitBefore_error {hooks : List (Hook σ)} {e : BeforeEvent}
    {x z : HookContext × σ} {f : Fault} (h : (emitBefore hooks e).runOn x = (.error f, z)) :
    ∃ front hook back y, hooks = front ++ hook :: back ∧
      (emitBefore front e).runOn x = (.ok (), y) ∧ (hook.before e).runOn y = (.error f, z) := by
  induction hooks generalizing x with
  | nil => cases h
  | cons first rest ih =>
    rcases hfirst : (first.before e).runOn x with ⟨f' | u, y⟩
    · rw [emitBefore, Action.runOn_bind_of_error hfirst] at h
      cases h
      exact ⟨[], first, rest, x, rfl, rfl, hfirst⟩
    · rw [emitBefore, Action.runOn_bind_of_ok hfirst] at h
      obtain ⟨front, hook, back, w, rfl, hfront, hhook⟩ := ih h
      exact ⟨first :: front, hook, back, w, rfl, by rw [emitBefore, Action.runOn_bind_of_ok hfirst,
        hfront], hhook⟩

theorem emitBefore_map_after (after : Hook σ → AfterEvent → Action (HookContext × σ) Unit)
    (hooks : List (Hook σ)) (e : BeforeEvent) :
    emitBefore (hooks.map fun h => { h with after := after h }) e = emitBefore hooks e := by
  induction hooks with
  | nil => rfl
  | cons h hooks ih => rw [List.map_cons, emitBefore, emitBefore, ih]

end Hook

namespace Repository

/-- A change that is refused after its announcement: the fault, and the state that it leaves. -/
inductive Refusal (r : Repository σ) (e : BeforeEvent) (change : Action σ α) (s : σ) :
    Fault → σ → Prop
  /-- The first hook that fails. -/
  | hook {front back : List (Hook σ)} {h : Hook σ} {x : HookContext × σ} {f : Fault}
      {c : HookContext} {t : σ} (hhooks : r.hooks = front ++ h :: back)
      (hfront : (Hook.emitBefore front e).runOn ({}, s) = (.ok (), x))
      (hfails : (h.before e).runOn x = (.error f, c, t)) : r.Refusal e change s f t
  /-- The store, after all hooks have agreed. -/
  | store {x : HookContext × σ} {f : Fault} {t : σ}
      (hbefore : (r.before e).runOn ({}, s) = (.ok (), x))
      (hfails : change.runOn x.2 = (.error f, t)) : r.Refusal e change s f t

/-- The repository with hooks that hear of results in other ways. -/
def withAfter (r : Repository σ) (after : Hook σ → AfterEvent → Action (HookContext × σ) Unit) :
    Repository σ :=
  { r with hooks := r.hooks.map fun h => { h with after := after h } }

section Refused

variable {r : Repository σ} {e : BeforeEvent} {change : Action σ α} {s t : σ} {f : Fault}

theorem refusal_map_iff {g : α → β} :
    r.Refusal e (g <$> change) s f t ↔ r.Refusal e change s f t := by
  constructor
  all_goals
    intro h
    cases h with
    | hook hhooks hfront hfails => exact .hook hhooks hfront hfails
    | store hbefore hfails =>
      exact .store hbefore (by simpa only [Action.runOn_map_error] using hfails)

/-- What hooks do with results does not matter. -/
theorem Refusal.withAfter (h : r.Refusal e change s f t)
    (after : Hook σ → AfterEvent → Action (HookContext × σ) Unit) :
    (r.withAfter after).Refusal e change s f t := by
  cases h with
  | @hook front back h x f c t hhooks hfront hfails =>
    have hmap : (r.withAfter after).hooks = front.map (fun h => { h with after := after h }) ++
        { h with after := after h } :: back.map fun h => { h with after := after h } := by
      rw [Repository.withAfter, hhooks, List.map_append, List.map_cons]
    exact .hook hmap (by rwa [Hook.emitBefore_map_after]) hfails
  | store hbefore hfails =>
    refine .store ?_ hfails
    rw [before] at hbefore ⊢
    rwa [Repository.withAfter, Hook.emitBefore_map_after]

theorem runOn_onState {x : HookContext × σ} {out : Except Fault α}
    (h : change.runOn x.2 = (out, t)) : (onState change).runOn x = (out, x.1, t) := by
  have hlift : (onState change).runOn x =
      ((change.runOn x.2).1, x.1, (change.runOn x.2).2) := rfl
  rw [hlift, h]

/-- A refused change ends with the fault, in the state that the refusal leaves. -/
theorem Refusal.runOn_announced (h : r.Refusal e change s f t) (report : α → AfterEvent) :
    (r.announced e change report).runOn s = (.error f, t) := by
  rw [announced, runOn_inContext_eq]
  cases h with
  | @hook front back h x f c t hhooks hfront hfails =>
    have hbefore : (r.before e).runOn ({}, s) = (.error f, c, t) := by
      rw [before, hhooks, Hook.emitBefore_append, Action.runOn_bind_of_ok hfront, Hook.emitBefore,
        Action.runOn_bind_of_error hfails]
    rw [Action.runOn_bind_of_error hbefore]
  | store hbefore hfails =>
    rw [Action.runOn_bind_of_ok hbefore, Action.runOn_bind_of_error (runOn_onState hfails)]

/-- What the announcement keeps, and the store when it fails, a refusal keeps. -/
theorem Refusal.preserves {P : σ → Prop}
    (hbefore : ∀ h ∈ r.hooks, (h.before e).Preserves fun x => P x.2)
    (hchange : ∀ s f t, P s → change.runOn s = (.error f, t) → P t)
    (h : r.Refusal e change s f t) (hs : P s) : P t := by
  cases h with
  | @hook front back h x f c t hhooks hfront hfails =>
    rw [hhooks, List.forall_mem_append, List.forall_mem_cons] at hbefore
    have hx := (Hook.preserves_emitBefore hbefore.1).of_runOn hfront hs
    exact hbefore.2.1.of_runOn hfails hx
  | store hannounced hfails =>
    have hx := (Hook.preserves_emitBefore hbefore).of_runOn hannounced hs
    exact hchange _ _ _ hx hfails

/-- A change that is not refused is made, once all hooks have agreed. -/
theorem exists_refusal_or (r : Repository σ) (e : BeforeEvent) (change : Action σ α) (s : σ) :
    (∃ f t, r.Refusal e change s f t) ∨ ∃ x a t,
      (r.before e).runOn ({}, s) = (.ok (), x) ∧ change.runOn x.2 = (.ok a, t) := by
  rcases hbefore : (r.before e).runOn ({}, s) with ⟨f | u, x⟩
  · obtain ⟨front, h, back, y, hhooks, hfront, hfails⟩ := Hook.exists_of_emitBefore_error hbefore
    exact Or.inl ⟨f, x.2, .hook hhooks hfront hfails⟩
  · rcases hchange : change.runOn x.2 with ⟨f | a, t⟩
    · exact Or.inl ⟨f, t, .store hbefore hchange⟩
    · exact Or.inr ⟨x, a, t, rfl, hchange⟩

/-- After a change that is not refused its result is announced, whatever becomes of that. -/
theorem runOn_announced_of_agreed {x : HookContext × σ} {a : α}
    (hbefore : (r.before e).runOn ({}, s) = (.ok (), x)) (hchange : change.runOn x.2 = (.ok a, t))
    (report : α → AfterEvent) :
    ((r.announced e change report).runOn s).2 = ((r.after (report a)).runOn (x.1, t)).2.2 := by
  rw [announced, runOn_inContext_eq, Action.runOn_bind_of_ok hbefore,
    Action.runOn_bind_of_ok (runOn_onState hchange), (Action.runOn_bind_const _ _ _).1]

end Refused

/-! ## Preparing -/

section Preparing

variable (r : Repository σ)

theorem exists_prepareNew (d : Document) (s : σ) :
    ∃ e t, (r.prepareNew d).runOn s = (.ok e, t) := by
  rw [prepareNew]
  cases r.timestamps <;> split <;> exact ⟨_, _, rfl⟩

theorem exists_prepareAllNew (ds : List Document) (s : σ) :
    ∃ es t, (r.prepareAllNew ds).runOn s = (.ok es, t) ∧ es.length = ds.length := by
  induction ds generalizing s with
  | nil => exact ⟨[], s, rfl, rfl⟩
  | cons d ds ih =>
    obtain ⟨e, t, hfirst⟩ := r.exists_prepareNew d s
    obtain ⟨es, u, hrest, hlength⟩ := ih t
    refine ⟨e :: es, u, ?_, congrArg Nat.succ hlength⟩
    rw [prepareAllNew, Action.runOn_bind_of_ok hfirst, Action.runOn_bind_of_ok hrest]
    rfl

theorem exists_preparePatch (patch : Document) (s : σ) :
    ∃ e t, (r.preparePatch patch).runOn s = (.ok e, t) := by
  rw [preparePatch]
  cases r.timestamps <;> exact ⟨_, _, rfl⟩

theorem prepareAllNew_withAfter (after : Hook σ → AfterEvent → Action (HookContext × σ) Unit)
    (ds : List Document) : (r.withAfter after).prepareAllNew ds = r.prepareAllNew ds := by
  induction ds with
  | nil => rfl
  | cons d ds ih =>
    rw [prepareAllNew, prepareAllNew, ih]
    rfl

end Preparing

/-! ## The steps of a write -/

namespace Write

/-- The write with what is handed to the store: documents with identifiers and times. -/
def prepare (r : Repository σ) : Write → Action σ Write
  | .create d => .create <$> r.prepareNew d
  | .createMany ds => .createMany <$> r.prepareAllNew ds
  | .update id patch => .update id <$> r.preparePatch patch
  | .updateMany f patch => .updateMany f <$> r.preparePatch patch
  | .delete id => pure (.delete id)
  | .deleteMany f => pure (.deleteMany f)

/-- How a write is announced. -/
def event : Write → BeforeEvent
  | .create d => .create d
  | .createMany ds => .createMany ds
  | .update id patch => .update id patch
  | .updateMany f patch => .updateMany f patch
  | .delete id => .delete id
  | .deleteMany f => .deleteMany f

/-- What the store does for a write. -/
def change (r : Repository σ) : Write → Action σ Answer
  | .create d => .document <$> r.store.insertOne d
  | .createMany ds => .documents <$> r.store.insertMany ds
  | .update id patch => .found <$> r.store.updateOne (r.idFilter id) patch
  | .updateMany f patch => .number <$> r.store.updateMany f patch
  | .delete id => .flag <$> r.store.deleteOne (r.idFilter id)
  | .deleteMany f => .number <$> r.store.deleteMany f

/-- A prepared write, announced and carried out. -/
def announced (r : Repository σ) : Write → Action σ Answer
  | .create d => .document <$> r.announced (.create d) (r.store.insertOne d) .create
  | .createMany ds =>
    .documents <$> r.announced (.createMany ds) (r.store.insertMany ds) .createMany
  | .update id patch =>
    .found <$> r.announced (.update id patch) (r.store.updateOne (r.idFilter id) patch) (.update id)
  | .updateMany f patch =>
    .number <$> r.announced (.updateMany f patch) (r.store.updateMany f patch) (.updateMany f)
  | .delete id =>
    .flag <$> r.announced (.delete id) (r.store.deleteOne (r.idFilter id)) (.delete id)
  | .deleteMany f => .number <$> r.announced (.deleteMany f) (r.store.deleteMany f) (.deleteMany f)

/-- The write as a call. -/
def call : Write → Call
  | .create d => .create d
  | .createMany ds => .createMany ds
  | .update id patch => .update id patch
  | .updateMany f patch => .updateMany f patch
  | .delete id => .delete id
  | .deleteMany f => .deleteMany f

theorem isRead_event (w : Write) : w.event.operation.isRead = false := by cases w <;> rfl

theorem run_call_eq (r : Repository σ) (w : Write) :
    w.call.run r = w.prepare r >>= fun given => given.announced r := by
  cases w with
  | create d => rw [call, Call.run, create_eq, map_bind, prepare, bind_map_left]; rfl
  | createMany ds => rw [call, Call.run, createMany_eq, map_bind, prepare, bind_map_left]; rfl
  | update id patch => rw [call, Call.run, update_eq, map_bind, prepare, bind_map_left]; rfl
  | updateMany f patch => rw [call, Call.run, updateMany_eq, map_bind, prepare, bind_map_left]; rfl
  | delete id => exact (pure_bind _ _).symm
  | deleteMany f => exact (pure_bind _ _).symm

/-- Preparing a write does not fail. -/
theorem exists_prepare (r : Repository σ) (w : Write) (s : σ) :
    ∃ given t, (w.prepare r).runOn s = (.ok given, t) := by
  have hmap : ∀ {α : Type} {a : Action σ α} (g : α → Write),
      (∃ x t, a.runOn s = (.ok x, t)) → ∃ given t, (g <$> a).runOn s = (.ok given, t) := by
    rintro α a g ⟨x, t, ha⟩
    exact ⟨g x, t, by rw [Action.runOn_map, ha]; rfl⟩
  cases w with
  | create d => exact hmap _ (r.exists_prepareNew d s)
  | createMany ds =>
    obtain ⟨es, t, hes, -⟩ := r.exists_prepareAllNew ds s
    exact hmap _ ⟨es, t, hes⟩
  | update id patch => exact hmap _ (r.exists_preparePatch patch s)
  | updateMany f patch => exact hmap _ (r.exists_preparePatch patch s)
  | delete id => exact ⟨_, _, rfl⟩
  | deleteMany f => exact ⟨_, _, rfl⟩

variable {r : Repository σ} {s s₁ t : σ} {f : Fault}

theorem runOn_map_announced {α : Type} {e : BeforeEvent} {change : Action σ α}
    {report : α → AfterEvent} {g : α → Answer} (h : r.Refusal e (g <$> change) s f t) :
    (g <$> r.announced e change report).runOn s = (.error f, t) := by
  exact Action.runOn_map_error.mpr ((refusal_map_iff.mp h).runOn_announced report)

/-- A write that is refused when it is prepared ends with the fault. -/
theorem runOn_call_of_refusal {w given : Write} (hprepare : (w.prepare r).runOn s = (.ok given, s₁))
    (h : r.Refusal given.event (given.change r) s₁ f t) :
    (w.call.run r).runOn s = (.error f, t) := by
  rw [run_call_eq, Action.runOn_bind_of_ok hprepare]
  cases given <;> exact runOn_map_announced h

/-- Preparing changes identifiers and the clock alone. -/
theorem preserves_prepare {P : σ → Prop}
    (hids : ∀ {α : Type} (a : Action IdSource α), (r.ids.lift a).Preserves P)
    (hclock : ∀ {α : Type} (a : Action Clock α), (r.clock.lift a).Preserves P) (w : Write) :
    (w.prepare r).Preserves P := by
  cases w with
  | create d => exact (preserves_prepareNew hids hclock d).map _
  | createMany ds => exact (preserves_prepareAllNew hids hclock ds).map _
  | update id patch => exact (preserves_preparePatch hclock patch).map _
  | updateMany f patch => exact (preserves_preparePatch hclock patch).map _
  | delete id => exact Action.preserves_pure _
  | deleteMany f => exact Action.preserves_pure _

section After

variable (after : Hook σ → AfterEvent → Action (HookContext × σ) Unit)

theorem prepare_withAfter (w : Write) : w.prepare (r.withAfter after) = w.prepare r := by
  cases w with
  | createMany ds => exact congrArg (createMany <$> ·) (r.prepareAllNew_withAfter after ds)
  | _ => rfl

theorem change_withAfter (w : Write) : w.change (r.withAfter after) = w.change r := by
  cases w <;> rfl

end After

end Write

end Repository

/-! ## Batches -/

namespace Collection

theorem length_of_prepareAll {idField : String} {others ds es : List Document}
    {ids ids' : IdSource} (h : prepareAll idField others ds ids = (.ok es, ids')) :
    es.length = ds.length := by
  induction ds generalizing others es ids with
  | nil =>
    cases h
    rfl
  | cons d ds ih =>
    rw [prepareAll] at h
    rcases hfirst : prepare idField others d ids with ⟨f | e, next⟩
    · simp only [hfirst] at h
      cases h
    · rcases hrest : prepareAll idField (others ++ [e]) ds next with ⟨f | rest, last⟩
      · simp only [hfirst, hrest] at h
        cases h
      · simp only [hfirst, hrest] at h
        cases h
        exact congrArg Nat.succ (ih hrest)

/-- What is inserted is the whole batch, behind what was there. -/
theorem of_insertMany_ok {ds stored : List Document} {c c' : Collection} {ids ids' : IdSource}
    (h : (insertMany ds).runOn (c, ids) = (.ok stored, c', ids')) :
    stored.length = ds.length ∧ c' = { c with docs := c.docs ++ stored } := by
  rw [insertMany, Action.runOn_ofFun] at h
  dsimp only at h
  split at h
  · cases h
  · next hprepare =>
    cases h
    exact ⟨length_of_prepareAll hprepare, rfl⟩

end Collection

/-! ## Caching among other hooks -/

variable {κ τ : Type}

/-- The documents and the cache are these. -/
def CachedStore.At (c : Collection) (k : CacheState κ) (s : CachedStore κ × τ) : Prop :=
  s.1.collection = c ∧ s.1.cache = k

/-- A hook that leaves the documents and the cache alone. -/
structure Hook.Detached (h : Hook (CachedStore κ × τ)) : Prop where
  before : ∀ e c k, (h.before e).Preserves fun x => CachedStore.At c k x.2
  after : ∀ e c k, (h.after e).Preserves fun x => CachedStore.At c k x.2

theorem CachePlugin.runOn_before_of_write (p : CachePlugin κ) {e : BeforeEvent}
    (he : e.operation.isRead = false) (x : HookContext × CacheState κ) :
    (p.before e).runOn x = (.ok (), x) := by
  have hcontext : context.runOn x = (.ok x.1, x) := rfl
  rw [before.eq_def, Action.runOn_bind_of_ok hcontext]
  split
  · rfl
  · cases e with
    | getById | getByQuery | getAll => cases he
    | _ => rfl

namespace HookedStore

open CachedStore Repository

variable (p : CachePlugin κ) (settings : PagingSettings) (timestamps : Bool)

/-- What is carried out on the documents and the supply of identifiers leaves the cache alone. -/
theorem of_runOn_pair {α : Type} {a : Action (Collection × IdSource) α} {s t : CachedStore κ × τ}
    {out : Except Fault α} (h : ((parts.collection.pair parts.ids).lift a).runOn s = (out, t)) :
    a.runOn (s.1.collection, s.1.ids) = (out, t.1.collection, t.1.ids) ∧
      t.1.cache = s.1.cache := by
  rw [Part.runOn_lift] at h
  cases h
  exact ⟨rfl, rfl⟩

section Refused

variable {ahead behind : List (Hook (CachedStore κ × τ))}

/-- A store that refuses a write leaves the documents and the cache. -/
theorem change_refused {given : Write} {s t : CachedStore κ × τ} {f : Fault}
    (h : (given.change (repository p settings timestamps ahead behind)).runOn s = (.error f, t)) :
    At s.1.collection s.1.cache t := by
  cases given with
  | create d =>
    obtain ⟨hinsert, hcache⟩ := of_runOn_pair (a := Collection.insertOne d)
      (Action.runOn_map_error.mp h)
    exact ⟨Collection.eq_of_insertOne_error hinsert, hcache⟩
  | createMany ds =>
    obtain ⟨hinsert, hcache⟩ := of_runOn_pair (a := Collection.insertMany ds)
      (Action.runOn_map_error.mp h)
    exact ⟨Collection.eq_of_insertMany_error hinsert, hcache⟩
  | update | updateMany | delete | deleteMany => cases Action.runOn_map_error.mp h

variable (hahead : ∀ h ∈ ahead, h.Detached) (hbehind : ∀ h ∈ behind, h.Detached)

include hahead hbehind

/-- Before a write caching does nothing. -/
theorem before_write_keeps {e : BeforeEvent} (he : e.operation.isRead = false) (c : Collection)
    (k : CacheState κ) : ∀ h ∈ (repository p settings timestamps ahead behind).hooks,
      (h.before e).Preserves fun x => At c k x.2 := by
  intro h hh
  rcases List.mem_append.mp hh with hfirst | hrest
  · exact (hahead h hfirst).before e c k
  rcases List.mem_cons.mp hrest with rfl | hlast
  · rintro ⟨context, s⟩ hs
    have hplugin := p.runOn_before_of_write he (context, cacheOf.get s)
    rw [CachePlugin.hook, Part.runOn_lift_beside hplugin]
    exact hs
  · exact (hbehind h hlast).before e c k

/-- After an operation caching leaves the documents alone. -/
theorem after_keeps (e : AfterEvent) (c : Collection) :
    ((repository p settings timestamps ahead behind).after e).Preserves
      fun x => x.2.1.collection = c := by
  refine Hook.preserves_emitAfter fun h hh x hx => ?_
  rcases List.mem_append.mp hh with hfirst | hrest
  · exact ((hahead h hfirst).after e c x.2.1.cache x ⟨hx, rfl⟩).1
  rcases List.mem_cons.mp hrest with rfl | hlast
  · exact hx
  · exact ((hbehind h hlast).after e c x.2.1.cache x ⟨hx, rfl⟩).1

/-- A refusal leaves the documents and the cache. -/
theorem refusal_keeps {given : Write} {s t : CachedStore κ × τ} {f : Fault}
    (h : (repository p settings timestamps ahead behind).Refusal given.event
      (given.change (repository p settings timestamps ahead behind)) s f t)
    {c : Collection} {k : CacheState κ} (hs : At c k s) : At c k t := by
  have hbefore := before_write_keeps p settings timestamps hahead hbehind given.isRead_event c k
  refine h.preserves hbefore ?_ hs
  rintro s f t ⟨rfl, rfl⟩ hfails
  exact change_refused p settings timestamps hfails

/-- A batch is inserted as a whole or not at all, whatever the hooks do. -/
theorem createMany_whole (s : CachedStore κ × τ) (ds : List Document) :
    let t := (((repository p settings timestamps ahead behind).createMany ds).runOn s).2
    t.1.collection = s.1.collection ∨ ∃ stored, stored.length = ds.length ∧
      t.1.collection = { s.1.collection with docs := s.1.collection.docs ++ stored } := by
  intro t
  let r := repository p settings timestamps ahead behind
  obtain ⟨given, s₁, hprepare, hlength⟩ := r.exists_prepareAllNew ds s
  have hs₁ : At s.1.collection s.1.cache s₁ := by
    have h : (r.prepareAllNew ds).Preserves (At s.1.collection s.1.cache) :=
      preserves_prepareAllNew (fun _ _ hs => hs) (fun _ _ hs => hs) ds
    exact h.of_runOn hprepare ⟨rfl, rfl⟩
  have ht : t = ((r.announced (.createMany given) (r.store.insertMany given)
      .createMany).runOn s₁).2 := by
    show ((r.createMany ds).runOn s).2 = _
    rw [createMany_eq, Action.runOn_bind_of_ok hprepare]
  rcases exists_refusal_or r (.createMany given) (r.store.insertMany given) s₁ with
    ⟨f, u, hrefused⟩ | ⟨x, stored, u, hagreed, hstored⟩
  · have hmap : r.Refusal (Write.createMany given).event ((Write.createMany given).change r) s₁ f
        u := refusal_map_iff.mpr hrefused
    have hu : At s.1.collection s.1.cache u :=
      refusal_keeps p settings timestamps hahead hbehind hmap hs₁
    rw [hrefused.runOn_announced] at ht
    exact Or.inl (ht ▸ hu.1)
  · right
    have hx : At s.1.collection s.1.cache x.2 := by
      have h := Hook.preserves_emitBefore (before_write_keeps p settings timestamps hahead hbehind
        (e := .createMany given) rfl s.1.collection s.1.cache)
      exact h.of_runOn hagreed hs₁
    obtain ⟨hinsert, -⟩ := of_runOn_pair (a := Collection.insertMany given) hstored
    obtain ⟨hcount, hdocs⟩ := Collection.of_insertMany_ok hinsert
    have hafter := after_keeps p settings timestamps hahead hbehind (.createMany stored)
      u.1.collection (x.1, u) rfl
    refine ⟨stored, hcount.trans hlength, ?_⟩
    rw [ht, runOn_announced_of_agreed hagreed hstored, hafter, hdocs, hx.1]

/-- A write that a hook or the store refuses ends with the first fault, in the state that the
refusal leaves, with the documents and the cache as they were: no hook hears of a result. And a
batch is inserted as a whole or not at all. -/
theorem refused_write_traceless (s : CachedStore κ × τ) :
    let r := repository p settings timestamps ahead behind
    (∀ w : Write, ∃ given s₁, (w.prepare r).runOn s = (.ok given, s₁) ∧
      ∀ f t, r.Refusal given.event (given.change r) s₁ f t →
        (w.call.run r).runOn s = (.error f, t) ∧
        t.1.collection = s.1.collection ∧ t.1.cache = s.1.cache ∧
        ∀ after, (w.call.run (r.withAfter after)).runOn s = (.error f, t)) ∧
    ∀ ds : List Document, let t := ((r.createMany ds).runOn s).2
      t.1.collection = s.1.collection ∨ ∃ stored, stored.length = ds.length ∧
        t.1.collection = { s.1.collection with docs := s.1.collection.docs ++ stored } := by
  intro r
  refine ⟨fun w => ?_, createMany_whole p settings timestamps hahead hbehind s⟩
  obtain ⟨given, s₁, hprepare⟩ := w.exists_prepare r s
  have hs₁ : At s.1.collection s.1.cache s₁ := by
    have h : (w.prepare r).Preserves (At s.1.collection s.1.cache) :=
      Write.preserves_prepare (fun _ _ hs => hs) (fun _ _ hs => hs) w
    exact h.of_runOn hprepare ⟨rfl, rfl⟩
  refine ⟨given, s₁, hprepare, fun f t h => ?_⟩
  obtain ⟨hcollection, hcache⟩ := refusal_keeps p settings timestamps hahead hbehind h hs₁
  have hunheard : ∀ after, (r.withAfter after).Refusal given.event
      (given.change (r.withAfter after)) s₁ f t := by
    intro after
    rw [Write.change_withAfter]
    exact h.withAfter after
  exact ⟨Write.runOn_call_of_refusal hprepare h, hcollection, hcache, fun after =>
    Write.runOn_call_of_refusal (by rw [Write.prepare_withAfter, hprepare]) (hunheard after)⟩

end Refused

/-- A hook that lets nothing be deleted by its identifier. -/
def warden : Hook (CachedStore TickingCache × Unit) where
  name := "warden"
  before
    | .delete _ => Action.fail (.validation "no deletions")
    | _ => pure ()

theorem warden_detached : warden.Detached := by
  refine ⟨fun e c k x hx => ?_, fun e c k x hx => hx⟩
  cases e <;> exact hx

/-- The warden refuses a deletion, and the store a batch that names an identifier twice. -/
theorem refused_write_traceless_warden :
    let r := repository rowsCache rowsPaging false [] [warden]
    (r.delete (.int 1)).runOn (noRows, ()) = (.error (.validation "no deletions"), noRows, ()) ∧
      ∃ t, ((Write.createMany [[("id", .int 1)], [("id", .int 2)], [("id", .int 1)]]).call.run
          r).runOn (noRows, ()) = (.error (.store "duplicate key: 1"), t) ∧
        t.1.collection = noRows.collection ∧ t.1.cache = noRows.cache := by
  intro r
  obtain ⟨hwrites, -⟩ := refused_write_traceless rowsCache rowsPaging false (List.forall_mem_nil _)
    (List.forall_mem_singleton.mpr warden_detached) (noRows, ())
  constructor
  · obtain ⟨given, s₁, hprepare, hrefused⟩ := hwrites (.delete (.int 1))
    obtain ⟨rfl, rfl⟩ : given = .delete (.int 1) ∧ s₁ = (noRows, ()) := by
      cases hprepare
      exact ⟨rfl, rfl⟩
    have hwarden : r.Refusal (.delete (.int 1)) ((Write.delete (.int 1)).change r) (noRows, ())
        (.validation "no deletions") (noRows, ()) :=
      .hook (show r.hooks = [rowsCache.hook cacheOf] ++ warden :: [] from rfl) rfl rfl
    exact Action.runOn_map_error.mp (hrefused _ _ hwarden).1
  · obtain ⟨given, s₁, hprepare, hrefused⟩ := hwrites
      (.createMany [[("id", .int 1)], [("id", .int 2)], [("id", .int 1)]])
    obtain ⟨rfl, rfl⟩ : given = .createMany [[("id", .int 1)], [("id", .int 2)], [("id", .int 1)]] ∧
        s₁ = (noRows, ()) := by
      cases hprepare
      exact ⟨rfl, rfl⟩
    obtain ⟨hrun, hdocs, hcache, -⟩ := hrefused _ _ (.store rfl rfl)
    exact ⟨_, hrun, hdocs, hcache⟩

end HookedStore
end Quire
