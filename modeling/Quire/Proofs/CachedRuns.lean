import Quire.Proofs.CacheMemories
import Quire.Proofs.CachedOperations
import Quire.Proofs.KeySpace

/-!
# Runs of a cached repository

Operations one after another, while the adapter may lose entries at any time and caching may be
started anew. What every effect keeps, and every loss, is kept by the whole run.
-/
namespace Quire

namespace CachedStore

variable {κ : Type} (p : CachePlugin κ) (settings : PagingSettings) (timestamps : Bool)

/-- The store after caching has been started over it, on an adapter that may hold entries. -/
def attach (publish : Bool) (start : Nat) (k : κ) (w : CachedStore κ) : CachedStore κ :=
  (((plain p.keys.collection settings timestamps).attachCache p cachePart
    (.start p.keys.collection publish start k)).runOn w).2

variable (publish : Bool) (start : Nat) (k : κ) (w : CachedStore κ)

theorem runOn_attachCache :
    ∃ stats, ((plain p.keys.collection settings timestamps).attachCache p cachePart
      (.start p.keys.collection publish start k)).runOn w =
        (.ok (repository p settings timestamps), { w with
          cache := ⟨⟨max start ((p.seen? k).getD 0)⟩, stats,
            p.adapter.afterGet p.keys.version k⟩ }) := by
  obtain ⟨n, stats, h⟩ := p.runOn_bootstrap (.start p.keys.collection publish start k)
  refine ⟨stats, ?_⟩
  have hset : (Action.ofStep fun s : CachedStore κ =>
      ((), cachePart.set (.start p.keys.collection publish start k) s)).runOn w =
        (.ok (), { w with cache := .start p.keys.collection publish start k }) := rfl
  rw [Repository.attachCache, Action.runOn_bind_of_ok hset,
    Action.runOn_bind_of_ok (CachedOp.runOn_onCachePart h)]
  rfl

theorem snapshot_attach :
    (attach p settings timestamps publish start k w).snapshot =
      ⟨w.collection, max start ((p.seen? k).getD 0), p.adapter.afterGet p.keys.version k⟩ := by
  obtain ⟨stats, h⟩ := runOn_attachCache p settings timestamps publish start k w
  rw [attach, h]
  rfl

/-- What can happen between two operations and in them. -/
inductive Move (scope : Scope) (Holds : κ → CacheMemory → Prop) :
    CachedStore κ → CachedStore κ → Prop
  | perform (w : CachedStore κ) (op : CachedOp) (hop : op.Within scope)
      (hversion : scope.versions w.cache.version.current) :
      Move scope Holds w ((op.perform p (repository p settings timestamps)).runOn w).2
  /-- The adapter loses entries, of itself or because they expire. -/
  | lose (w : CachedStore κ) {k : κ} (hk : ∀ m, Holds w.cache.adapter m → Holds k m) :
      Move scope Holds w { w with cache := { w.cache with adapter := k } }
  /-- Caching starts anew where the adapter still holds the present version. -/
  | restart (w : CachedStore κ) (publish : Bool) (start : Nat)
      (hversion : p.seen? w.cache.adapter = some w.cache.version.current) :
      Move scope Holds w (attach p settings timestamps publish start w.cache.adapter w)

/-- Any number of moves, one after another. -/
abbrev Run (scope : Scope) (Holds : κ → CacheMemory → Prop) :
    CachedStore κ → CachedStore κ → Prop :=
  Relation.ReflTransGen (Move p settings timestamps scope Holds)

variable {p settings timestamps} {scope : Scope} {Holds : κ → CacheMemory → Prop}

/-- What every effect keeps and every loss keeps, every move keeps. -/
theorem Move.keeps {J : Snapshot κ → Prop} (henabled : p.settings.enabled = true)
    (hq : Value.Storable scope.parts)
    (heffect : ∀ {x y}, Effect p settings scope x y → J x → J y)
    (hlose : ∀ {c v k k'}, (∀ m, Holds k m → Holds k' m) → J ⟨c, v, k⟩ → J ⟨c, v, k'⟩)
    {w w' : CachedStore κ} (h : Move p settings timestamps scope Holds w w')
    (hJ : J w.snapshot) : J w'.snapshot := by
  have heffects : ∀ {x y}, Effects p settings scope x y → J x → J y := by
    intro x y hxy hx
    induction hxy with
    | refl => exact hx
    | tail _ hstep ih => exact heffect hstep ih
  cases h with
  | perform op hop hversion =>
    exact heffects (CachedOp.effects_perform p settings timestamps henabled hq hop w hversion) hJ
  | lose hk => exact hlose hk hJ
  | restart publish start hversion =>
    rw [snapshot_attach, hversion]
    have hlook : Effect p settings scope w.snapshot ⟨w.collection, w.cache.version.current,
        p.adapter.afterGet p.keys.version w.cache.adapter⟩ := .look _ _ _ _
    exact heffect (.resume _ _ _ (Nat.le_max_right _ _)) (heffect hlook hJ)

/-- What every effect keeps and every loss keeps, a whole run keeps. -/
theorem Run.keeps {J : Snapshot κ → Prop} (henabled : p.settings.enabled = true)
    (hq : Value.Storable scope.parts)
    (heffect : ∀ {x y}, Effect p settings scope x y → J x → J y)
    (hlose : ∀ {c v k k'}, (∀ m, Holds k m → Holds k' m) → J ⟨c, v, k⟩ → J ⟨c, v, k'⟩)
    {w w' : CachedStore κ} (h : Run p settings timestamps scope Holds w w')
    (hJ : J w.snapshot) : J w'.snapshot := by
  induction h with
  | refl => exact hJ
  | tail _ hmove ih => exact hmove.keeps henabled hq heffect hlose ih

/-! ## Rows -/

/-- Caching for a collection of rows, in memory. -/
def rowsCache : CachePlugin TickingCache where
  keys := ⟨"app", "rows", by decide, by decide⟩
  settings := {}
  adapter := TickingCache.adapter

def rowsPaging : PagingSettings := { idField := "id" }

/-- No rows yet, and nothing in the cache. -/
def noRows : CachedStore TickingCache :=
  attach rowsCache rowsPaging false false 0 (.empty 100)
    { collection := { idField := "id" }, ids := ⟨fun n => toString n, 0⟩
      clock := ⟨fun n => toString n, 0⟩, cache := .start "rows" false 0 (.empty 100) }

/-- The rows after an operation. -/
def afterOp (op : CachedOp) (w : CachedStore TickingCache) : CachedStore TickingCache :=
  ((op.perform rowsCache (repository rowsCache rowsPaging false)).runOn w).2

end CachedStore
end Quire
