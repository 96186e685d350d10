import Quire.Proofs.CacheAccounts

/-!
# Unharmed turns

Runs of calls and invalidations by hand through a cached repository, beside the same runs without a
cache. A turn raises the version at most once, so that the counter does not come to its end before
it has been raised as often as it has values.
-/
namespace Quire

open CachedStore

namespace CacheTurn

variable {κ : Type} (p : CachePlugin κ) (settings : PagingSettings) (timestamps : Bool)

/-- An invalidation by hand leaves of the cache what it leaves by itself. -/
theorem cache_runOn_invalidation {α : Type} {a : Action (CacheState κ) α} {w : CachedStore κ}
    {x : α} {s : CacheState κ} (h : a.runOn w.cache = (.ok x, s)) :
    (((fun _ => (none : Option Answer)) <$> cachePart.lift a).runOn w).2.cache = s := by
  rw [Action.runOn_map, CachedOp.runOn_onCachePart h]

/-- A call does nothing to the cache where the plugin is switched off. -/
theorem cache_runOn_call_of_disabled (hdisabled : p.settings.enabled = false) (c : Call)
    (w : CachedStore κ) :
    ((c.run (repository p settings timestamps)).runOn w).2.cache = w.cache := by
  have hhook := CachePlugin.hook_harmless_of_disabled hdisabled w.cache
  rw [repository_eq]
  exact (StoreParts.run_follows (List.forall_mem_singleton.mpr hhook) _ settings timestamps
    (parts_alike _) c w w.store ⟨rfl, rfl⟩).1.2

theorem version_call_le (c : Call) (w : CachedStore κ) :
    ((c.run (repository p settings timestamps)).runOn w).2.cache.version.current ≤
      w.cache.version.current + 1 := by
  cases henabled : p.settings.enabled with
  | false =>
    rw [cache_runOn_call_of_disabled p settings timestamps henabled c w]
    exact Nat.le_succ _
  | true =>
    have hmoved := Call.run_ensures (beside_plain p.keys.collection settings timestamps) rfl
      henabled c w rfl
    exact hmoved.version.trans_le ((ListVersion.iterate_next_le _ _).trans
      (Nat.add_le_add_left (Bool.toNat_le _) _))

/-- A turn raises the version at most once. -/
theorem version_le (turn : CacheTurn) (w : CachedStore κ) :
    ((turn.run p cachePart (repository p settings timestamps)).runOn w).2.cache.version.current ≤
      w.cache.version.current + 1 := by
  cases turn with
  | call c =>
    rw [run, Action.runOn_map]
    exact version_call_le p settings timestamps c w
  | invalidate id =>
    obtain ⟨existed, stats, h⟩ := p.runOn_dropById id w.cache
    rw [run, CachePlugin.invalidate, cache_runOn_invalidation h]
    exact Nat.le_succ _
  | invalidateLists =>
    obtain ⟨stats, h⟩ := p.runOn_bump w.cache
    rw [run, CachePlugin.invalidateLists, cache_runOn_invalidation h]
    exact ListVersion.next_le _
  | invalidateAll =>
    obtain ⟨n, stats, k, version, -, hversion, h⟩ := p.runOn_invalidateAll w.cache
    rw [run, cache_runOn_invalidation h]
    rcases hversion with rfl | rfl
    · exact Nat.le_succ _
    · exact ListVersion.next_le _

theorem afterAll_version_le (turns : List CacheTurn) (w : CachedStore κ) :
    (Action.afterAll (run p cachePart (repository p settings timestamps))
      turns w).cache.version.current ≤ w.cache.version.current + turns.length := by
  induction turns generalizing w with
  | nil => exact Nat.le_refl _
  | cons turn turns ih =>
    have hturn := version_le p settings timestamps turn w
    have hrest := ih ((turn.run p cachePart (repository p settings timestamps)).runOn w).2
    rw [List.length_cons, ← Nat.add_assoc, Nat.add_right_comm]
    exact hrest.trans (Nat.add_le_add_right hturn _)

end CacheTurn

namespace CachedStore

open CacheState

variable {κ : Type} (p : CachePlugin κ) (settings : PagingSettings) (timestamps publish : Bool)
  (start : Nat) (k : κ)

/-- Whatever the adapter does in a run of calls and invalidations, the store goes through the same
states as without a cache; no turn fails that would not fail there in the same way; and only reads
that ask the cache can have other results, of the shape that was asked for. The version has a next
one as long as it was not near its end at first and the turns are not so many. An adapter that fails
at every call changes no result, and is counted as if it had not been there. -/
theorem turns_unharmed (w : CachedStore κ) (turns : List CacheTurn) :
    let cached := repository p settings timestamps
    let plain := PlainStore.parts.repository p.keys.collection settings timestamps []
    let w' := Action.afterAll (CacheTurn.run p cachePart cached) turns
      (attach p settings timestamps publish start k w)
    let u' := Action.afterAll (CacheTurn.plain plain) turns w.store
    w'.store = u' ∧
      (∀ turn : CacheTurn, turn.Unharmed ((turn.run p cachePart cached).runOn w').1
        ((turn.plain plain).runOn u').1) ∧
      (∀ request, ((cached.paginate request).runOn w').1 ≠
        .error (.internal "offset read produced a different result shape")) ∧
      (∀ request, ((cached.stream request).runOn w').1 ≠
        .error (.internal "keyset read produced a different result shape")) ∧
      ((attach p settings timestamps publish start k w).cache.version.current + turns.length + 1 <
          twoPow 64 →
        ListVersion.HasNext w'.cache.version.current) ∧
      (p.adapter.Fails →
        (∀ turn : CacheTurn, ((turn.run p cachePart cached).runOn w').1 =
            ((turn.plain plain).runOn u').1) ∧
          w'.cache.stats.hits = 0 ∧ w'.cache.stats.sets = 0) := by
  intro cached plain w' u'
  have hstart := over_attach p settings timestamps publish start k w
  have hfollows := CacheTurn.run_follows (P := fun _ => True) p.hook_harmless
    (fun _ _ _ => trivial) (fun _ _ => trivial) (fun _ _ => trivial) settings timestamps
  have hstores : Over (fun _ => True) w' u' :=
    Action.afterAll_related hfollows turns ⟨hstart.1, trivial⟩
  have hunharmed : ∀ turn : CacheTurn, turn.Unharmed ((turn.run p cachePart cached).runOn w').1
      ((turn.plain plain).runOn u').1 := fun turn => .of_follows (hfollows turn) hstores
  have hcall : ∀ (c : Call) (f : Fault), ((c.run cached).runOn w').1 = .error f →
      ((c.run plain).runOn u').1 = .error f := by
    intro c f hf
    have hfault := (hunharmed (.call c)).fault f
    rw [CacheTurn.run, CacheTurn.plain, Action.runOn_map_eq_error_iff,
      Action.runOn_map_eq_error_iff] at hfault
    exact hfault hf
  refine ⟨hstores.1, hunharmed, fun request hshape => ?_, fun request hshape => ?_,
    fun hroom => ?_, fun hfails => ?_⟩
  · have hplain := hcall (.paginate request) _
      ((Action.runOn_map_eq_error_iff _ _ _ _).mpr hshape)
    exact PlainStore.parts.runOn_paginate_ne_shape _ _ _ request u'
      ((Action.runOn_map_eq_error_iff _ _ _ _).mp hplain)
  · have hplain := hcall (.stream request) _
      ((Action.runOn_map_eq_error_iff _ _ _ _).mpr hshape)
    exact PlainStore.parts.runOn_stream_ne_shape _ _ _ request u'
      ((Action.runOn_map_eq_error_iff _ _ _ _).mp hplain)
  · have hgrown := CacheTurn.afterAll_version_le p settings timestamps turns
      (attach p settings timestamps publish start k w)
    exact Nat.lt_of_le_of_lt (Nat.succ_le_succ hgrown) hroom
  · have hfollows' := CacheTurn.run_follows (CachePlugin.hook_harmless_of_fails hfails)
      CachePlugin.preserves_dropById CachePlugin.preserves_bump CachePlugin.preserves_invalidateAll
      settings timestamps
    have hunused : Over Unused w' u' := Action.afterAll_related hfollows' turns hstart
    refine ⟨fun turn => ?_, hunused.2⟩
    rcases (hfollows' turn w' u' hunused).2 with hsame | ⟨x, -, -, hloud⟩
    · exact hsame
    · exact absurd trivial hloud

/-- Caching for a collection of rows, over an adapter that can be reached by no call. -/
def unreachableCache : CachePlugin Unit where
  keys := rowsCache.keys
  settings := {}
  adapter := {
    get _ := Action.fail (.cache "unreachable")
    set _ _ _ := Action.fail (.cache "unreachable")
    delete _ := Action.fail (.cache "unreachable")
    supportsClear := true
    clear _ := Action.fail (.cache "unreachable")
    isEnabled := true }

theorem fails_unreachableCache : unreachableCache.adapter.Fails :=
  ⟨fun _ _ => ⟨_, rfl⟩, fun _ _ _ _ => ⟨_, rfl⟩, fun _ _ => ⟨_, rfl⟩, fun _ _ => ⟨_, rfl⟩⟩

/-- No rows yet, and a cache that cannot be reached. -/
def unreachableRows : CachedStore Unit where
  collection := { idField := "id" }
  ids := ⟨fun n => toString n, 0⟩
  clock := ⟨fun n => toString n, 0⟩
  cache := .start "rows" false 0 ()

/-- A row is created, read and changed, and all lists are dropped by hand. -/
def rowTurns : List CacheTurn :=
  [.call (.create [("id", .int 1), ("n", .int 5)]), .call (.getById (.int 1) {}),
    .call (.paginate {}), .call (.updateMany .all [("n", .int 6)]), .invalidateAll]

/-- After the turns a row is read as without a cache, nothing counts as served, and the version has
a next one. -/
theorem turns_unharmed_rowTurns :
    let cached := repository unreachableCache rowsPaging false
    let plain := PlainStore.parts.repository unreachableCache.keys.collection rowsPaging false []
    let w' := Action.afterAll (CacheTurn.run unreachableCache cachePart cached) rowTurns
      (attach unreachableCache rowsPaging false false 0 () unreachableRows)
    let u' := Action.afterAll (CacheTurn.plain plain) rowTurns unreachableRows.store
    unreachableCache.adapter.Fails ∧
      (∀ turn : CacheTurn, ((turn.run unreachableCache cachePart cached).runOn w').1 =
        ((turn.plain plain).runOn u').1) ∧
      w'.cache.stats.hits = 0 ∧ w'.cache.stats.sets = 0 ∧
      ListVersion.HasNext w'.cache.version.current := by
  obtain ⟨-, -, -, -, hnext, hfailing⟩ :=
    turns_unharmed unreachableCache rowsPaging false false 0 () unreachableRows rowTurns
  obtain ⟨hsame, hhits, hsets⟩ := hfailing fails_unreachableCache
  exact ⟨fails_unreachableCache, hsame, hhits, hsets, hnext (by decide +kernel)⟩

end CachedStore
end Quire
