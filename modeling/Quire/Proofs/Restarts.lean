import Quire.Proofs.ListFreshness

/-!
# Restarts

Caching that starts anew goes on from the version that the adapter still holds. Where that entry
was never written, has expired or was evicted, the version falls back and passes through earlier
numbers again, and a list kept under one of them is found again. What keeps lists fresh is that
either the version does not fall, or no list is left from the version on where it goes on.
-/
namespace Quire

namespace CachePlugin

variable {κ : Type} (p : CachePlugin κ)

/-- The version from which caching goes on when it is started anew. -/
def resumed (start : Nat) (k : κ) : Nat := max start ((p.seen? k).getD 0)

/-- The list that the adapter has under a version, if it has one of the requested method. -/
def keptList? (version : Nat) (mode : ListMode) (k : κ) : Option ListResult :=
  Repository.servedList? mode ((p.adapter.reply (p.keys.list version mode) k).bind readList?)

end CachePlugin

namespace CachedStore

variable {κ α : Type} {p : CachePlugin κ} {settings : PagingSettings} {timestamps : Bool}
  {modes : ListMode → Prop} {Holds : κ → CacheMemory → Prop}

/-! ## What a read through the cache returns -/

/-- A list read returns the list that is kept under the version, if there is one. -/
theorem getAll_eq_keptList (henabled : p.settings.enabled = true) {request : ListRequest}
    (hskip : request.skipCache = false) (hlimit : p.exceedsLimit request = false)
    (w : CachedStore κ) :
    (((repository p settings timestamps).getAll request).runOn w).1 =
      ((p.keptList? w.cache.version.current request.mode w.cache.adapter).map Except.ok).getD
        (w.collection.listed settings request.mode) := by
  have hsource : p.source? { skipCache := request.skipCache } w.cache.version.current
      (.getAll request) =
        some (p.keys.list w.cache.version.current request.mode, CachePlugin.readList?) := by
    rw [CachePlugin.source?, hskip, hlimit]
    rfl
  rw [Repository.getAll_eq]
  exact readThrough_result henabled (CachePlugin.after_getAll henabled request)
    (fun s => Repository.runOn_readList collectionPart idsPart _ rfl request.mode _) hsource

/-! ## Runs with restarts -/

/-- A restart that finds no older list: the version does not fall, or all lists are gone that were
kept under the version where caching goes on, or a later one. -/
def Harmless (p : CachePlugin κ) (modes : ListMode → Prop) (Holds : κ → CacheMemory → Prop)
    (start : Nat) (w : CachedStore κ) : Prop :=
  w.cache.version.current ≤ p.resumed start w.cache.adapter ∨
    ∃ m, Holds w.cache.adapter m ∧ ∀ v mode, p.resumed start w.cache.adapter ≤ v → modes mode →
      m (p.keys.list v mode) = none

/-- What can happen where caching may be started anew at any time. -/
inductive RestartMove (p : CachePlugin κ) (settings : PagingSettings) (timestamps : Bool)
    (modes : ListMode → Prop) (Holds : κ → CacheMemory → Prop) :
    CachedStore κ → CachedStore κ → Prop
  | move {w w' : CachedStore κ} (h : Move p settings timestamps (.ofModes modes) Holds w w') :
      RestartMove p settings timestamps modes Holds w w'
  | restart (w : CachedStore κ) (publish : Bool) (start : Nat)
      (hharmless : w.Harmless p modes Holds start) :
      RestartMove p settings timestamps modes Holds w
        (attach p settings timestamps publish start w.cache.adapter w)

/-- Any number of moves and restarts, one after another. -/
abbrev RestartRun (p : CachePlugin κ) (settings : PagingSettings) (timestamps : Bool)
    (modes : ListMode → Prop) (Holds : κ → CacheMemory → Prop) :
    CachedStore κ → CachedStore κ → Prop :=
  Relation.ReflTransGen (RestartMove p settings timestamps modes Holds)

namespace ListsFresh

variable {c : Collection} {v : Nat} {k : κ}

/-- A harmless restart keeps lists fresh. -/
theorem restart (hadapter : p.adapter.Remembers Holds) {w : CachedStore κ} {start : Nat}
    (hharmless : w.Harmless p modes Holds start) (timestamps publish : Bool)
    (h : ListsFresh p settings modes Holds w.snapshot) :
    ListsFresh p settings modes Holds
      (CachedStore.attach p settings timestamps publish start w.cache.adapter w).snapshot := by
  rw [snapshot_attach]
  rcases hharmless with hle | ⟨m, hm, hnone⟩
  · have hlooked : ListsFresh p settings modes Holds
        { w.snapshot with adapter := p.adapter.afterGet p.keys.version w.cache.adapter } :=
      h.lose fun m hm => hadapter.get hm p.keys.version
    exact hlooked.resume hle
  · refine ⟨h.sound, m, hadapter.get hm _, fun v mode text hle hmode hget => ?_⟩
    rw [hnone v mode hle hmode] at hget
    cases hget

theorem restartMove (henabled : p.settings.enabled = true) (hadapter : p.adapter.Remembers Holds)
    (hmodes : ∀ mode other, modes mode → modes other →
      fingerprint mode.toValue = fingerprint other.toValue → mode = other)
    {w w' : CachedStore κ} (hmove : RestartMove p settings timestamps modes Holds w w')
    (h : ListsFresh p settings modes Holds w.snapshot) :
    ListsFresh p settings modes Holds w'.snapshot := by
  cases hmove with
  | move hmove =>
    exact hmove.keeps henabled Value.storable_isWhole64
      (fun hxy hx => hx.effect hadapter hmodes hxy) (fun hk hx => hx.lose hk) h
  | restart publish start hharmless => exact h.restart hadapter hharmless timestamps publish

end ListsFresh

/-- In a run whose restarts are harmless, a list is returned exactly as paging gives it over the
present collection. The read after any further restart returns it exactly when the list that the
adapter has under the version where caching goes on, if it has one, is the present list too. -/
theorem getAll_after_restarts (henabled : p.settings.enabled = true)
    (hadapter : p.adapter.Remembers Holds)
    (hmodes : ∀ mode other, modes mode → modes other →
      fingerprint mode.toValue = fingerprint other.toValue → mode = other)
    {first w : CachedStore κ} {k : κ} {m : CacheMemory}
    (hsound : first.collection.Sound Value.isWhole64) (hm : Holds k m)
    (hnone : ∀ rest, m (p.keys.stem ++ rest) = none) {publish : Bool} {version : Nat}
    (hrun : RestartRun p settings timestamps modes Holds
      (attach p settings timestamps publish version k first) w) :
    (∀ request, modes request.mode →
      (((repository p settings timestamps).getAll request).runOn w).1 =
        w.collection.listed settings request.mode) ∧
    ∀ (publish : Bool) (start : Nat) (request : ListRequest), request.skipCache = false →
      p.exceedsLimit request = false →
      ((((repository p settings timestamps).getAll request).runOn
          (attach p settings timestamps publish start w.cache.adapter w)).1 =
          w.collection.listed settings request.mode ↔
        ∀ r, p.keptList? (p.resumed start w.cache.adapter) request.mode
            (p.adapter.afterGet p.keys.version w.cache.adapter) = some r →
          w.collection.listed settings request.mode = .ok r) := by
  have hfresh : ListsFresh p settings modes Holds w.snapshot := by
    induction hrun with
    | refl => exact .attach hadapter hsound hm hnone timestamps publish version
    | tail _ hmove ih => exact ih.restartMove henabled hadapter hmodes hmove
  refine ⟨fun request hmode => getAll_eq_of_listsFresh henabled hadapter hfresh hmode, ?_⟩
  intro publish start request hskip hlimit
  have hstate := snapshot_attach p settings timestamps publish start w.cache.adapter w
  rw [snapshot, Snapshot.mk.injEq] at hstate
  obtain ⟨hcollection, hversion, hadapted⟩ := hstate
  rw [getAll_eq_keptList henabled hskip hlimit, hcollection, hversion, hadapted,
    ← CachePlugin.resumed]
  cases p.keptList? (p.resumed start w.cache.adapter) request.mode
      (p.adapter.afterGet p.keys.version w.cache.adapter) with
  | none => simp
  | some r =>
    simp only [Option.map_some, Option.getD_some, Option.some.injEq, forall_eq']
    exact eq_comm

/-! ## Rows -/

/-- The rows that the cache has lost, with the version, and a new start of caching after it. -/
def rowsResumed : CachedStore TickingCache :=
  afterOp (.create [("id", .int 2), ("n", .int 7)])
    (attach rowsCache rowsPaging false true 0 rowsLost.cache.adapter rowsLost)

theorem restartRun_rowsResumed :
    RestartRun rowsCache rowsPaging false rowPages TickingCache.Holds noRows rowsResumed := by
  have hfirst : Document.Sound Value.isWhole64 [("id", .int 1), ("n", .int 5)] := by decide +kernel
  have hsecond : Document.Sound Value.isWhole64 [("id", .int 2), ("n", .int 7)] := by
    decide +kernel
  have hcreated : RestartRun rowsCache rowsPaging false rowPages TickingCache.Holds noRows
      (afterOp (.create [("id", .int 1), ("n", .int 5)]) noRows) :=
    .single (.move (.perform noRows _ hfirst (by decide +kernel)))
  have hlisted := hcreated.tail (.move (.perform _
    (.getAll { mode := .offset { limit := some 1 } }) (Or.inl rfl) (by decide +kernel)))
  have hlost := hlisted.tail (.move (.lose _ (k := .empty 100) fun _ _ e he => by cases he))
  have hnothing : TickingCache.Holds (.empty 100) fun _ => none := fun e he => by cases he
  have hresumed := hlost.tail (.restart rowsLost true 0
    (Or.inr ⟨fun _ => none, hnothing, fun _ _ _ _ => rfl⟩))
  exact hresumed.tail (.move (.perform _ (.create [("id", .int 2), ("n", .int 7)]) hsecond
    (by decide +kernel)))

/-- The version has fallen and passes through the same number again. -/
theorem getAll_after_restarts_rowsResumed :
    (rowsLost.cache.version.current = rowsResumed.cache.version.current) ∧
    (((repository rowsCache rowsPaging false).getAll
        { mode := .offset { limit := some 1 } }).runOn rowsResumed).1 =
      rowsResumed.collection.listed rowsPaging (.offset { limit := some 1 }) := by
  have hnothing : TickingCache.Holds (.empty 100) fun _ => none := fun e he => by cases he
  have hagain : rowsLost.cache.version.current = rowsResumed.cache.version.current := by
    decide +kernel
  exact ⟨hagain, (getAll_after_restarts rfl TickingCache.remembersUndeleted.toRemembers
    eq_of_fingerprint_rowPages (by decide +kernel) hnothing (fun _ => rfl)
    restartRun_rowsResumed).1 _ (Or.inl rfl)⟩

/-- Caching of rows with a version entry that lives shorter than the lists. -/
def hastyCache : CachePlugin TickingCache := { rowsCache with settings := { versionTtl := 1 } }

/-- An empty list, a row, and a read of the row for which a cache of two entries makes room by
dropping the version. -/
def versionEvicted : CachedStore TickingCache :=
  let start := attach hastyCache rowsPaging false false 0 (.empty 2) noRows
  let ops : List CachedOp :=
    [.getAll { mode := .offset {} }, .create [("id", .int 1)], .getById (.int 1) {}]
  ops.foldl
    (fun w op => ((op.perform hastyCache (repository hastyCache rowsPaging false)).runOn w).2) start

/-- Caching that starts anew there returns the empty list of before. -/
theorem getAll_stale_versionEvicted :
    (((repository hastyCache rowsPaging false).getAll { mode := .offset {} }).runOn
        (attach hastyCache rowsPaging false false 0 versionEvicted.cache.adapter
          versionEvicted)).1 ≠
      versionEvicted.collection.listed rowsPaging (.offset {}) := by
  intro heq
  have hdocs : (((repository hastyCache rowsPaging false).getAll { mode := .offset {} }).runOn
      (attach hastyCache rowsPaging false false 0 versionEvicted.cache.adapter
        versionEvicted)).1.toOption.map (·.docs.length) = some 0 := by decide +kernel
  have hlisted : (versionEvicted.collection.listed rowsPaging (.offset {})).toOption.map
      (·.docs.length) = some 1 := by decide +kernel
  rw [heq, hlisted] at hdocs
  cases hdocs

end CachedStore
end Quire
