import Quire.Proofs.Interleavings

/-!
# Interleaved list reads

List reads beside writes that change the collection in any way, while the adapter may be used under
all keys that are no lists of the collection.
-/
namespace Quire

/-- List reads in some modes, and any writes. -/
def TrafficKind.lists (keys : CacheKeys) (settings : PagingSettings) (modes : ListMode → Prop) :
    TrafficKind ListRequest ListResult where
  asks request := modes request.mode
  skipCache request := request.skipCache
  before := .getAll
  pick request := Repository.servedList? request.mode
  find request c := c.listed settings request.mode
  after := .getAll
  changes _ e _ := e.operation.isRead = false
  others key := ∀ version mode, key ≠ keys.list version mode

namespace CachePlugin

variable {κ : Type} (p : CachePlugin κ)

/-- Before a list read nothing happens, or the cache is asked for the list under the present
version. -/
theorem runOn_before_getAll (request : ListRequest) (s : CacheState κ) :
    (p.before (.getAll request)).runOn ({ skipCache := request.skipCache }, s) =
        (.ok (), { skipCache := request.skipCache }, s) ∨
      p.settings.enabled = true ∧ ∃ stats,
        (p.before (.getAll request)).runOn ({ skipCache := request.skipCache }, s) =
          (.ok (),
            .noted (p.keys.list s.version.current request.mode)
              ((p.adapter.reply (p.keys.list s.version.current request.mode) s.adapter).bind
                readList?)
              { skipCache := request.skipCache },
            { s with
              stats
              adapter := p.adapter.afterGet (p.keys.list s.version.current request.mode)
                s.adapter }) := by
  cases henabled : p.settings.enabled with
  | false => exact Or.inl (runOn_before_of_disabled henabled _ _ s)
  | true =>
    have h := p.runOn_before henabled (.getAll request) { skipCache := request.skipCache } s
    rw [source?] at h
    by_cases hpast : (request.skipCache || p.exceedsLimit request) = true
    · rw [if_pos hpast] at h
      exact Or.inl h
    · rw [if_neg hpast] at h
      exact Or.inr ⟨rfl, h⟩

/-- After a list read nothing happens, or the result is kept under the key that was noted. -/
theorem runOn_after_getAll (request : ListRequest) (r : ListResult) (c : HookContext)
    (s : CacheState κ) :
    (p.after (.getAll request r)).runOn (c, s) = (.ok (), c, s) ∨
      p.settings.enabled = true ∧ c.servedFromCache = false ∧
        ∃ key stats, c.cacheKey = some key ∧
          (p.after (.getAll request r)).runOn (c, s) = (.ok (), c,
            { s with
              stats, adapter := p.adapter.afterSet key r.toValue.text p.settings.listTtl
                s.adapter }) := by
  cases henabled : p.settings.enabled with
  | false => exact Or.inl (runOn_after_of_disabled henabled _ c s)
  | true =>
    rw [after_getAll henabled]
    by_cases hskipped : c.servedFromCache = true ∨ c.cacheKey = none
    · exact Or.inl (p.runOn_keepResult_of_not_kept (hskipped.imp_right Or.inl) _ s)
    · simp only [not_or, Bool.not_eq_true, ← ne_eq, Option.ne_none_iff_exists'] at hskipped
      obtain ⟨hserved, key, hkey⟩ := hskipped
      obtain ⟨stats, hkeep⟩ := p.runOn_keepResult hserved hkey r.toValue p.settings.listTtl s
      exact Or.inr ⟨rfl, hserved, key, stats, hkey, hkeep⟩

end CachePlugin

/-- The steps of a list read, one after another, are the list read. -/
theorem TrafficRun.exists_getAll {κ : Type} {p : CachePlugin κ} {settings : PagingSettings}
    {timestamps : Bool} {modes : ListMode → Prop} {Holds : κ → CacheMemory → Prop}
    (w : CachedStore κ) {s : Traffic κ ListRequest ListResult}
    (hcollection : s.collection = w.collection) (hcache : s.cache = w.cache) {i : Nat}
    (hi : s.reads i = .waiting) {request : ListRequest} (hmode : modes request.mode) :
    let run := ((CachedStore.repository p settings timestamps).getAll request).runOn w
    ∃ t, TrafficRun p (.lists p.keys settings modes) Holds s t ∧
      t.collection = run.2.collection ∧ t.cache = run.2.cache ∧
      t.reads i = .finished request run.1 := by
  rw [Repository.getAll_eq]
  have hfind : ∀ cache : CacheState κ,
      ((CachedStore.repository p settings timestamps).readList request.mode).runOn
          { w with cache } =
        (w.collection.listed settings request.mode, { w with cache }) := fun cache =>
    Repository.runOn_readList CachedStore.collectionPart CachedStore.idsPart _ rfl request.mode _
  exact exists_readThrough (.lists p.keys settings modes) w hcollection hcache hi request hmode
    hfind

end Quire
