import Quire.Cache.Plugin

/-!
# Calls of a cache

What the caching of a collection asks of its adapter: the adapter states that calls leave behind,
and the run of each operation on the cache in terms of them. Counters aside, nothing else changes.
-/
namespace Quire

section Runs

variable {σ τ α : Type}

theorem Part.runOn_lift (part : Part σ τ) (a : Action τ α) (s : σ) :
    (part.lift a).runOn s = ((a.runOn (part.get s)).1, part.set (a.runOn (part.get s)).2 s) := rfl

/-- The first action of two succeeds. -/
theorem Action.runOn_bind_of_ok {β : Type} {a : Action σ α} {s t : σ} {x : α}
    (h : a.runOn s = (.ok x, t)) (k : α → Action σ β) : (a >>= k).runOn s = (k x).runOn t := by
  rw [Action.runOn_bind, h]

/-- The first action of two fails. -/
theorem Action.runOn_bind_of_error {β : Type} {a : Action σ α} {s t : σ} {f : Fault}
    (h : a.runOn s = (.error f, t)) (k : α → Action σ β) :
    (a >>= k).runOn s = (.error f, t) := by
  rw [Action.runOn_bind, h]

end Runs

namespace CacheAdapter

variable {κ α : Type} (a : CacheAdapter κ)

/-- The text with which a key is answered. A failing call answers with none. -/
def reply (key : String) (k : κ) : Option String :=
  match ((a.get key).runOn k).1 with
  | .ok text => text
  | .error _ => none

def afterGet (key : String) (k : κ) : κ := ((a.get key).runOn k).2

def afterSet (key text : String) (ttl : Nat) (k : κ) : κ := ((a.set key text ttl).runOn k).2

def afterDelete (key : String) (k : κ) : κ := ((a.delete key).runOn k).2

def afterClear (pattern : String) (k : κ) : κ := ((a.clear pattern).runOn k).2

theorem runOn_fetch (read : String → Option α) (key : String) (k : κ) :
    ((a.fetch read key).runOn k).2 = a.afterGet key k ∧
      (((a.fetch read key).runOn k).1 = .ok ((a.reply key k).bind read) ∨
        (a.reply key k).bind read = none ∧ ∃ f, ((a.fetch read key).runOn k).1 = .error f) := by
  rw [fetch, reply, afterGet]
  rcases h : (a.get key).runOn k with ⟨out, t⟩
  rcases out with f | _ | text
  · rw [Action.runOn_bind_of_error h]
    exact ⟨rfl, Or.inr ⟨rfl, f, rfl⟩⟩
  · rw [Action.runOn_bind_of_ok h]
    exact ⟨rfl, Or.inl rfl⟩
  · rw [Action.runOn_bind_of_ok h]
    cases hread : read text with
    | some x => exact ⟨by simp [hread], Or.inl (by simp [hread])⟩
    | none => exact ⟨by simp [hread], Or.inr ⟨hread, _, by simp only [hread]; rfl⟩⟩

end CacheAdapter

namespace CachePlugin

open CacheState

variable {κ α : Type} (p : CachePlugin κ)

theorem runOn_call (a : Action κ α) (s : CacheState κ) :
    (call a).runOn s =
      (.ok (a.runOn s.adapter).1, { s with adapter := (a.runOn s.adapter).2 }) := rfl

theorem runOn_lookup (read : String → Option α) (key : String) (s : CacheState κ) :
    ∃ stats, (p.lookup read key).runOn s =
      (.ok ((p.adapter.reply key s.adapter).bind read),
        { s with stats, adapter := p.adapter.afterGet key s.adapter }) := by
  obtain ⟨hstate, hout⟩ := p.adapter.runOn_fetch read key s.adapter
  rw [lookup, Action.runOn_bind_of_ok (runOn_call _ s), hstate]
  rcases hout with hout | ⟨hnone, f, hout⟩
  · rw [hout]
    cases (p.adapter.reply key s.adapter).bind read with
    | none => exact ⟨_, rfl⟩
    | some x => exact ⟨_, rfl⟩
  · rw [hout, hnone]
    exact ⟨_, rfl⟩

theorem runOn_keep (key : String) (v : Value) (ttl : Nat) (s : CacheState κ) :
    ∃ stats, (p.keep key v ttl).runOn s =
      (.ok (), { s with stats, adapter := p.adapter.afterSet key v.text ttl s.adapter }) := by
  rw [keep, Action.runOn_bind_of_ok (runOn_call _ s), CacheAdapter.afterSet]
  cases ((p.adapter.set key v.text ttl).runOn s.adapter).1 with
  | ok _ => exact ⟨_, rfl⟩
  | error _ => exact ⟨_, rfl⟩

/-- The adapter after a version has been written. -/
def afterPersist (version : Nat) (k : κ) : κ :=
  p.adapter.afterSet p.keys.version (toString version) p.settings.versionTtl k

theorem runOn_persist (version : Nat) (s : CacheState κ) :
    ∃ stats, (p.persist version).runOn s =
      (.ok (), { s with stats, adapter := p.afterPersist version s.adapter }) := by
  rw [persist, Action.runOn_bind_of_ok (runOn_call _ s), afterPersist, CacheAdapter.afterSet]
  cases ((p.adapter.set p.keys.version (toString version) p.settings.versionTtl).runOn
      s.adapter).1 with
  | ok _ => exact ⟨_, rfl⟩
  | error _ => exact ⟨_, rfl⟩

theorem runOn_bump (s : CacheState κ) :
    ∃ stats, p.bump.runOn s =
      (.ok (ListVersion.next s.version.current), ⟨⟨ListVersion.next s.version.current⟩, stats,
        p.afterPersist (ListVersion.next s.version.current) s.adapter⟩) := by
  let raised : CacheState κ :=
    { s with
      version := ⟨ListVersion.next s.version.current⟩
      stats := s.stats.record (.invalidation "version") }
  obtain ⟨stats, hpersist⟩ := p.runOn_persist (ListVersion.next s.version.current) raised
  refine ⟨stats, ?_⟩
  have hversion : (versionPart.lift (Action.ofStep ListVersion.bump)).runOn s =
      (.ok (ListVersion.next s.version.current),
        { s with version := ⟨ListVersion.next s.version.current⟩ }) := rfl
  have hrecord : (record (.invalidation "version")).runOn
      { s with version := ⟨ListVersion.next s.version.current⟩ } = (.ok (), raised) := rfl
  rw [bump, Action.runOn_bind_of_ok hversion, Action.runOn_bind_of_ok hrecord,
    Action.runOn_bind_of_ok hpersist]
  rfl

theorem runOn_dropById (id : DocumentId) (s : CacheState κ) :
    ∃ existed stats, (p.dropById id).runOn s =
      (.ok existed,
        { s with stats, adapter := p.adapter.afterDelete (p.keys.byId id) s.adapter }) := by
  rw [dropById, Action.runOn_bind_of_ok (runOn_call _ s), CacheAdapter.afterDelete]
  cases ((p.adapter.delete (p.keys.byId id)).runOn s.adapter).1 with
  | ok existed => exact ⟨existed, _, rfl⟩
  | error _ => exact ⟨false, _, rfl⟩

/-- The version that the cache holds, if it can be read. -/
def seen? (k : κ) : Option Nat := (p.adapter.reply p.keys.version k).bind versionOfText?

/-- A new plugin takes over the version that the cache holds, unless it is behind. -/
theorem runOn_bootstrap (s : CacheState κ) :
    ∃ n stats, p.bootstrap.runOn s =
      (.ok n, ⟨⟨max s.version.current ((p.seen? s.adapter).getD 0)⟩, stats,
        p.adapter.afterGet p.keys.version s.adapter⟩) := by
  rw [bootstrap, Action.runOn_bind_of_ok (runOn_call _ s), seen?, CacheAdapter.reply,
    CacheAdapter.afterGet]
  rcases ((p.adapter.get p.keys.version).runOn s.adapter).1 with f | _ | text
  · exact ⟨_, s.stats.record (.error "bootstrap"), by simp; rfl⟩
  · exact ⟨_, s.stats, by simp; rfl⟩
  · cases hversion : versionOfText? text with
    | none => exact ⟨_, s.stats, by simp [hversion]; rfl⟩
    | some seen =>
      refine ⟨max s.version.current seen, s.stats, ?_⟩
      simp only [hversion, Option.bind_some, Option.getD_some]
      rfl

/-- Where the adapter clears by pattern, the version is written again as it was. -/
theorem runOn_invalidateAll_of_cleared (hclear : p.adapter.supportsClear = true) {s : CacheState κ}
    {removed : Nat}
    (hout : ((p.adapter.clear p.keys.pattern).runOn s.adapter).1 = .ok removed) :
    ∃ stats, p.invalidateAll.runOn s =
      (.ok removed, { s with
        stats
        adapter := p.afterPersist s.version.current
          (p.adapter.afterClear p.keys.pattern s.adapter) }) := by
  let cleared : CacheState κ :=
    { s with adapter := p.adapter.afterClear p.keys.pattern s.adapter }
  let noted : CacheState κ := { cleared with stats := s.stats.record (.invalidation "clear") }
  have hcall : (call (p.adapter.clear p.keys.pattern)).runOn s = (.ok (.ok removed), cleared) := by
    rw [runOn_call, hout]
    rfl
  have hrecord : (record (.invalidation "clear")).runOn cleared = (.ok (), noted) := rfl
  have hversion : currentVersion.runOn noted = (.ok s.version.current, noted) := rfl
  obtain ⟨stats, h⟩ := p.runOn_persist s.version.current noted
  refine ⟨stats, ?_⟩
  rw [invalidateAll, hclear, if_pos rfl]
  rw [Action.runOn_bind_of_ok hcall]
  refine (Action.runOn_bind_of_ok hrecord _).trans ?_
  refine (Action.runOn_bind_of_ok hversion _).trans ?_
  exact (Action.runOn_bind_of_ok h _).trans rfl

/-- Clearing all entries leaves the version as it was where the adapter can clear, and raises it
otherwise. -/
theorem runOn_invalidateAll (s : CacheState κ) :
    ∃ n stats k version,
      (k = s.adapter ∨ k = p.adapter.afterClear p.keys.pattern s.adapter) ∧
      (version = s.version.current ∨ version = ListVersion.next s.version.current) ∧
      p.invalidateAll.runOn s = (.ok n, ⟨⟨version⟩, stats, p.afterPersist version k⟩) := by
  have hbump : ∀ t : CacheState κ, ∃ stats,
      (do let _ ← p.bump; pure 0 : Action (CacheState κ) Nat).runOn t =
        (.ok 0, ⟨⟨ListVersion.next t.version.current⟩, stats,
          p.afterPersist (ListVersion.next t.version.current) t.adapter⟩) := by
    intro t
    obtain ⟨stats, h⟩ := p.runOn_bump t
    exact ⟨stats, by rw [Action.runOn_bind_of_ok h]; rfl⟩
  rw [invalidateAll]
  cases hclear : p.adapter.supportsClear with
  | false =>
    obtain ⟨stats, h⟩ := hbump s
    exact ⟨0, stats, s.adapter, _, Or.inl rfl, Or.inr rfl, h⟩
  | true =>
    rw [if_pos rfl]
    let cleared : CacheState κ :=
      { s with adapter := p.adapter.afterClear p.keys.pattern s.adapter }
    have hcall : (call (p.adapter.clear p.keys.pattern)).runOn s =
        (.ok ((p.adapter.clear p.keys.pattern).runOn s.adapter).1, cleared) := rfl
    rcases hout : ((p.adapter.clear p.keys.pattern).runOn s.adapter).1 with f | removed
    · rw [hout] at hcall
      let failed : CacheState κ := { cleared with stats := s.stats.record (.error "clear") }
      have hrecord : (record (.error "clear")).runOn cleared = (.ok (), failed) := rfl
      obtain ⟨stats, h⟩ := hbump failed
      refine ⟨0, stats, cleared.adapter, _, Or.inr rfl, Or.inr rfl, ?_⟩
      rw [Action.runOn_bind_of_ok hcall]
      exact (Action.runOn_bind_of_ok hrecord _).trans h
    · obtain ⟨stats, h⟩ := p.runOn_invalidateAll_of_cleared hclear hout
      rw [invalidateAll, hclear, if_pos rfl] at h
      exact ⟨removed, stats, cleared.adapter, _, Or.inr rfl, Or.inl rfl, h⟩

end CachePlugin

/-! ## The hook -/

/-- The context of a read that has looked for its result under a key. -/
def HookContext.noted (key : String) (found : Option HookResult) (c : HookContext) : HookContext :=
  { (found.elim c fun r => c.serve r) with cacheKey := some key }

namespace CachePlugin

open CacheState

variable {κ α : Type} (p : CachePlugin κ)

/-- Where a read looks for its result: a key, and how the text there is read. -/
def source? (c : HookContext) (version : Nat) :
    BeforeEvent → Option (String × (String → Option HookResult))
  | .getById id o =>
    if c.skipCache || o.isShaped then none else some (p.keys.byId id, readDocument?)
  | .getByQuery f o => if c.skipCache then none else some (p.keys.byQuery f o, readDocument?)
  | .getAll r =>
    if c.skipCache || p.exceedsLimit r then none
    else some (p.keys.list version r.mode, readList?)
  | _ => none

section Source

variable {p} {c : HookContext} {version : Nat} {key : String} {read : String → Option HookResult}

/-- A read by identifier that looks into the cache is not shaped. -/
theorem eq_of_source?_getById {id : DocumentId} {o : ReadOptions}
    (h : p.source? c version (.getById id o) = some (key, read)) :
    o.isShaped = false ∧ key = p.keys.byId id ∧ read = readDocument? := by
  rw [source?] at h
  split at h
  · cases h
  · next hasks =>
    cases h
    rw [Bool.not_eq_true, Bool.or_eq_false_iff] at hasks
    exact ⟨hasks.2, rfl, rfl⟩

theorem eq_of_source?_getByQuery {f : Filter} {o : ReadOptions}
    (h : p.source? c version (.getByQuery f o) = some (key, read)) :
    key = p.keys.byQuery f o ∧ read = readDocument? := by
  rw [source?] at h
  split at h
  · cases h
  · cases h
    exact ⟨rfl, rfl⟩

theorem eq_of_source?_getAll {request : ListRequest}
    (h : p.source? c version (.getAll request) = some (key, read)) :
    key = p.keys.list version request.mode ∧ read = readList? := by
  rw [source?] at h
  split at h
  · cases h
  · cases h
    exact ⟨rfl, rfl⟩

end Source

section After

variable {p} (henabled : p.settings.enabled = true)

include henabled

theorem after_getById (id : DocumentId) (o : ReadOptions) (x : Option Document) :
    p.after (.getById id o x) = p.keepResult (x.map .obj) p.settings.byIdTtl := by
  rw [after, henabled]
  rfl

theorem after_getByQuery (f : Filter) (o : ReadOptions) (x : Option Document) :
    p.after (.getByQuery f o x) = p.keepResult (x.map .obj) p.settings.queryTtl := by
  rw [after, henabled]
  rfl

theorem after_getAll (request : ListRequest) (x : ListResult) :
    p.after (.getAll request x) = p.keepResult (some x.toValue) p.settings.listTtl := by
  rw [after, henabled]
  rfl

end After

theorem runOn_onCache (a : Action (CacheState κ) α) (c : HookContext) (s : CacheState κ) :
    (onCache a).runOn (c, s) = ((a.runOn s).1, c, (a.runOn s).2) := rfl

theorem runOn_serveFrom (read : String → Option HookResult) (key : String) (c : HookContext)
    (s : CacheState κ) :
    ∃ stats, (p.serveFrom read key).runOn (c, s) =
      (.ok (), c.noted key ((p.adapter.reply key s.adapter).bind read),
        { s with stats, adapter := p.adapter.afterGet key s.adapter }) := by
  obtain ⟨stats, h⟩ := p.runOn_lookup read key s
  refine ⟨stats, ?_⟩
  have hcache := runOn_onCache (p.lookup read key) c s
  rw [h] at hcache
  rw [serveFrom, Action.runOn_bind_of_ok hcache]
  cases (p.adapter.reply key s.adapter).bind read <;> rfl

/-- Before an operation the plugin does nothing but look where the operation looks for its
result. -/
theorem runOn_before_eq (henabled : p.settings.enabled = true) (e : BeforeEvent) (c : HookContext)
    (s : CacheState κ) :
    (p.before e).runOn (c, s) =
      match p.source? c s.version.current e with
      | none => (.ok (), c, s)
      | some (key, read) => (p.serveFrom read key).runOn (c, s) := by
  have hcontext : context.runOn (c, s) = (.ok c, c, s) := rfl
  have hgate : ∀ a : Action (HookContext × CacheState κ) Unit,
      (do if !p.settings.enabled || (← context).skipCache then pure () else a).runOn (c, s) =
        if c.skipCache then (.ok (), c, s) else a.runOn (c, s) := by
    intro a
    rw [henabled, Action.runOn_bind_of_ok hcontext]
    cases c.skipCache <;> rfl
  cases e with
  | getById id o =>
    refine (hgate (if o.isShaped then pure ()
      else p.serveFrom readDocument? (p.keys.byId id))).trans ?_
    rw [source?]
    cases c.skipCache <;> cases o.isShaped <;> rfl
  | getByQuery f o =>
    refine (hgate (p.serveFrom readDocument? (p.keys.byQuery f o))).trans ?_
    rw [source?]
    cases c.skipCache <;> rfl
  | getAll r =>
    refine (hgate (if p.exceedsLimit r then pure ()
      else do
        let version ← onCache currentVersion
        p.serveFrom readList? (p.keys.list version r.mode))).trans ?_
    rw [source?]
    cases c.skipCache <;> cases p.exceedsLimit r <;> rfl
  | _ =>
    refine (hgate _).trans ?_
    cases c.skipCache <;> rfl

/-- Before an operation the cache is asked where the operation looks for its result, and nothing
else happens. -/
theorem runOn_before (henabled : p.settings.enabled = true) (e : BeforeEvent) (c : HookContext)
    (s : CacheState κ) :
    match p.source? c s.version.current e with
    | none => (p.before e).runOn (c, s) = (.ok (), c, s)
    | some (key, read) =>
      ∃ stats, (p.before e).runOn (c, s) =
        (.ok (), c.noted key ((p.adapter.reply key s.adapter).bind read),
          { s with stats, adapter := p.adapter.afterGet key s.adapter }) := by
  rw [p.runOn_before_eq henabled]
  cases p.source? c s.version.current e with
  | none => rfl
  | some source => exact p.runOn_serveFrom source.2 source.1 c s

section Disabled

variable {p} (hdisabled : p.settings.enabled = false)

include hdisabled

/-- A plugin that is switched off does nothing before an operation. -/
theorem runOn_before_of_disabled (e : BeforeEvent) (c : HookContext) (s : CacheState κ) :
    (p.before e).runOn (c, s) = (.ok (), c, s) := by
  have hcontext : context.runOn (c, s) = (.ok c, c, s) := rfl
  rw [before.eq_def, hdisabled, Action.runOn_bind_of_ok hcontext]
  rfl

theorem runOn_after_of_disabled (e : AfterEvent) (c : HookContext) (s : CacheState κ) :
    (p.after e).runOn (c, s) = (.ok (), c, s) := by
  rw [after.eq_def, hdisabled]
  rfl

end Disabled

/-- A result that was served, that has no key or that is missing is not kept. -/
theorem runOn_keepResult_of_not_kept {v : Option Value} {c : HookContext}
    (h : c.servedFromCache = true ∨ c.cacheKey = none ∨ v = none) (ttl : Nat) (s : CacheState κ) :
    (p.keepResult v ttl).runOn (c, s) = (.ok (), c, s) := by
  have hcontext : context.runOn (c, s) = (.ok c, c, s) := rfl
  rw [keepResult, Action.runOn_bind_of_ok hcontext]
  cases hserved : c.servedFromCache with
  | true => rfl
  | false =>
    rcases h with h | h | h
    · rw [h] at hserved
      cases hserved
    · rw [h]
      rfl
    · rw [h]
      cases c.cacheKey <;> rfl

/-- A result is kept where the read has looked in vain. -/
theorem runOn_keepResult {c : HookContext} {key : String} (hserved : c.servedFromCache = false)
    (hkey : c.cacheKey = some key) (v : Value) (ttl : Nat) (s : CacheState κ) :
    ∃ stats, (p.keepResult (some v) ttl).runOn (c, s) =
      (.ok (), c, { s with stats, adapter := p.adapter.afterSet key v.text ttl s.adapter }) := by
  obtain ⟨stats, h⟩ := p.runOn_keep key v ttl s
  refine ⟨stats, ?_⟩
  have hcontext : context.runOn (c, s) = (.ok c, c, s) := rfl
  have hkeep := runOn_onCache (p.keep key v ttl) c s
  rw [h] at hkeep
  rw [keepResult, Action.runOn_bind_of_ok hcontext, hserved, hkey]
  exact hkeep

/-- Whether a result is kept or not, the read goes on. -/
theorem exists_runOn_keepResult (v : Option Value) (ttl : Nat) (c : HookContext)
    (s : CacheState κ) : ∃ t, (p.keepResult v ttl).runOn (c, s) = (.ok (), c, t) := by
  by_cases hskipped : c.servedFromCache = true ∨ c.cacheKey = none ∨ v = none
  · exact ⟨s, p.runOn_keepResult_of_not_kept hskipped ttl s⟩
  · simp only [not_or, Bool.not_eq_true, ← ne_eq, Option.ne_none_iff_exists'] at hskipped
    obtain ⟨hserved, ⟨key, hkey⟩, v, rfl⟩ := hskipped
    obtain ⟨stats, hkeep⟩ := p.runOn_keepResult hserved hkey v ttl s
    exact ⟨_, hkeep⟩

/-- The adapter after the entry has been dropped that a write makes stale. -/
def afterWrite (e : AfterEvent) (k : κ) : κ :=
  match e with
  | .update id _ | .delete id _ => p.adapter.afterDelete (p.keys.byId id) k
  | _ => k

/-- After a write the entry that it makes stale is dropped, and the version is raised. -/
theorem runOn_after_of_write (henabled : p.settings.enabled = true) {e : AfterEvent}
    (he : e.operation.isRead = false) (c : HookContext) (s : CacheState κ) :
    ∃ stats, (p.after e).runOn (c, s) =
      (.ok (), c, ⟨⟨ListVersion.next s.version.current⟩, stats,
        p.afterPersist (ListVersion.next s.version.current) (p.afterWrite e s.adapter)⟩) := by
  have hbump : ∀ t : CacheState κ, ∃ stats,
      (do let _ ← onCache p.bump; pure () : Action (HookContext × CacheState κ) Unit).runOn (c, t) =
        (.ok (), c, ⟨⟨ListVersion.next t.version.current⟩, stats,
          p.afterPersist (ListVersion.next t.version.current) t.adapter⟩) := by
    intro t
    obtain ⟨stats, h⟩ := p.runOn_bump t
    refine ⟨stats, ?_⟩
    have hcache := runOn_onCache p.bump c t
    rw [h] at hcache
    rw [Action.runOn_bind_of_ok hcache]
    rfl
  have hdrop : ∀ id : DocumentId, ∃ stats,
      (do
        let _ ← onCache (p.dropById id)
        let _ ← onCache p.bump
        pure () : Action (HookContext × CacheState κ) Unit).runOn (c, s) =
        (.ok (), c, ⟨⟨ListVersion.next s.version.current⟩, stats,
          p.afterPersist (ListVersion.next s.version.current)
            (p.adapter.afterDelete (p.keys.byId id) s.adapter)⟩) := by
    intro id
    obtain ⟨existed, dropped, h⟩ := p.runOn_dropById id s
    obtain ⟨stats, hrest⟩ := hbump
      { s with stats := dropped, adapter := p.adapter.afterDelete (p.keys.byId id) s.adapter }
    refine ⟨stats, ?_⟩
    have hcache := runOn_onCache (p.dropById id) c s
    rw [h] at hcache
    rw [Action.runOn_bind_of_ok hcache]
    exact hrest
  cases e with
  | getById | getByQuery | getAll => cases he
  | update id result =>
    rw [after, henabled]
    exact hdrop id
  | delete id deleted =>
    rw [after, henabled]
    exact hdrop id
  | create | createMany | updateMany | deleteMany =>
    rw [after, henabled]
    exact hbump s

end CachePlugin
end Quire
