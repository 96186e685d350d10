import Quire.Proofs.CacheCounters
import Quire.Proofs.CachedRuns
import Quire.Proofs.PagingFaults

/-!
# Caching does no harm

Whatever an adapter does, a repository with caching changes its store as one without, and its calls
end as there, except that a read may return what the cache has. An adapter that fails at every call
makes no difference to any result, and a plugin that is switched off none to the cache either.
-/
namespace Quire

/-- A collection with what a repository needs besides it. -/
structure PlainStore where
  collection : Collection
  ids : IdSource
  clock : Clock

/-- The parts of a plain store. -/
def PlainStore.parts : StoreParts PlainStore where
  collection := ⟨(·.collection), fun c u => { u with collection := c }⟩
  ids := ⟨(·.ids), fun ids u => { u with ids }⟩
  clock := ⟨(·.clock), fun clock u => { u with clock }⟩

namespace CachedStore

variable {κ : Type}

/-- The store without its cache. -/
def store (w : CachedStore κ) : PlainStore := ⟨w.collection, w.ids, w.clock⟩

/-- The parts of a cached store. -/
def parts : StoreParts (CachedStore κ) := ⟨collectionPart, idsPart, clockPart⟩

theorem repository_eq (p : CachePlugin κ) (settings : PagingSettings) (timestamps : Bool) :
    repository p settings timestamps =
      parts.repository p.keys.collection settings timestamps [p.hook cachePart] := rfl

/-- A cached store over a plain one, with a condition on the cache. -/
def Over (P : CacheState κ → Prop) (w : CachedStore κ) (u : PlainStore) : Prop :=
  w.store = u ∧ P w.cache

theorem parts_alike (P : CacheState κ → Prop) : parts.Alike (Over P) PlainStore.parts where
  collection :=
    ⟨fun _ _ h => congrArg PlainStore.collection h.1,
      fun _ _ c h => ⟨congrArg (fun u : PlainStore => { u with collection := c }) h.1, h.2⟩⟩
  ids :=
    ⟨fun _ _ h => congrArg PlainStore.ids h.1,
      fun _ _ ids h => ⟨congrArg (fun u : PlainStore => { u with ids }) h.1, h.2⟩⟩
  clock :=
    ⟨fun _ _ h => congrArg PlainStore.clock h.1,
      fun _ _ clock h => ⟨congrArg (fun u : PlainStore => { u with clock }) h.1, h.2⟩⟩

end CachedStore

/-! ## The plugin as a hook -/

/-- An announcement to a hook over a part of the state changes the context and that part alone. -/
theorem Part.runOn_lift_beside {σ υ α : Type} {part : Part σ υ} {a : Action (HookContext × υ) α}
    {c c' : HookContext} {s : σ} {out : Except Fault α} {t : υ}
    (h : a.runOn (c, part.get s) = (out, c', t)) :
    ((Part.fst.pair (Part.snd.comp part)).lift a).runOn (c, s) = (out, c', part.set t s) := by
  have hlift : ((Part.fst.pair (Part.snd.comp part)).lift a).runOn (c, s) =
      ((a.runOn (c, part.get s)).1, (a.runOn (c, part.get s)).2.1,
        part.set (a.runOn (c, part.get s)).2.2 s) := rfl
  rw [hlift, h]

namespace CachePlugin

open CacheState

variable {κ : Type} (p : CachePlugin κ)

/-- Before an operation the plugin does not fail. It has no result for reads past the cache, and
none at all if the adapter has no replies. -/
theorem exists_runOn_before (e : BeforeEvent) (c : HookContext) (s : CacheState κ) :
    ∃ c' s', (p.before e).runOn (c, s) = (.ok (), c', s') ∧ c'.skipCache = c.skipCache ∧
      (c.skipCache = true ∨ (∀ key k, p.adapter.reply key k = none) → c'.served = c.served) := by
  cases henabled : p.settings.enabled with
  | false => exact ⟨c, s, runOn_before_of_disabled henabled e c s, rfl, fun _ => rfl⟩
  | true =>
    have h := p.runOn_before henabled e c s
    cases hsource : p.source? c s.version.current e with
    | none =>
      rw [hsource] at h
      exact ⟨c, s, h, rfl, fun _ => rfl⟩
    | some source =>
      rw [hsource] at h
      obtain ⟨stats, h⟩ := h
      refine ⟨_, _, h, ?_, ?_⟩
      · cases (p.adapter.reply source.1 s.adapter).bind source.2 <;> rfl
      · rintro (hskip | hnone)
        · cases e <;> simp [source?, hskip] at hsource
        · rw [hnone]
          rfl

/-- After an operation the plugin does not fail. -/
theorem exists_runOn_after (e : AfterEvent) (c : HookContext) (s : CacheState κ) :
    ∃ s', (p.after e).runOn (c, s) = (.ok (), c, s') := by
  cases henabled : p.settings.enabled with
  | false => exact ⟨s, runOn_after_of_disabled henabled e c s⟩
  | true =>
    by_cases hread : e.operation.isRead = true
    · cases e with
      | getById | getByQuery | getAll =>
        rw [after, henabled]
        exact p.exists_runOn_keepResult _ _ c s
      | _ => cases hread
    · obtain ⟨stats, h⟩ := p.runOn_after_of_write henabled (Bool.not_eq_true _ ▸ hread) c s
      exact ⟨_, h⟩

/-- Whatever the adapter does, the plugin is harmless. -/
theorem hook_harmless : (p.hook CachedStore.cachePart).Harmless (CachedStore.Over fun _ => True)
    False where
  before e c w u h := by
    obtain ⟨c', s', hrun, hskip, hserved⟩ := p.exists_runOn_before e c w.cache
    exact ⟨c', _, Part.runOn_lift_beside hrun, ⟨h.1, trivial⟩, hskip,
      fun hquiet => hserved (Or.inl (hquiet.resolve_right id))⟩
  after e c w u h := by
    obtain ⟨s', hrun⟩ := p.exists_runOn_after e c w.cache
    exact ⟨c, _, Part.runOn_lift_beside hrun, h.1, trivial⟩

/-- A plugin that is switched off leaves the cache as it is. -/
theorem hook_harmless_of_disabled {p : CachePlugin κ} (hdisabled : p.settings.enabled = false)
    (s : CacheState κ) :
    (p.hook CachedStore.cachePart).Harmless (CachedStore.Over (· = s)) True where
  before e c w _ h :=
    ⟨c, w, Part.runOn_lift_beside (runOn_before_of_disabled hdisabled e c w.cache), h, rfl,
      fun _ => rfl⟩
  after e c w _ h :=
    ⟨c, w, Part.runOn_lift_beside (runOn_after_of_disabled hdisabled e c w.cache), h⟩

end CachePlugin

/-! ## Adapters that fail -/

/-- An adapter whose every call fails. -/
structure CacheAdapter.Fails {κ : Type} (a : CacheAdapter κ) : Prop where
  get : ∀ key k, ∃ f, ((a.get key).runOn k).1 = .error f
  set : ∀ key text ttl k, ∃ f, ((a.set key text ttl).runOn k).1 = .error f
  delete : ∀ key k, ∃ f, ((a.delete key).runOn k).1 = .error f
  clear : ∀ pattern k, ∃ f, ((a.clear pattern).runOn k).1 = .error f

/-- The counters show that nothing was served and nothing was kept. -/
def CacheState.Unused {κ : Type} (s : CacheState κ) : Prop := s.stats.hits = 0 ∧ s.stats.sets = 0

/-- What counts only misses and moves only the version leaves a cache unused. -/
theorem CacheState.preserves_unused {κ α : Type} {a : Action (CacheState κ) α}
    (h : ∀ n, a.Ensures (At n) fun _ s => ∃ misses version, At { n with misses, version } s) :
    a.Preserves Unused := by
  intro s hs
  obtain ⟨misses, version, hat⟩ := h s.counters s rfl
  exact ⟨(congrArg CacheCounters.hits hat).trans hs.1, (congrArg CacheCounters.sets hat).trans hs.2⟩

namespace CachePlugin

open CacheState Quire.Action

variable {κ α : Type} {p : CachePlugin κ}

theorem preserves_bump : p.bump.Preserves Unused :=
  preserves_unused fun _ => p.bump_ensures.mono fun _ _ hs => ⟨_, _, hs⟩

theorem preserves_dropById (id : DocumentId) : (p.dropById id).Preserves Unused :=
  preserves_unused fun n => (p.dropById_ensures id).mono fun _ _ hs => ⟨n.misses, n.version, hs⟩

theorem preserves_bootstrap : p.bootstrap.Preserves Unused :=
  preserves_unused fun n =>
    p.bootstrap_ensures.mono fun _ _ ⟨version, hs⟩ => ⟨n.misses, version, hs⟩

theorem preserves_invalidateAll : p.invalidateAll.Preserves Unused := by
  refine preserves_unused fun n s hs => ?_
  have hcounted := p.invalidateAll_ensures s ⟨hs, rfl⟩
  cases hcleared : p.clears s.adapter with
  | true =>
    rw [hcleared] at hcounted
    exact ⟨n.misses, n.version, hcounted⟩
  | false =>
    rw [hcleared] at hcounted
    exact ⟨_, _, hcounted⟩

theorem preserves_onCache {a : Action (CacheState κ) α} (ha : a.Preserves Unused) :
    (onCache a).Preserves fun x => x.2.Unused := fun x hx => ha x.2 hx

theorem preserves_context :
    (context : Action (HookContext × CacheState κ) HookContext).Preserves fun x => x.2.Unused :=
  fun _ hx => hx

section Fails

variable (h : p.adapter.Fails)

include h

theorem reply_of_fails (key : String) (k : κ) : p.adapter.reply key k = none := by
  obtain ⟨f, hf⟩ := h.get key k
  rw [CacheAdapter.reply, hf]

theorem preserves_lookup_of_fails (read : String → Option α) (key : String) :
    (p.lookup read key).Preserves Unused := by
  refine preserves_unused fun n s hs => ?_
  have hlooked := p.lookup_ensures read key s hs
  obtain ⟨stats, hlookup⟩ := p.runOn_lookup read key s
  rw [reply_of_fails h] at hlookup
  rw [hlookup] at hlooked ⊢
  exact ⟨_, _, hlooked⟩

theorem preserves_keep_of_fails (key : String) (v : Value) (ttl : Nat) :
    (p.keep key v ttl).Preserves Unused := by
  refine preserves_unused fun n s hs => ?_
  obtain ⟨f, hf⟩ := h.set key v.text ttl s.adapter
  rw [keep, Action.runOn_bind_of_ok (runOn_call _ s), hf]
  exact ⟨n.misses, n.version, record_ensures (.error "set") _ hs⟩

theorem preserves_serveFrom_of_fails (read : String → Option HookResult) (key : String) :
    (p.serveFrom read key).Preserves fun x => x.2.Unused := by
  have hchange : ∀ f, (changeContext f : Action (HookContext × CacheState κ) Unit).Preserves
      fun x => x.2.Unused := fun _ _ hx => hx
  have hnoted := hchange fun c => { c with cacheKey := some key }
  refine (preserves_onCache (preserves_lookup_of_fails h read key)).bind fun found => ?_
  cases found with
  | none => exact (preserves_pure ()).bind fun _ => hnoted
  | some r => exact (hchange fun c => c.serve r).bind fun _ => hnoted

theorem preserves_before_of_fails (e : BeforeEvent) :
    (p.before e).Preserves fun x => x.2.Unused := by
  rw [before.eq_def]
  refine preserves_context.bind fun c => ?_
  split
  · exact preserves_pure _
  · split
    · split
      · exact preserves_pure _
      · exact preserves_serveFrom_of_fails h _ _
    · exact preserves_serveFrom_of_fails h _ _
    · split
      · exact preserves_pure _
      · exact Preserves.bind (fun _ hx => hx) fun version => preserves_serveFrom_of_fails h _ _
    · exact preserves_pure _

theorem preserves_keepResult_of_fails (v : Option Value) (ttl : Nat) :
    (p.keepResult v ttl).Preserves fun x => x.2.Unused := by
  refine preserves_context.bind fun c => ?_
  split
  · exact preserves_pure _
  · split
    · exact preserves_onCache (preserves_keep_of_fails h _ _ _)
    · exact preserves_pure _

theorem preserves_after_of_fails (e : AfterEvent) :
    (p.after e).Preserves fun x => x.2.Unused := by
  have hbump : (onCache p.bump >>= fun _ => pure () :
      Action (HookContext × CacheState κ) Unit).Preserves fun x => x.2.Unused :=
    (preserves_onCache preserves_bump).bind fun _ => preserves_pure _
  rw [after.eq_def]
  split
  · exact preserves_pure _
  · cases e with
    | getById | getByQuery | getAll => exact preserves_keepResult_of_fails h _ _
    | create | createMany | updateMany | deleteMany => exact hbump
    | update | delete => exact (preserves_onCache (preserves_dropById _)).bind fun _ => hbump

/-- Where the adapter fails at every call, the plugin is silent, and nothing is served or kept. -/
theorem hook_harmless_of_fails :
    (p.hook CachedStore.cachePart).Harmless (CachedStore.Over Unused) True where
  before e c w u hw := by
    obtain ⟨c', s', hrun, hskip, hserved⟩ := p.exists_runOn_before e c w.cache
    have hunused := preserves_before_of_fails h e (c, w.cache) hw.2
    rw [hrun] at hunused
    exact ⟨c', _, Part.runOn_lift_beside hrun, ⟨hw.1, hunused⟩, hskip,
      fun _ => hserved (Or.inr (reply_of_fails h))⟩
  after e c w u hw := by
    obtain ⟨s', hrun⟩ := p.exists_runOn_after e c w.cache
    have hunused := preserves_after_of_fails h e (c, w.cache) hw.2
    rw [hrun] at hunused
    exact ⟨c, _, Part.runOn_lift_beside hrun, hw.1, hunused⟩

end Fails

end CachePlugin

/-! ## Runs -/

/-- What a caller does with a cached repository: a call, or an invalidation by hand. -/
inductive CacheTurn where
  | call (c : Call)
  | invalidate (id : DocumentId)
  | invalidateLists
  | invalidateAll

namespace CacheTurn

open CachedStore

variable {κ : Type}

/-- Carries a turn out, where the cache is a part of the state. An invalidation has no answer. -/
def run {σ : Type} (p : CachePlugin κ) (part : Part σ (CacheState κ)) (r : Repository σ) :
    CacheTurn → Action σ (Option Answer)
  | .call c => some <$> c.run r
  | .invalidate id => (fun _ => none) <$> part.lift (p.invalidate id)
  | .invalidateLists => (fun _ => none) <$> part.lift p.invalidateLists
  | .invalidateAll => (fun _ => none) <$> part.lift p.invalidateAll

/-- The turn without a cache, where there is nothing to invalidate. -/
def plain (q : Repository PlainStore) : CacheTurn → Action PlainStore (Option Answer)
  | .call c => some <$> c.run q
  | _ => pure none

/-- Whether the cache may serve the turn. -/
def mayBeServed : CacheTurn → Bool
  | .call c => c.mayBeServed
  | _ => false

/-- What the cache must not do to a turn: it gives a result of its own only where it may, and a
fault never. -/
structure Unharmed (turn : CacheTurn) (cached plain : Except Fault (Option Answer)) : Prop where
  same : turn.mayBeServed = false → cached = plain
  fault : ∀ f, cached = .error f → plain = .error f

variable {P : CacheState κ → Prop} {silent : Prop} {p : CachePlugin κ}

theorem Unharmed.of_follows {turn : CacheTurn} {a : Action (CachedStore κ) (Option Answer)}
    {b : Action PlainStore (Option Answer)} {R : CachedStore κ → PlainStore → Prop}
    (h : a.Follows R (fun _ => turn.mayBeServed = true ∧ ¬ silent) b) {w : CachedStore κ}
    {u : PlainStore} (hstores : R w u) : turn.Unharmed (a.runOn w).1 (b.runOn u).1 := by
  rcases (h w u hstores).2 with hsame | ⟨x, hx, hserved, -⟩
  · exact ⟨fun _ => hsame, fun f hf => hsame.symm.trans hf⟩
  · refine ⟨fun hasks => ?_, fun f hf => ?_⟩
    · rw [hasks] at hserved
      cases hserved
    · rw [hx] at hf
      cases hf

/-- An invalidation cannot fail, and it leaves the store alone. -/
theorem invalidation_alike {α : Type} {a : Action (CacheState κ) α}
    (hok : ∀ s, ∃ x t, a.runOn s = (.ok x, t)) (hP : a.Preserves P) :
    ((fun _ => (none : Option Answer)) <$> cachePart.lift a).Alike (Over P) (pure none) := by
  intro w u hw
  obtain ⟨x, t, hrun⟩ := hok w.cache
  have ht := hP w.cache hw.2
  rw [hrun] at ht
  rw [Action.runOn_map, CachedOp.runOn_onCachePart hrun]
  exact ⟨⟨hw.1, ht⟩, Or.inl rfl⟩

theorem run_follows (hhook : (p.hook cachePart).Harmless (Over P) silent)
    (hdrop : ∀ id, (p.dropById id).Preserves P) (hbump : p.bump.Preserves P)
    (hclear : p.invalidateAll.Preserves P) (settings : PagingSettings) (timestamps : Bool)
    (turn : CacheTurn) :
    (turn.run p cachePart (repository p settings timestamps)).Follows (Over P)
      (fun _ => turn.mayBeServed = true ∧ ¬ silent)
      (turn.plain (PlainStore.parts.repository p.keys.collection settings timestamps [])) := by
  have hinvalidation : ∀ {a : Action (CachedStore κ) (Option Answer)},
      a.Alike (Over P) (pure none) →
      a.Follows (Over P) (fun _ => turn.mayBeServed = true ∧ ¬ silent) (pure none) :=
    fun ha => ha.mono fun _ hfalse => hfalse.elim
  cases turn with
  | call c =>
    rw [repository_eq]
    exact (StoreParts.run_follows (List.forall_mem_singleton.mpr hhook) _ settings timestamps
      (parts_alike P) c).map fun _ hown => hown
  | invalidate id =>
    refine hinvalidation (invalidation_alike (fun s => ?_) (hdrop id))
    obtain ⟨existed, stats, h⟩ := p.runOn_dropById id s
    exact ⟨_, _, h⟩
  | invalidateLists =>
    refine hinvalidation (invalidation_alike (fun s => ?_) hbump)
    obtain ⟨stats, h⟩ := p.runOn_bump s
    exact ⟨_, _, h⟩
  | invalidateAll =>
    refine hinvalidation (invalidation_alike (fun s => ?_) hclear)
    obtain ⟨n, stats, k, version, -, -, h⟩ := p.runOn_invalidateAll s
    exact ⟨_, _, h⟩

end CacheTurn

theorem Action.runOn_map_eq_error_iff {σ α β : Type} (g : α → β) (a : Action σ α) (s : σ)
    (f : Fault) : ((g <$> a).runOn s).1 = .error f ↔ (a.runOn s).1 = .error f := by
  rw [runOn_map]
  cases (a.runOn s).1 <;> simp [Except.map]

/-- The state after actions one after another, whether they fail or not. -/
def Action.afterAll {σ ι α : Type} (step : ι → Action σ α) (turns : List ι) (s : σ) : σ :=
  turns.foldl (fun s i => ((step i).runOn s).2) s

/-- Turns that follow each other one by one do so all together. -/
theorem Action.afterAll_related {σ τ ι α : Type} {R : σ → τ → Prop} {own : ι → α → Prop}
    {step : ι → Action σ α} {step' : ι → Action τ α}
    (h : ∀ i, (step i).Follows R (own i) (step' i)) (turns : List ι) {s : σ} {t : τ}
    (hst : R s t) : R (afterAll step turns s) (afterAll step' turns t) := by
  induction turns generalizing s t with
  | nil => exact hst
  | cons i turns ih => exact ih (h i s t hst).1

namespace CachedStore

open CacheState

variable {κ : Type} (p : CachePlugin κ) (settings : PagingSettings) (timestamps publish : Bool)
  (start : Nat) (k : κ)

/-- Caching starts over the store as it is, with nothing served or kept. -/
theorem over_attach (w : CachedStore κ) :
    Over Unused (attach p settings timestamps publish start k w) w.store := by
  have hunused := CachePlugin.preserves_bootstrap (p := p)
    (.start p.keys.collection publish start k) ⟨rfl, rfl⟩
  have hset : (Action.ofStep fun s : CachedStore κ =>
      ((), cachePart.set (.start p.keys.collection publish start k) s)).runOn w =
        (.ok (), { w with cache := .start p.keys.collection publish start k }) := rfl
  rcases hboot : p.bootstrap.runOn (.start p.keys.collection publish start k) with ⟨f | n, t⟩
  all_goals rw [hboot] at hunused
  · rw [attach, Repository.attachCache, Action.runOn_bind_of_ok hset,
      Action.runOn_bind_of_error (CachedOp.runOn_onCachePart hboot)]
    exact ⟨rfl, hunused⟩
  · rw [attach, Repository.attachCache, Action.runOn_bind_of_ok hset,
      Action.runOn_bind_of_ok (CachedOp.runOn_onCachePart hboot)]
    exact ⟨rfl, hunused⟩

end CachedStore
end Quire
