import Mathlib.Logic.Relation
import Quire.Proofs.HarmlessCaching

/-!
# What operations write into a cache

The calls of an adapter that one operation makes: a write drops the entry of its document first,
and after that texts are written only under the version key or under the key that a read has looked
at. Whatever is remembered afterwards was remembered before or was written meanwhile. An adapter
that loses nothing still has what was under all other keys.
-/
namespace Quire

/-! ## Calls one after another -/

namespace CacheAdapter

variable {κ : Type}

/-- One call of an adapter, which writes only what a condition on keys and texts allows. -/
inductive Step (a : CacheAdapter κ) (Writes : String → String → Prop) : κ → κ → Prop
  | get (k : κ) (key : String) : a.Step Writes k (a.afterGet key k)
  | set (k : κ) {key text : String} (hwrites : Writes key text) (ttl : Nat) :
      a.Step Writes k (a.afterSet key text ttl k)
  | delete (k : κ) (key : String) : a.Step Writes k (a.afterDelete key k)
  | clear (k : κ) (pattern : String) : a.Step Writes k (a.afterClear pattern k)

/-- A call that takes nothing away. -/
inductive Addition (a : CacheAdapter κ) (Writes : String → String → Prop) : κ → κ → Prop
  | get (k : κ) (key : String) : a.Addition Writes k (a.afterGet key k)
  | set (k : κ) {key text : String} (hwrites : Writes key text) (ttl : Nat) :
      a.Addition Writes k (a.afterSet key text ttl k)

/-- Any number of calls, one after another. -/
abbrev Steps (a : CacheAdapter κ) (Writes : String → String → Prop) : κ → κ → Prop :=
  Relation.ReflTransGen (a.Step Writes)

/-- Any number of calls that take nothing away. -/
abbrev Additions (a : CacheAdapter κ) (Writes : String → String → Prop) : κ → κ → Prop :=
  Relation.ReflTransGen (a.Addition Writes)

/-- An adapter that loses nothing: a call changes only what is under its own key. -/
structure Lossless (a : CacheAdapter κ) : Prop where
  get : ∀ key other k, a.reply other (a.afterGet key k) = a.reply other k
  set : ∀ key text ttl other k, other ≠ key →
    a.reply other (a.afterSet key text ttl k) = a.reply other k
  delete : ∀ key other k, other ≠ key → a.reply other (a.afterDelete key k) = a.reply other k

variable {a : CacheAdapter κ} {Holds : κ → CacheMemory → Prop} {Writes : String → String → Prop}

theorem Remembers.step (h : a.Remembers Holds) {k k' : κ} (hstep : a.Step Writes k k')
    {m : CacheMemory} (hk : Holds k m) :
    ∃ m', Holds k' m' ∧ ∀ key text, m' key = some text → m key = some text ∨ Writes key text := by
  cases hstep with
  | get key => exact ⟨m, h.get hk key, fun _ _ hget => Or.inl hget⟩
  | @set key text hwrites ttl =>
    rcases h.set hk key text ttl with hset | hset
    · exact ⟨m, hset, fun _ _ hget => Or.inl hget⟩
    · refine ⟨_, hset, fun key' text' hget => ?_⟩
      by_cases hkey : key' = key
      · subst hkey
        rw [Function.update_self] at hget
        cases hget
        exact Or.inr hwrites
      · rw [Function.update_of_ne hkey] at hget
        exact Or.inl hget
  | delete key => exact ⟨m, h.delete hk key, fun _ _ hget => Or.inl hget⟩
  | clear pattern => exact ⟨m, h.clear hk pattern, fun _ _ hget => Or.inl hget⟩

theorem Remembers.steps (h : a.Remembers Holds) {k k' : κ} (hsteps : a.Steps Writes k k')
    {m : CacheMemory} (hk : Holds k m) :
    ∃ m', Holds k' m' ∧ ∀ key text, m' key = some text → m key = some text ∨ Writes key text := by
  induction hsteps with
  | refl => exact ⟨m, hk, fun _ _ hget => Or.inl hget⟩
  | tail _ hstep ih =>
    obtain ⟨m₁, hk₁, hkept⟩ := ih
    obtain ⟨m₂, hk₂, hkept'⟩ := h.step hstep hk₁
    refine ⟨m₂, hk₂, fun key text hget => ?_⟩
    rcases hkept' key text hget with hbefore | hwrites
    · exact hkept key text hbefore
    · exact Or.inr hwrites

theorem Addition.step {k k' : κ} (h : a.Addition Writes k k') : a.Step Writes k k' := by
  cases h with
  | get key => exact .get k key
  | set hwrites ttl => exact .set k hwrites ttl

/-- What is under a key stays there while nothing is written under it. -/
theorem Lossless.reply_additions (h : a.Lossless) {k k' : κ} (hadded : a.Additions Writes k k')
    {key : String} (hkey : ∀ text, ¬ Writes key text) : a.reply key k' = a.reply key k := by
  induction hadded with
  | refl => rfl
  | tail _ hlast ih =>
    cases hlast with
    | get other => rw [h.get, ih]
    | @set other text hwrites ttl =>
      rw [h.set other text ttl key _ fun heq => hkey text (heq ▸ hwrites), ih]

end CacheAdapter

/-! ## Reads of one document -/

/-- A read of one document. -/
inductive SingleRead where
  | byId (id : DocumentId) (options : ReadOptions)
  | byQuery (filter : Filter) (options : ReadOptions)

namespace SingleRead

variable {σ κ : Type}

/-- Carries a read out. -/
def run (r : Repository σ) : SingleRead → Action σ (Option Document)
  | .byId id o => r.getById id o
  | .byQuery f o => r.getByQuery f o

/-- The key under which the result of a read is kept. -/
def key (keys : CacheKeys) : SingleRead → String
  | .byId id _ => keys.byId id
  | .byQuery f o => keys.byQuery f o

/-- What the store is asked for. -/
def query (settings : PagingSettings) : SingleRead → FindQuery
  | .byId id o => {
    filter := .byId settings.idField id, projection := o.projection, populate := o.populate }
  | .byQuery f o => { filter := f, projection := o.projection, populate := o.populate }

/-- Whether the read looks into the cache: it does not go past it, and by identifier it returns the
whole document. -/
def asksCache : SingleRead → Bool
  | .byId _ o => !(o.skipCache || o.isShaped)
  | .byQuery _ o => !o.skipCache

/-- The time to live of a kept result. -/
def ttl (settings : CacheSettings) : SingleRead → Nat
  | .byId _ _ => settings.byIdTtl
  | .byQuery _ _ => settings.queryTtl

variable (p : CachePlugin κ) (settings : PagingSettings) (timestamps : Bool)

/-- Where a read looks for its result. -/
def source? (q : SingleRead) : Option (String × (String → Option HookResult)) :=
  if q.asksCache then some (q.key p.keys, CachePlugin.readDocument?) else none

theorem run_outcome (henabled : p.settings.enabled = true) (q : SingleRead) (w : CachedStore κ) :
    CachedStore.ReadOutcome p w (q.source? p)
      (fun served => (Repository.servedDocument? served).map some)
      (.ok (w.collection.selectOne (q.query settings))) (Option.map .obj) (q.ttl p.settings)
      ((q.run (CachedStore.repository p settings timestamps)).runOn w) := by
  cases q with
  | byId id o =>
    have h := CachedStore.getById_outcome p settings timestamps henabled id o w
    rw [CachePlugin.source?] at h
    rw [source?, asksCache]
    cases hasks : o.skipCache || o.isShaped
    all_goals
      simp only [hasks] at h
      exact h
  | byQuery f o =>
    have h := CachedStore.getByQuery_outcome p settings timestamps henabled f o w
    rw [CachePlugin.source?] at h
    rw [source?, asksCache]
    cases hasks : o.skipCache
    all_goals
      simp only [hasks] at h
      exact h

theorem findOne_result (henabled : p.settings.enabled = true) {skip : Bool} {e : BeforeEvent}
    {report : Option Document → AfterEvent} {ttl : Nat}
    (hreport : ∀ x, p.after (report x) = p.keepResult (x.map .obj) ttl) {w : CachedStore κ}
    {key : String} (hsource : p.source? { skipCache := skip } w.cache.version.current e =
      some (key, CachePlugin.readDocument?)) {q : FindQuery} (hq : q.sort = .empty) :
    (((CachedStore.repository p settings timestamps).readThrough skip e
        (fun served => (Repository.servedDocument? served).map some)
        ((CachedStore.repository p settings timestamps).store.findOne q) report).runOn w).1 =
      .ok (((p.adapter.reply key w.cache.adapter).bind Document.ofText?).or
        (w.collection.selectOne q)) := by
  have hfind : ∀ s, ((CachedStore.repository p settings timestamps).store.findOne q).runOn
      { w with cache := s } = (.ok (w.collection.selectOne q), { w with cache := s }) :=
    fun _ => Collection.runOn_findOne_reader CachedStore.collectionPart hq _
  rw [CachedStore.readThrough_result henabled hreport hfind hsource]
  cases p.adapter.reply key w.cache.adapter with
  | none => rfl
  | some text =>
    rw [Option.bind_some, Option.bind_some, CachePlugin.readDocument?]
    cases Document.ofText? text <;> rfl

/-- A read that looks into the cache returns the document it finds there, and otherwise what the
store finds. -/
theorem run_result (henabled : p.settings.enabled = true) (q : SingleRead)
    (hasks : q.asksCache = true) (w : CachedStore κ) :
    ((q.run (CachedStore.repository p settings timestamps)).runOn w).1 =
      .ok (((p.adapter.reply (q.key p.keys) w.cache.adapter).bind Document.ofText?).or
        (w.collection.selectOne (q.query settings))) := by
  cases q with
  | byId id o =>
    rw [asksCache, Bool.not_eq_true'] at hasks
    rw [run, Repository.getById_eq]
    refine findOne_result p settings timestamps henabled (CachePlugin.after_getById henabled id o)
      ?_ rfl
    rw [CachePlugin.source?, if_neg (by simpa using hasks)]
    rfl
  | byQuery f o =>
    rw [asksCache, Bool.not_eq_true'] at hasks
    rw [run, Repository.getByQuery_eq]
    refine findOne_result p settings timestamps henabled (CachePlugin.after_getByQuery henabled f o)
      ?_ rfl
    rw [CachePlugin.source?, if_neg (by simpa using hasks)]
    rfl

/-- A read that does not look into the cache returns what the store finds. -/
theorem run_result_of_not_asksCache (henabled : p.settings.enabled = true) (q : SingleRead)
    (hasks : q.asksCache = false) (w : CachedStore κ) :
    ((q.run (CachedStore.repository p settings timestamps)).runOn w).1 =
      .ok (w.collection.selectOne (q.query settings)) := by
  have houtcome := run_outcome p settings timestamps henabled q w
  have hsource : q.source? p = none := by rw [source?, hasks]; rfl
  generalize (q.run (CachedStore.repository p settings timestamps)).runOn w = run at houtcome ⊢
  cases houtcome with
  | bypassed => rfl
  | served h => exact absurd (hsource.symm.trans h) (by simp)
  | found h => rfl
  | kept h hresult => exact hresult.symm

end SingleRead

/-! ## Preparing writes -/

namespace Repository

variable {σ : Type} {r : Repository σ} {P : σ → Prop}
  (hids : ∀ {α : Type} (a : Action IdSource α), (r.ids.lift a).Preserves P)
  (hclock : ∀ {α : Type} (a : Action Clock α), (r.clock.lift a).Preserves P)

include hclock

theorem preserves_preparePatch (patch : Document) : (r.preparePatch patch).Preserves P := by
  rw [preparePatch]
  split
  · exact (hclock _).bind fun _ => Action.preserves_pure _
  · exact Action.preserves_pure _

include hids

theorem preserves_prepareNew (d : Document) : (r.prepareNew d).Preserves P := by
  have hstamp : ∀ e : Document, (if r.timestamps then do
        let now ← r.clock.lift (Action.ofStep Clock.next)
        pure (stampNew now e)
      else pure e : Action σ Document).Preserves P := by
    intro e
    split
    · exact (hclock _).bind fun _ => Action.preserves_pure _
    · exact Action.preserves_pure _
  rw [prepareNew]
  split
  · exact (hids _).bind fun _ => (Action.preserves_pure _).bind hstamp
  · exact (Action.preserves_pure d).bind hstamp

theorem preserves_prepareAllNew (ds : List Document) : (r.prepareAllNew ds).Preserves P := by
  induction ds with
  | nil => exact Action.preserves_pure _
  | cons d ds ih =>
    exact (preserves_prepareNew hids hclock d).bind fun _ =>
      Action.Preserves.bind ih fun _ => Action.preserves_pure _

end Repository

/-! ## Operations -/

namespace CachedOp

open CachedStore

variable {κ : Type}

/-- The read of one document that an operation is. -/
def single? : CachedOp → Option SingleRead
  | .getById id o => some (.byId id o)
  | .getByQuery f o => some (.byQuery f o)
  | _ => none

/-- The identifier whose entry an operation drops. -/
def dropped? : CachedOp → Option DocumentId
  | .update id _ | .delete id | .invalidate id => some id
  | _ => none

/-- Whether an operation drops the entry of a key. -/
def Drops (keys : CacheKeys) (key : String) (op : CachedOp) : Prop :=
  ∃ id, op.dropped? = some id ∧ keys.byId id = key

/-- The text of the document that a read finds in a collection, if it keeps what it finds. -/
def KeepsText (keys : CacheKeys) (settings : PagingSettings) (c : Collection) (op : CachedOp)
    (key text : String) : Prop :=
  ∃ q d, op.single? = some q ∧ q.asksCache = true ∧ q.key keys = key ∧
    c.selectOne (q.query settings) = some d ∧ text = (Value.obj d).text

/-- What an operation may write: what a read of one document keeps, or a text under a key of
another kind. -/
def Writes (keys : CacheKeys) (settings : PagingSettings) (c : Collection) (op : CachedOp)
    (key text : String) : Prop :=
  op.KeepsText keys settings c key text ∨ ∀ q : SingleRead, key ≠ q.key keys

/-- Only the key of a read by identifier can be dropped. -/
theorem not_drops {q : SingleRead} {keys : CacheKeys} {op : CachedOp}
    (h : ∀ id o, q = .byId id o → ¬ op.Drops keys (keys.byId id)) :
    ¬ op.Drops keys (q.key keys) := by
  cases q with
  | byId id o => exact h id o rfl
  | byQuery f o =>
    rintro ⟨id, -, hkey⟩
    exact keys.byQuery_ne_byId f o id hkey.symm

variable (p : CachePlugin κ) (settings : PagingSettings) (timestamps : Bool)

/-- The adapter after the entry has been dropped that an operation drops. -/
def afterDrop (op : CachedOp) (k : κ) : κ :=
  op.dropped?.elim k fun id => p.adapter.afterDelete (p.keys.byId id) k

theorem writes_version (c : Collection) (op : CachedOp) (text : String) :
    op.Writes p.keys settings c p.keys.version text := by
  refine Or.inr fun q => ?_
  cases q with
  | byId id o => exact p.keys.version_ne_byId id
  | byQuery f o =>
    rw [SingleRead.key, CacheKeys.byQuery_eq, CacheKeys.version]
    exact p.keys.stem_append_ne (by simp [String.toList_append])

theorem writes_list (c : Collection) (op : CachedOp) (version : Nat) (mode : ListMode)
    (text : String) : op.Writes p.keys settings c (p.keys.list version mode) text := by
  refine Or.inr fun q => ?_
  cases q with
  | byId id o => exact (p.keys.byId_ne_list id version mode).symm
  | byQuery f o => exact (p.keys.byQuery_ne_list f o version mode).symm

/-- A write that the store carries out drops an entry and writes the version; another one does
nothing to the cache. -/
theorem additions_announced {α : Type} (henabled : p.settings.enabled = true) (op : CachedOp)
    (c : Collection) {e : BeforeEvent} (he : e.operation.isRead = false)
    {change : Action (CachedStore κ) α} {report : α → AfterEvent}
    (hreport : ∀ x, (report x).operation.isRead = false) {w : CachedStore κ}
    (hcache : (change.runOn w).2.cache = w.cache)
    (hok : ∀ x, (change.runOn w).1 = .ok x →
      p.afterWrite (report x) w.cache.adapter = op.afterDrop p w.cache.adapter)
    (herror : ∀ f, (change.runOn w).1 = .error f →
      op.afterDrop p w.cache.adapter = w.cache.adapter) :
    p.adapter.Additions (op.Writes p.keys settings c) (op.afterDrop p w.cache.adapter)
      (((repository p settings timestamps).announced e change report).runOn w).2.cache.adapter := by
  have hrun := runOn_announced p settings timestamps henabled he change hreport w
  rcases hchange : change.runOn w with ⟨f | x, t⟩
  all_goals
    rw [hchange] at hcache
    simp only [hchange] at hrun
  · rw [hrun, hcache, herror f (congrArg Prod.fst hchange)]
  · obtain ⟨stats, hrun⟩ := hrun
    rw [hrun, hcache, hok x (congrArg Prod.fst hchange)]
    exact .single (.set _ (op.writes_version p settings c _) _)

/-- What comes before a write does nothing to the cache. -/
theorem additions_prepared {α β : Type} (henabled : p.settings.enabled = true) {op : CachedOp}
    (hop : op.dropped? = none) (c : Collection) {prepare : Action (CachedStore κ) β}
    (hprepare : ∀ w, (prepare.runOn w).2.cache = w.cache) {e : β → BeforeEvent}
    (he : ∀ y, (e y).operation.isRead = false) {change : β → Action (CachedStore κ) α}
    (hchange : ∀ y u, ((change y).runOn u).2.cache = u.cache) {report : α → AfterEvent}
    (hreport : ∀ x, (report x).operation.isRead = false)
    (hafter : ∀ x k, p.afterWrite (report x) k = k) (w : CachedStore κ) :
    p.adapter.Additions (op.Writes p.keys settings c) (op.afterDrop p w.cache.adapter)
      ((prepare >>= fun y => (repository p settings timestamps).announced (e y) (change y)
        report).runOn w).2.cache.adapter := by
  have hsame : ∀ k, op.afterDrop p k = k := fun k => by rw [afterDrop, hop]; rfl
  have hcache := hprepare w
  rw [Action.runOn_bind]
  rcases hrun : prepare.runOn w with ⟨f | y, u⟩
  · rw [hrun] at hcache
    dsimp only at hcache ⊢
    rw [hsame, hcache]
  · rw [hrun] at hcache
    dsimp only at hcache ⊢
    rw [← hcache]
    exact additions_announced p settings timestamps henabled op c (he y) hreport (hchange y u)
      (fun x _ => (hafter x _).trans (hsame _).symm) fun _ _ => hsame _

/-- What a read leaves behind is the look into the cache and the text that it keeps. -/
theorem additions_of_outcome {α : Type} (op : CachedOp) {w : CachedStore κ}
    {source : Option (String × (String → Option HookResult))}
    {pick : Option HookResult → Option α} {result : Except Fault α} {entry : α → Option Value}
    {ttl : Nat} {run : Except Fault α × CachedStore κ}
    (h : ReadOutcome p w source pick result entry ttl run)
    (hkeep : ∀ key read x v, source = some (key, read) → result = .ok x → entry x = some v →
      op.Writes p.keys settings w.collection key v.text) :
    p.adapter.Additions (op.Writes p.keys settings w.collection) w.cache.adapter
      run.2.cache.adapter := by
  cases h with
  | bypassed => exact .refl
  | served => exact .single (.get _ _)
  | found => exact .single (.get _ _)
  | kept hsource hresult hentry =>
    exact (Relation.ReflTransGen.single (.get _ _)).tail
      (.set _ (hkeep _ _ _ _ hsource hresult hentry) _)

/-- A read of one document writes nothing but the text of what the store finds. -/
theorem additions_single (henabled : p.settings.enabled = true) {op : CachedOp} {q : SingleRead}
    (hop : op.single? = some q) (w : CachedStore κ) :
    p.adapter.Additions (op.Writes p.keys settings w.collection) w.cache.adapter
      ((q.run (repository p settings timestamps)).runOn w).2.cache.adapter := by
  refine additions_of_outcome p settings op (q.run_outcome p settings timestamps henabled w) ?_
  intro key read x v hsource hresult hentry
  rw [SingleRead.source?] at hsource
  split at hsource
  · next hasks =>
    cases hsource
    obtain ⟨d, rfl, rfl⟩ := Option.map_eq_some_iff.mp hentry
    exact Or.inl ⟨q, d, hop, hasks, rfl, Except.ok.inj hresult, rfl⟩
  · cases hsource

/-- After the entry is dropped that an operation drops, it writes only what it may write, and takes
nothing else away unless it clears everything. -/
theorem additions_perform (henabled : p.settings.enabled = true) {op : CachedOp}
    (hop : op ≠ .invalidateAll) (w : CachedStore κ) :
    p.adapter.Additions (op.Writes p.keys settings w.collection) (op.afterDrop p w.cache.adapter)
      ((op.perform p (repository p settings timestamps)).runOn w).2.cache.adapter := by
  have hids : ∀ t {α : Type} (a : Action IdSource α),
      ((repository p settings timestamps).ids.lift a).Preserves fun u => u.cache = t :=
    fun _ _ _ _ h => h
  have hclock : ∀ t {α : Type} (a : Action Clock α),
      ((repository p settings timestamps).clock.lift a).Preserves fun u => u.cache = t :=
    fun _ _ _ _ h => h
  cases op with
  | create d =>
    rw [perform, snd_runOn_drop, Repository.create_eq]
    refine additions_prepared p settings timestamps henabled rfl _ (fun w => ?_) (fun _ => rfl)
      (fun _ _ => rfl) (fun _ => rfl) (fun _ _ => rfl) w
    exact Repository.preserves_prepareNew (hids w.cache) (hclock w.cache) d w rfl
  | createMany ds =>
    rw [perform, snd_runOn_drop, Repository.createMany_eq]
    refine additions_prepared p settings timestamps henabled rfl _ (fun w => ?_) (fun _ => rfl)
      (fun _ _ => rfl) (fun _ => rfl) (fun _ _ => rfl) w
    exact Repository.preserves_prepareAllNew (hids w.cache) (hclock w.cache) ds w rfl
  | update id patch =>
    obtain ⟨e, clock, hprepare⟩ : ∃ e clock,
        ((repository p settings timestamps).preparePatch patch).runOn w =
          (.ok e, { w with clock }) := by
      cases timestamps <;> exact ⟨_, _, rfl⟩
    rw [perform, snd_runOn_drop, Repository.update_eq, Action.runOn_bind_of_ok hprepare]
    exact additions_announced p settings timestamps henabled (.update id patch) _
      (w := { w with clock }) rfl (fun _ => rfl) rfl (fun _ _ => rfl) fun f h => by cases h
  | updateMany f patch =>
    rw [perform, snd_runOn_drop, Repository.updateMany_eq]
    refine additions_prepared p settings timestamps henabled rfl _ (fun w => ?_) (fun _ => rfl)
      (fun _ _ => rfl) (fun _ => rfl) (fun _ _ => rfl) w
    exact Repository.preserves_preparePatch (hclock w.cache) patch w rfl
  | delete id =>
    rw [perform, snd_runOn_drop, Repository.delete_eq]
    exact additions_announced p settings timestamps henabled (.delete id) _ rfl (fun _ => rfl) rfl
      (fun _ _ => rfl) fun f h => by cases h
  | deleteMany f =>
    rw [perform, snd_runOn_drop, Repository.deleteMany_eq]
    exact additions_announced p settings timestamps henabled (.deleteMany f) _ rfl (fun _ => rfl)
      rfl (fun _ _ => rfl) fun f h => by cases h
  | getById id o =>
    rw [perform, snd_runOn_drop]
    exact additions_single p settings timestamps henabled (q := .byId id o) rfl w
  | getByQuery f o =>
    rw [perform, snd_runOn_drop]
    exact additions_single p settings timestamps henabled (q := .byQuery f o) rfl w
  | getAll request =>
    rw [perform, snd_runOn_drop]
    refine additions_of_outcome p settings _
      (getAll_outcome p settings timestamps henabled request w) ?_
    intro key read x v hsource _ _
    obtain ⟨rfl, -⟩ := CachePlugin.eq_of_source?_getAll hsource
    exact writes_list p settings _ _ _ _ _
  | invalidate id =>
    obtain ⟨existed, stats, h⟩ := p.runOn_dropById id w.cache
    rw [perform, snd_runOn_drop, CachePlugin.invalidate, runOn_onCachePart h]
    exact .refl
  | invalidateLists =>
    obtain ⟨stats, h⟩ := p.runOn_bump w.cache
    rw [perform, snd_runOn_drop, CachePlugin.invalidateLists, runOn_onCachePart h]
    exact .single (.set _ (writes_version p settings _ _ _) _)
  | invalidateAll => exact absurd rfl hop

theorem steps_perform (henabled : p.settings.enabled = true) (op : CachedOp) (w : CachedStore κ) :
    p.adapter.Steps (op.Writes p.keys settings w.collection) (op.afterDrop p w.cache.adapter)
      ((op.perform p (repository p settings timestamps)).runOn w).2.cache.adapter := by
  by_cases hop : op = .invalidateAll
  · subst hop
    obtain ⟨n, stats, k, version, hk, -, h⟩ := p.runOn_invalidateAll w.cache
    rw [perform, snd_runOn_drop, runOn_onCachePart h]
    have hcleared : p.adapter.Steps (Writes p.keys settings w.collection .invalidateAll)
        w.cache.adapter k := by
      rcases hk with rfl | rfl
      · exact .refl
      · exact .single (.clear _ _)
    exact hcleared.tail (.set _ (writes_version p settings _ _ _) _)
  · exact Relation.ReflTransGen.mono (fun _ _ => CacheAdapter.Addition.step) _ _
      (additions_perform p settings timestamps henabled hop w)

/-- The operation that is a read of one document leaves what the read leaves. -/
theorem snd_runOn_single (r : Repository (CachedStore κ)) {op : CachedOp} {q : SingleRead}
    (hop : op.single? = some q) (w : CachedStore κ) :
    ((op.perform p r).runOn w).2 = ((q.run r).runOn w).2 := by
  cases op with
  | getById id o =>
    cases hop
    exact snd_runOn_drop _ _
  | getByQuery f o =>
    cases hop
    exact snd_runOn_drop _ _
  | _ => cases hop

/-! ## What stays -/

section Lossless

variable {p} (henabled : p.settings.enabled = true) (hlossless : p.adapter.Lossless)
  {q : SingleRead} {text : String} {d : Document}

include henabled hlossless

/-- A read that finds a document in the cache leaves it there. -/
theorem reply_single {q' : SingleRead} (hkey : q'.key p.keys = q.key p.keys) {w : CachedStore κ}
    (hreply : p.adapter.reply (q.key p.keys) w.cache.adapter = some text)
    (hread : Document.ofText? text = some d) :
    p.adapter.reply (q.key p.keys)
        ((q'.run (repository p settings timestamps)).runOn w).2.cache.adapter =
      p.adapter.reply (q.key p.keys) w.cache.adapter := by
  have houtcome := q'.run_outcome p settings timestamps henabled w
  generalize (q'.run (repository p settings timestamps)).runOn w = run at houtcome ⊢
  cases houtcome with
  | bypassed => rfl
  | served => exact hlossless.get _ _ _
  | found => exact hlossless.get _ _ _
  | kept hsource _ _ hmissed =>
    rw [SingleRead.source?] at hsource
    split at hsource
    · cases hsource
      rw [hkey, hreply, Option.bind_some, CachePlugin.readDocument?, hread] at hmissed
      cases hmissed
    · cases hsource

/-- A document under the key of a read stays there, unless an operation drops the key or clears
everything. -/
theorem reply_perform {op : CachedOp} (hop : op ≠ .invalidateAll)
    (hdrops : ¬ op.Drops p.keys (q.key p.keys)) {w : CachedStore κ}
    (hreply : p.adapter.reply (q.key p.keys) w.cache.adapter = some text)
    (hread : Document.ofText? text = some d) :
    p.adapter.reply (q.key p.keys)
        ((op.perform p (repository p settings timestamps)).runOn w).2.cache.adapter =
      some text := by
  have hdropped : p.adapter.reply (q.key p.keys) (op.afterDrop p w.cache.adapter) = some text := by
    rw [afterDrop]
    cases hid : op.dropped? with
    | none => exact hreply
    | some id =>
      exact (hlossless.delete _ _ _ fun heq => hdrops ⟨id, hid, heq.symm⟩).trans hreply
  by_cases hown : ∃ q', op.single? = some q' ∧ q'.key p.keys = q.key p.keys
  · obtain ⟨q', hsingle, hkey⟩ := hown
    rw [snd_runOn_single p _ hsingle,
      reply_single settings timestamps henabled hlossless hkey hreply hread, hreply]
  · refine (hlossless.reply_additions
      (additions_perform p settings timestamps henabled hop w)
        fun text' hwrites => ?_).trans hdropped
    rcases hwrites with ⟨q', -, hsingle, -, hkey, -, -⟩ | hother
    · exact hown ⟨q', hsingle, hkey⟩
    · exact hother q rfl

theorem reply_afterAll {ops : List CachedOp}
    (hops : ∀ op ∈ ops, op ≠ .invalidateAll ∧ ¬ op.Drops p.keys (q.key p.keys))
    {w : CachedStore κ} (hreply : p.adapter.reply (q.key p.keys) w.cache.adapter = some text)
    (hread : Document.ofText? text = some d) :
    p.adapter.reply (q.key p.keys)
        (Action.afterAll (perform p (repository p settings timestamps)) ops w).cache.adapter =
      some text := by
  induction ops generalizing w with
  | nil => exact hreply
  | cons op ops ih =>
    rw [List.forall_mem_cons] at hops
    exact ih hops.2
      (reply_perform settings timestamps henabled hlossless hops.1.1 hops.1.2 hreply hread)

end Lossless

end CachedOp
end Quire
