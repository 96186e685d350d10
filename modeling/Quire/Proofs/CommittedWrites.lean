import Quire.Proofs.HookedRepositories
import Quire.Proofs.ListFreshness

/-!
# Committed writes

A write that changes the store makes the lists in the cache stale, whether it returns a result or
a fault. The version is raised by caching after the write, so lists are dropped with every change
as long as no hook that is attached ahead of caching fails after it.
-/
namespace Quire

variable {κ τ : Type}

/-- The list that a turn asks for. -/
def CacheTurn.listMode? : CacheTurn → Option ListMode
  | .call (.getAll request) => some request.mode
  | .call (.paginate request) => some (.offset request)
  | .call (.stream request) => some (.keyset request)
  | _ => none

/-- A turn of a run, with the version and the collection before it. -/
structure TurnMoment where
  turn : CacheTurn
  version : Nat
  collection : Collection

namespace TurnMoment

variable (keys : CacheKeys) (settings : PagingSettings) (x : TurnMoment)

/-- A list that the store finds for the turn, which asks for it under a key. -/
def Lists (key : String) (result : ListResult) : Prop :=
  ∃ mode, x.turn.listMode? = some mode ∧ keys.list x.version mode = key ∧
    x.collection.listed settings mode = .ok result

/-- What the turn may write: the text of a list that the store finds for it, or a text under a key
of another kind. -/
def Writes (key text : String) : Prop :=
  (∃ result, x.Lists keys settings key result ∧ text = result.toValue.text) ∨
    ∀ version mode, key ≠ keys.list version mode

end TurnMoment

/-- A refused insertion leaves the collection as it is. -/
theorem Collection.eq_of_insertOne_error {d : Document} {c c' : Collection} {ids ids' : IdSource}
    {f : Fault} (h : (insertOne d).runOn (c, ids) = (.error f, c', ids')) : c' = c := by
  rw [insertOne, Action.runOn_ofFun] at h
  dsimp only at h
  split at h
  · cases h
    rfl
  · cases h

theorem Collection.eq_of_insertMany_error {ds : List Document} {c c' : Collection}
    {ids ids' : IdSource} {f : Fault}
    (h : (insertMany ds).runOn (c, ids) = (.error f, c', ids')) : c' = c := by
  rw [insertMany, Action.runOn_ofFun] at h
  dsimp only at h
  split at h
  · cases h
    rfl
  · cases h

namespace HookedStore

open CachedStore

/-! ## One turn -/

section Turn

variable {p : CachePlugin κ} {Writes : String → String → Prop} {steady : Prop}

theorem Looking.progress {α : Type} {s : CachedStore κ × τ}
    {run : Except Fault α × (CachedStore κ × τ)} (h : Looking p Writes s.1 run.2.1) :
    Progress p Writes steady s run :=
  ⟨h.advanced, fun _ hchanged => absurd h.collection hchanged⟩

/-- What is made of the result does not matter. -/
theorem Progress.bind_ofExcept {α β : Type} {a : Action (CachedStore κ × τ) α}
    {s : CachedStore κ × τ} (h : Progress p Writes steady s (a.runOn s))
    (f : α → Except Fault β) :
    Progress p Writes steady s ((a >>= fun x => Action.ofExcept (f x)).runOn s) := by
  rw [Action.runOn_bind]
  rcases ha : a.runOn s with ⟨e | x, t⟩
  all_goals rw [ha] at h
  · exact ⟨h.advanced, fun hquiet => h.raised (hquiet.imp_right fun ⟨_, hy⟩ => nomatch hy)⟩
  · exact ⟨h.advanced, fun _ => h.raised (Or.inr ⟨x, rfl⟩)⟩

theorem Progress.map {α β : Type} {a : Action (CachedStore κ × τ) α} {s : CachedStore κ × τ}
    (h : Progress p Writes steady s (a.runOn s)) (f : α → β) :
    Progress p Writes steady s ((f <$> a).runOn s) := by
  rw [map_eq_pure_bind]
  exact h.bind_ofExcept fun x => .ok (f x)

/-- What comes before leaves the collection and the cache alone. -/
theorem Progress.prepared {α β : Type} {a : Action (CachedStore κ × τ) β}
    (ha : ∀ c t, a.Preserves fun s => s.1.collection = c ∧ s.1.cache = t)
    {k : β → Action (CachedStore κ × τ) α} {s : CachedStore κ × τ}
    (hk : ∀ y s, Progress p Writes steady s ((k y).runOn s)) :
    Progress p Writes steady s ((a >>= k).runOn s) := by
  obtain ⟨hcollection, hcache⟩ := ha s.1.collection s.1.cache s ⟨rfl, rfl⟩
  rw [Action.runOn_bind]
  rcases hrun : a.runOn s with ⟨f | y, t⟩
  all_goals
    rw [hrun] at hcollection hcache
    dsimp only at hcollection hcache
  · exact Looking.progress ⟨hcollection, congrArg _ hcache, by rw [hcache]⟩
  · have h := hk y t
    exact ⟨⟨hcache ▸ h.advanced.version, hcache ▸ h.advanced.steps⟩,
      hcollection ▸ hcache ▸ h.raised⟩

end Turn

/-- An invalidation by hand leaves the collection alone. -/
theorem invalidation_progress {p : CachePlugin κ} {Writes : String → String → Prop} {steady : Prop}
    {α : Type} {a : Action (CacheState κ) α} {s : CachedStore κ × τ} {out : Except Fault α}
    {t : CacheState κ} (h : a.runOn s.1.cache = (out, t))
    (hversion : t.version.current = s.1.cache.version.current ∨
      t.version.current = ListVersion.next s.1.cache.version.current)
    (hsteps : p.adapter.Steps Writes s.1.cache.adapter t.adapter) :
    Progress p Writes steady s ((cacheOf.lift a).runOn s) := by
  have hlift : (cacheOf.lift a).runOn s =
      ((a.runOn s.1.cache).1, { s.1 with cache := (a.runOn s.1.cache).2 }, s.2) := rfl
  rw [hlift, h]
  exact ⟨⟨hversion, hsteps⟩, fun _ hchanged => absurd rfl hchanged⟩

/-- A change of the collection and its identifiers that is refused, and leaves the collection. -/
theorem collection_of_refused {α : Type} {a : Action (Collection × IdSource) α}
    (ha : ∀ {c ids f c' ids'}, a.runOn (c, ids) = (.error f, c', ids') → c' = c)
    (s : CachedStore κ × τ) (f : Fault) (t : CachedStore κ × τ)
    (h : (((parts (κ := κ) (τ := τ)).collection.pair parts.ids).lift a).runOn s = (.error f, t)) :
    t.1.collection = s.1.collection := by
  rw [Part.runOn_lift] at h
  rcases hrun : a.runOn (s.1.collection, s.1.ids) with ⟨out, c', ids'⟩
  have hpair : a.runOn ((parts.collection.pair parts.ids).get s) = (out, c', ids') := hrun
  rw [hpair] at h
  cases h
  exact ha hrun

section Calls

variable {p : CachePlugin κ} (settings : PagingSettings) (timestamps : Bool)
  {ahead behind : List (Hook (CachedStore κ × τ))}
  (henabled : p.settings.enabled = true) (hahead : ∀ h ∈ ahead, h.Bystander)
  (hbehind : ∀ h ∈ behind, h.Bystander)

include henabled hahead hbehind

/-- A read of one document leaves the lists in the cache alone. -/
theorem findOne_looking (x : TurnMoment) {skip : Bool} {e : BeforeEvent} (q : FindQuery)
    {report : Option Document → AfterEvent} {ttl : Nat} {s : CachedStore κ × τ}
    (hsource : ∀ c key read, p.source? c s.1.cache.version.current e = some (key, read) →
      ∀ version mode, key ≠ p.keys.list version mode)
    (hreport : ∀ found, p.after (report found) = p.keepResult (found.map .obj) ttl) :
    Looking p (x.Writes p.keys settings) s.1
      (((repository p settings timestamps ahead behind).readThrough skip e
        (fun served => (Repository.servedDocument? served).map some)
        ((repository p settings timestamps ahead behind).store.findOne q) report).runOn s).2.1 := by
  have hfind : ∀ t : CachedStore κ × τ, t.1.collection = s.1.collection →
      ((repository p settings timestamps ahead behind).store.findOne q).runOn t =
        (s.1.collection.findOne q, t) := by
    intro t ht
    rw [← ht]
    rfl
  exact (readThrough_looking (fun key => ∀ version mode, key ≠ p.keys.list version mode)
    (fun _ => True) settings timestamps henabled hahead hbehind (fun _ _ _ _ => trivial)
    (fun c key read h => ⟨hsource c key read h, fun _ _ => trivial⟩) rfl hfind hreport
    (fun _ _ _ hkey _ _ => Or.inr hkey) rfl rfl).1

/-- A list read keeps only what the store finds for it. It returns what the store finds, or what it
reads in the cache or another hook serves. -/
theorem getAll_looking {x : TurnMoment} {request : ListRequest}
    (hmode : x.turn.listMode? = some request.mode) {s : CachedStore κ × τ}
    (hversion : x.version = s.1.cache.version.current) (hcollection : x.collection = s.1.collection)
    {out : Except Fault ListResult} {t : CachedStore κ × τ}
    (hrun : ((repository p settings timestamps ahead behind).getAll request).runOn s = (out, t)) :
    Looking p (x.Writes p.keys settings) s.1 t.1 ∧
      ∀ result, out = .ok result →
        s.1.collection.listed settings request.mode = .ok result ∨
          (∃ h ∈ ahead ++ behind, h.Serves (.list result)) ∨
          ∃ text, p.adapter.reply (p.keys.list s.1.cache.version.current request.mode)
            s.1.cache.adapter = some text ∧ ListResult.ofText? text = some result := by
  have hfind : ∀ t : CachedStore κ × τ, t.1.collection = s.1.collection →
      ((repository p settings timestamps ahead behind).readList request.mode).runOn t =
        (s.1.collection.listed settings request.mode, t) := by
    intro t ht
    rw [← ht]
    exact Repository.runOn_readList parts.collection parts.ids _ rfl request.mode t
  have hsource : ∀ c key read,
      p.source? c s.1.cache.version.current (.getAll request) = some (key, read) →
        key = p.keys.list s.1.cache.version.current request.mode ∧
          ∀ r, (p.adapter.reply key s.1.cache.adapter).bind read = some r →
            (∃ h ∈ ahead ++ behind, h.Serves r) ∨
              ∃ text, p.adapter.reply (p.keys.list s.1.cache.version.current request.mode)
                s.1.cache.adapter = some text ∧ CachePlugin.readList? text = some r := by
    intro c key read h
    obtain ⟨rfl, rfl⟩ := CachePlugin.eq_of_source?_getAll h
    exact ⟨rfl, fun r hr => Or.inr (Option.bind_eq_some_iff.mp hr)⟩
  have hkeep : ∀ key (result : ListResult) v,
      key = p.keys.list s.1.cache.version.current request.mode →
      s.1.collection.listed settings request.mode = .ok result → some result.toValue = some v →
        x.Writes p.keys settings key v.text := by
    rintro key result v rfl hresult hv
    cases hv
    exact Or.inl ⟨result, ⟨request.mode, hmode, by rw [hversion], by rw [hcollection, hresult]⟩,
      rfl⟩
  rw [Repository.getAll_eq] at hrun
  obtain ⟨hlooking, hreturned⟩ := readThrough_looking _ _ settings timestamps henabled hahead
    hbehind (fun h hh r hr => Or.inl ⟨h, hh, hr⟩) hsource rfl hfind
    (CachePlugin.after_getAll henabled request) hkeep rfl hrun
  refine ⟨hlooking, fun result hresult => (hreturned result hresult).imp_right ?_⟩
  rintro ⟨r, hpick, hserved⟩
  obtain rfl : r = .list result := by
    cases r with
    | document d => cases hpick
    | list q => rw [eq_of_servedList? hpick]
  refine hserved.imp_right ?_
  rintro ⟨text, hreply, hread⟩
  refine ⟨text, hreply, ?_⟩
  obtain ⟨q, hq, hsame⟩ := Option.map_eq_some_iff.mp hread
  cases hsame
  exact hq

/-- A list read returns what the store lists, what another hook serves, or what it reads in the
cache. -/
theorem getAll_returned {request : ListRequest} {s : CachedStore κ × τ} {result : ListResult}
    (hresult : (((repository p settings timestamps ahead behind).getAll request).runOn s).1 =
      .ok result) :
    s.1.collection.listed settings request.mode = .ok result ∨
      (∃ h ∈ ahead ++ behind, h.Serves (.list result)) ∨
      ∃ text, p.adapter.reply (p.keys.list s.1.cache.version.current request.mode)
        s.1.cache.adapter = some text ∧ ListResult.ofText? text = some result := by
  let x : TurnMoment := ⟨.call (.getAll request), s.1.cache.version.current, s.1.collection⟩
  have hmode : x.turn.listMode? = some request.mode := rfl
  exact (getAll_looking settings timestamps henabled hahead hbehind hmode rfl rfl rfl).2 result
    hresult

/-- A call raises the version with every change of the collection, unless a hook attached ahead of
caching fails, and writes only what it may. -/
theorem call_progress (c : Call) (s : CachedStore κ × τ) {x : TurnMoment}
    (hturn : x.turn = .call c) (hversion : x.version = s.1.cache.version.current)
    (hcollection : x.collection = s.1.collection) :
    Progress p (x.Writes p.keys settings) (∀ h ∈ ahead, h.Steady) s
      ((c.run (repository p settings timestamps ahead behind)).runOn s) := by
  have hpersisted : ∀ text, x.Writes p.keys settings p.keys.version text :=
    fun _ => Or.inr p.keys.version_ne_list
  have hids : ∀ c t {α : Type} (a : Action IdSource α),
      ((repository p settings timestamps ahead behind).ids.lift a).Preserves
        fun s => s.1.collection = c ∧ s.1.cache = t := fun _ _ _ _ _ hs => hs
  have hclock : ∀ c t {α : Type} (a : Action Clock α),
      ((repository p settings timestamps ahead behind).clock.lift a).Preserves
        fun s => s.1.collection = c ∧ s.1.cache = t := fun _ _ _ _ _ hs => hs
  have hread : ∀ id o, Looking p (x.Writes p.keys settings) s.1
      (((repository p settings timestamps ahead behind).getById id o).runOn s).2.1 := by
    intro id o
    rw [Repository.getById_eq]
    refine findOne_looking settings timestamps henabled hahead hbehind x _
      (fun c key read h => ?_) (CachePlugin.after_getById henabled id o)
    obtain ⟨-, rfl, -⟩ := CachePlugin.eq_of_source?_getById h
    exact p.keys.byId_ne_list id
  cases c with
  | create d =>
    rw [Call.run, Repository.create_eq]
    refine (Progress.prepared (fun c t => Repository.preserves_prepareNew (hids c t) (hclock c t) d)
      fun d s => ?_).map _
    exact announced_progress settings timestamps henabled hahead hbehind hpersisted (fun _ => rfl)
      (fun _ => rfl) (collection_of_refused fun h => Collection.eq_of_insertOne_error h) s
  | createMany ds =>
    rw [Call.run, Repository.createMany_eq]
    refine (Progress.prepared (fun c t => Repository.preserves_prepareAllNew (hids c t) (hclock c t)
      ds) fun ds s => ?_).map _
    exact announced_progress settings timestamps henabled hahead hbehind hpersisted (fun _ => rfl)
      (fun _ => rfl) (collection_of_refused fun h => Collection.eq_of_insertMany_error h) s
  | update id patch =>
    rw [Call.run, Repository.update_eq]
    refine (Progress.prepared (fun c t => Repository.preserves_preparePatch (hclock c t) patch)
      fun patch s => ?_).map _
    exact announced_progress settings timestamps henabled hahead hbehind hpersisted (fun _ => rfl)
      (fun _ => rfl) (fun s f t h => by cases h) s
  | updateMany f patch =>
    rw [Call.run, Repository.updateMany_eq]
    refine (Progress.prepared (fun c t => Repository.preserves_preparePatch (hclock c t) patch)
      fun patch s => ?_).map _
    exact announced_progress settings timestamps henabled hahead hbehind hpersisted (fun _ => rfl)
      (fun _ => rfl) (fun s f t h => by cases h) s
  | delete id =>
    rw [Call.run, Repository.delete_eq]
    exact (announced_progress settings timestamps henabled hahead hbehind hpersisted (fun _ => rfl)
      (fun _ => rfl) (fun s f t h => by cases h) s).map _
  | deleteMany f =>
    rw [Call.run, Repository.deleteMany_eq]
    exact (announced_progress settings timestamps henabled hahead hbehind hpersisted (fun _ => rfl)
      (fun _ => rfl) (fun s f t h => by cases h) s).map _
  | getById id o =>
    rw [Call.run]
    exact (hread id o).progress.map _
  | requireById id o =>
    rw [Call.run, Repository.requireById_eq]
    exact ((hread id o).progress.bind_ofExcept _).map _
  | getByQuery f o =>
    rw [Call.run, Repository.getByQuery_eq]
    refine (findOne_looking settings timestamps henabled hahead hbehind x _
      (fun c key read h => ?_) (CachePlugin.after_getByQuery henabled f o)).progress.map _
    obtain ⟨rfl, -⟩ := CachePlugin.eq_of_source?_getByQuery h
    exact p.keys.byQuery_ne_list f o
  | getAll request =>
    rw [Call.run]
    exact Progress.map (getAll_looking settings timestamps henabled hahead hbehind
      (by rw [hturn]; rfl) hversion hcollection rfl).1.progress _
  | paginate request =>
    rw [Call.run, Repository.paginate_eq]
    refine (Progress.bind_ofExcept ?_ _).map _
    exact (getAll_looking settings timestamps henabled hahead hbehind
      (by rw [hturn]; rfl) hversion hcollection rfl).1.progress
  | stream request =>
    rw [Call.run, Repository.stream_eq]
    refine (Progress.bind_ofExcept ?_ _).map _
    exact (getAll_looking settings timestamps henabled hahead hbehind
      (by rw [hturn]; rfl) hversion hcollection rfl).1.progress
  | aggregatePaginate request =>
    rw [Call.run]
    have hsame : ((repository p settings timestamps ahead behind).aggregatePaginate
        request).Preserves (· = s) :=
      Action.Preserves.bind (fun _ h => h) fun _ =>
        Action.Preserves.bind (fun _ h => h) fun _ => Action.preserves_pure _
    refine Progress.map (Looking.progress ?_) _
    rw [hsame s rfl]
    exact ⟨rfl, rfl, .refl⟩

/-- A turn raises the version with every change of the collection, unless a hook attached ahead of
caching fails, and writes only what it may. -/
theorem turn_progress (turn : CacheTurn) (s : CachedStore κ × τ) :
    Progress p (TurnMoment.Writes p.keys settings ⟨turn, s.1.cache.version.current, s.1.collection⟩)
      (∀ h ∈ ahead, h.Steady) s
      ((turn.run p cacheOf (repository p settings timestamps ahead behind)).runOn s) := by
  have hpersisted : ∀ (x : TurnMoment) (version : Nat) (k : κ),
      p.adapter.Steps (x.Writes p.keys settings) k (p.afterPersist version k) :=
    fun x version k => .single (.set k (Or.inr p.keys.version_ne_list) _)
  cases turn with
  | call c =>
    exact (call_progress settings timestamps henabled hahead hbehind c s rfl rfl rfl).map _
  | invalidate id =>
    obtain ⟨existed, stats, h⟩ := p.runOn_dropById id s.1.cache
    exact (invalidation_progress h (Or.inl rfl) (.single (.delete _ _))).map _
  | invalidateLists =>
    obtain ⟨stats, h⟩ := p.runOn_bump s.1.cache
    exact (invalidation_progress h (Or.inr rfl) (hpersisted _ _ _)).map _
  | invalidateAll =>
    obtain ⟨n, stats, k, version, hk, hversion, h⟩ := p.runOn_invalidateAll s.1.cache
    have hcleared : ∀ x : TurnMoment,
        p.adapter.Steps (x.Writes p.keys settings) s.1.cache.adapter k := by
      intro x
      rcases hk with rfl | rfl
      · exact .refl
      · exact .single (.clear _ _)
    exact (invalidation_progress h hversion ((hcleared _).trans (hpersisted _ _ _))).map _

end Calls

/-! ## Runs -/

section Runs

variable (p : CachePlugin κ) (settings : PagingSettings) (timestamps : Bool)
  (ahead behind : List (Hook (CachedStore κ × τ))) (Holds : κ → CacheMemory → Prop)

/-- Turns one after another, the last one first. Between them the adapter may lose entries. -/
inductive TurnRun (start : CachedStore κ × τ) : List TurnMoment → CachedStore κ × τ → Prop
  | start : TurnRun start [] start
  | turn {log : List TurnMoment} {s : CachedStore κ × τ} (before : TurnRun start log s)
      (turn : CacheTurn) :
      TurnRun start (⟨turn, s.1.cache.version.current, s.1.collection⟩ :: log)
        ((turn.run p cacheOf (repository p settings timestamps ahead behind)).runOn s).2
  | lose {log : List TurnMoment} {s : CachedStore κ × τ} (before : TurnRun start log s) {k : κ}
      (hk : ∀ m, Holds s.1.cache.adapter m → Holds k m) :
      TurnRun start log ({ s.1 with cache := { s.1.cache with adapter := k } }, s.2)

/-- From a version on, the adapter remembers no lists but what turns have kept that the store found
for them. -/
def RemembersFound (base : Nat) (log : List TurnMoment) (k : κ) : Prop :=
  ∃ m, Holds k m ∧ ∀ version mode text, base ≤ version →
    m (p.keys.list version mode) = some text → ∃ x ∈ log, ∃ result,
      x.Lists p.keys settings (p.keys.list version mode) result ∧ text = result.toValue.text

end Runs

variable {p : CachePlugin κ} {settings : PagingSettings} {timestamps : Bool}
  {ahead behind : List (Hook (CachedStore κ × τ))} {Holds : κ → CacheMemory → Prop} {base : Nat}

/-- What one more turn writes is added to what was there. -/
theorem RemembersFound.steps (hadapter : p.adapter.Remembers Holds) {log : List TurnMoment}
    {k k' : κ} (h : RemembersFound p settings Holds base log k) {x : TurnMoment}
    (hsteps : p.adapter.Steps (x.Writes p.keys settings) k k') :
    RemembersFound p settings Holds base (x :: log) k' := by
  obtain ⟨m, hm, hfound⟩ := h
  obtain ⟨m', hm', hwritten⟩ := hadapter.steps hsteps hm
  refine ⟨m', hm', fun version mode text hbase hget => ?_⟩
  rcases hwritten _ _ hget with hbefore | ⟨result, hlists, htext⟩ | hother
  · obtain ⟨y, hy, hkept⟩ := hfound version mode text hbase hbefore
    exact ⟨y, List.mem_cons_of_mem _ hy, hkept⟩
  · exact ⟨x, List.mem_cons_self, result, hlists, htext⟩
  · exact absurd rfl (hother version mode)

section Main

variable (henabled : p.settings.enabled = true) (hadapter : p.adapter.Remembers Holds)
  (hahead : ∀ h ∈ ahead, h.Bystander) (hbehind : ∀ h ∈ behind, h.Bystander)

include henabled hadapter hahead hbehind

/-- Over a run the version only grows, as long as its counter does not come to its end, and what is
remembered is what was found meanwhile. -/
theorem TurnRun.remembersFound {start s : CachedStore κ × τ} {log : List TurnMoment}
    (hrun : TurnRun p settings timestamps ahead behind Holds start log s)
    (hroom : ∀ x ∈ log, ListVersion.HasNext x.version)
    (hstart : RemembersFound p settings Holds base [] start.1.cache.adapter) :
    RemembersFound p settings Holds base log s.1.cache.adapter ∧
      (∀ x ∈ log, x.version ≤ s.1.cache.version.current) ∧
      start.1.cache.version.current ≤ s.1.cache.version.current := by
  induction hrun with
  | start => exact ⟨hstart, nofun, Nat.le_refl _⟩
  | @turn log s _ turn ih =>
    obtain ⟨hnow, hearlier⟩ := List.forall_mem_cons.mp hroom
    obtain ⟨hfound, hlog, hle⟩ := ih hearlier
    have hprogress := turn_progress settings timestamps henabled hahead hbehind turn s
    have hraised := hprogress.advanced.version_le hnow
    refine ⟨hfound.steps hadapter hprogress.advanced.steps, ?_, hle.trans hraised⟩
    rw [List.forall_mem_cons]
    exact ⟨hraised, fun x hx => (hlog x hx).trans hraised⟩
  | lose _ hk ih =>
    obtain ⟨⟨m, hm, hfound⟩, hlog, hle⟩ := ih hroom
    exact ⟨⟨m, hk m hm, hfound⟩, hlog, hle⟩

/-- After a turn that changes the store, a list read returns what the store lists then, or a list
that the store found for a read after the change, or what another hook serves, if the turn succeeds
or no hook attached ahead of caching fails, and as long as the version counter does not come to its
end. -/
theorem getAll_after_change {start s : CachedStore κ × τ} {m : CacheMemory}
    (hm : Holds start.1.cache.adapter m)
    (hfresh : ∀ version mode, start.1.cache.version.current < version →
      m (p.keys.list version mode) = none)
    {earlier : List TurnMoment}
    (hrun : TurnRun p settings timestamps ahead behind Holds start earlier s) {turn : CacheTurn}
    {out : Except Fault (Option Answer)} {t : CachedStore κ × τ}
    (hturn : (turn.run p cacheOf (repository p settings timestamps ahead behind)).runOn s =
      (out, t))
    (hchanged : t.1.collection ≠ s.1.collection)
    (hquiet : (∀ h ∈ ahead, h.Steady) ∨ ∃ answer, out = .ok answer)
    {later : List TurnMoment} {u : CachedStore κ × τ}
    (hlater : TurnRun p settings timestamps ahead behind Holds t later u)
    (hroom : ∀ x ∈ later ++ ⟨turn, s.1.cache.version.current, s.1.collection⟩ :: earlier,
      ListVersion.HasNext x.version)
    {request : ListRequest} {result : ListResult}
    (hresult : (((repository p settings timestamps ahead behind).getAll request).runOn u).1 =
      .ok result) :
    u.1.collection.listed settings request.mode = .ok result ∨
      (∃ h ∈ ahead ++ behind, h.Serves (.list result)) ∨
      ∃ x ∈ later, ∃ found, x.Lists p.keys settings
          (p.keys.list u.1.cache.version.current request.mode) found ∧
        ListResult.ofText? found.toValue.text = some result := by
  rw [List.forall_mem_append, List.forall_mem_cons] at hroom
  obtain ⟨hroomLater, hroomNow, hroomEarlier⟩ := hroom
  have hprogress := turn_progress settings timestamps henabled hahead hbehind turn s
  rw [hturn] at hprogress
  have hraised : s.1.cache.version.current < t.1.cache.version.current := by
    rw [hprogress.raised hquiet hchanged, ListVersion.next_of_hasNext hroomNow]
    exact Nat.lt_succ_self _
  have hnothing : RemembersFound p settings Holds (start.1.cache.version.current + 1) []
      start.1.cache.adapter := by
    refine ⟨m, hm, fun version mode text hbase hget => ?_⟩
    rw [hfresh version mode hbase] at hget
    cases hget
  obtain ⟨hbefore, hlog, hle⟩ :=
    hrun.remembersFound henabled hadapter hahead hbehind hroomEarlier hnothing
  obtain ⟨m', hm', hfound⟩ := hbefore.steps hadapter hprogress.advanced.steps
  -- No list has been kept under the version that the turn has raised.
  have hforgotten : RemembersFound p settings Holds t.1.cache.version.current []
      t.1.cache.adapter := by
    refine ⟨m', hm', fun version mode text hbase hget => ?_⟩
    obtain ⟨x, hx, result, ⟨mode', -, hkey, -⟩, -⟩ :=
      hfound version mode text ((Nat.lt_of_le_of_lt hle hraised).trans_le hbase) hget
    obtain ⟨hversion, -⟩ := p.keys.eq_of_list hkey
    rcases List.mem_cons.mp hx with rfl | hearlier
    · dsimp only at hversion
      omega
    · have := hlog x hearlier
      omega
  obtain ⟨⟨m'', hm'', hkept⟩, -, hgrown⟩ :=
    hlater.remembersFound henabled hadapter hahead hbehind hroomLater hforgotten
  rcases getAll_returned settings timestamps henabled hahead hbehind hresult with
    hlisted | hserved | ⟨text, hreply, hread⟩
  · exact Or.inl hlisted
  · exact Or.inr (Or.inl hserved)
  · obtain ⟨x, hx, found, hlists, rfl⟩ := hkept _ _ _ hgrown (hadapter.reply hm'' hreply)
    exact Or.inr (Or.inr ⟨x, hx, found, hlists, hread⟩)

end Main

/-- A hook that refuses what has been created, when it has been created. -/
def audit : Hook (CachedStore TickingCache × Unit) where
  name := "audit"
  after
    | .create _ => Action.fail (.validation "audit failed")
    | _ => pure ()

theorem audit_bystander : audit.Bystander := by
  refine ⟨fun e x => ⟨rfl, rfl, id, id⟩, fun e x => ?_⟩
  cases e <;> exact ⟨rfl, rfl, id, id⟩

theorem not_serves_audit (r : HookResult) : ¬ audit.Serves r := by
  rintro ⟨e, x, hserved, hbefore⟩
  exact hbefore hserved

/-- The first page of rows. -/
def firstPage : ListRequest := { mode := .offset {} }

/-- The state after a turn. -/
def afterTurn (ahead behind : List (Hook (CachedStore TickingCache × Unit))) (turn : CacheTurn)
    (s : CachedStore TickingCache × Unit) : CachedStore TickingCache × Unit :=
  ((turn.run rowsCache cacheOf (repository rowsCache rowsPaging false ahead behind)).runOn s).2

/-- The empty list is read and kept. -/
def emptyListed (ahead behind : List (Hook (CachedStore TickingCache × Unit))) :
    CachedStore TickingCache × Unit :=
  afterTurn ahead behind (.call (.getAll firstPage)) (noRows, ())

/-- Then a row is created. -/
def rowAudited (ahead behind : List (Hook (CachedStore TickingCache × Unit))) :
    CachedStore TickingCache × Unit :=
  afterTurn ahead behind (.call (.create [("id", .int 1)])) (emptyListed ahead behind)

/-- The audit behind caching fails the creation, and yet the row is listed from then on. -/
theorem getAll_after_change_rowAudited :
    let r := repository rowsCache rowsPaging false [] [audit]
    (((r.create [("id", .int 1)]).runOn (emptyListed [] [audit])).1.toOption.isNone = true) ∧
      ∃ result, ((r.getAll firstPage).runOn (rowAudited [] [audit])).1 = .ok result ∧
        (rowAudited [] [audit]).1.collection.listed rowsPaging firstPage.mode = .ok result := by
  intro r
  have hnothing : TickingCache.Holds noRows.cache.adapter fun _ => none := by
    have hempty : TickingCache.Holds (.empty 100) fun _ => none := fun e he => by cases he
    have hadapter := congrArg Snapshot.adapter
      (snapshot_attach rowsCache rowsPaging false false 0 (.empty 100)
        { collection := { idField := "id" }, ids := ⟨fun n => toString n, 0⟩
          clock := ⟨fun n => toString n, 0⟩, cache := .start "rows" false 0 (.empty 100) })
    rw [show noRows.cache.adapter = rowsCache.adapter.afterGet rowsCache.keys.version (.empty 100)
      from hadapter]
    exact TickingCache.remembersUndeleted.get hempty _
  have hrun : TurnRun rowsCache rowsPaging false [] [audit] TickingCache.Holds (noRows, ())
      _ (emptyListed [] [audit]) := .turn .start (.call (.getAll firstPage))
  have hchanged : (rowAudited [] [audit]).1.collection ≠ (emptyListed [] [audit]).1.collection := by
    intro heq
    exact absurd (congrArg (·.docs.length) heq) (by decide +kernel)
  have hok : ((r.getAll firstPage).runOn (rowAudited [] [audit])).1.toOption.isSome = true := by
    decide +kernel
  rcases hresult : ((r.getAll firstPage).runOn (rowAudited [] [audit])).1 with f | result
  · rw [hresult] at hok
    cases hok
  have hcreated : (CacheTurn.run rowsCache cacheOf r (.call (.create [("id", .int 1)]))).runOn
      (emptyListed [] [audit]) = (_, rowAudited [] [audit]) := rfl
  have hroom : ∀ x ∈ [TurnMoment.mk (.call (.create [("id", .int 1)]))
        (emptyListed [] [audit]).1.cache.version.current (emptyListed [] [audit]).1.collection,
        ⟨.call (.getAll firstPage), noRows.cache.version.current, noRows.collection⟩],
      ListVersion.HasNext x.version := by
    simp only [List.forall_mem_cons]
    exact ⟨by decide +kernel, by decide +kernel, List.forall_mem_nil _⟩
  refine ⟨by decide +kernel, result, rfl, ?_⟩
  rcases getAll_after_change rfl TickingCache.remembersUndeleted.toRemembers (List.forall_mem_nil _)
    (List.forall_mem_singleton.mpr audit_bystander) hnothing (fun _ _ _ => rfl) hrun hcreated
    hchanged (Or.inl (List.forall_mem_nil _)) .start hroom hresult with
    hlisted | ⟨h, hh, hserves⟩ | ⟨x, hx, -⟩
  · exact hlisted
  · cases List.mem_singleton.mp hh
    exact absurd hserves (not_serves_audit _)
  · cases hx

/-- The audit ahead of caching fails the creation, too, and caching does not hear of it: the row is
there, and the empty list of before is served. -/
theorem getAll_stale_rowAudited :
    let r := repository rowsCache rowsPaging false [audit] []
    (((r.create [("id", .int 1)]).runOn (emptyListed [audit] [])).1.toOption.isNone = true) ∧
      (rowAudited [audit] []).1.collection ≠ (emptyListed [audit] []).1.collection ∧
      ∃ text result, rowsCache.adapter.reply (rowsCache.keys.list 0 firstPage.mode)
          (emptyListed [audit] []).1.cache.adapter = some text ∧
        ListResult.ofText? text = some result ∧
        ((r.getAll firstPage).runOn (rowAudited [audit] [])).1 = .ok result ∧
        (rowAudited [audit] []).1.collection.listed rowsPaging firstPage.mode ≠ .ok result := by
  intro r
  have hchanged : (rowAudited [audit] []).1.collection ≠ (emptyListed [audit] []).1.collection := by
    intro heq
    exact absurd (congrArg (·.docs.length) heq) (by decide +kernel)
  have hempty : ((r.getAll firstPage).runOn (rowAudited [audit] [])).1.toOption.map
      (·.docs.length) = some 0 := by decide +kernel
  have hlisted : ((rowAudited [audit] []).1.collection.listed rowsPaging
      firstPage.mode).toOption.map (·.docs.length) = some 1 := by decide +kernel
  rcases hresult : ((r.getAll firstPage).runOn (rowAudited [audit] [])).1 with f | result
  · rw [hresult] at hempty
    cases hempty
  rw [hresult] at hempty
  have hstale : (rowAudited [audit] []).1.collection.listed rowsPaging firstPage.mode ≠
      .ok result := by
    intro heq
    rw [heq, hempty] at hlisted
    cases hlisted
  have hversion : (rowAudited [audit] []).1.cache.version.current = 0 := by decide +kernel
  have hkept : rowsCache.adapter.reply (rowsCache.keys.list 0 firstPage.mode)
      (rowAudited [audit] []).1.cache.adapter =
      rowsCache.adapter.reply (rowsCache.keys.list 0 firstPage.mode)
        (emptyListed [audit] []).1.cache.adapter := by decide +kernel
  refine ⟨by decide +kernel, hchanged, ?_⟩
  rcases getAll_returned rowsPaging false rfl (List.forall_mem_singleton.mpr audit_bystander)
    (List.forall_mem_nil _) hresult with hnow | ⟨h, hh, hserves⟩ | ⟨text, hreply, hread⟩
  · exact absurd hnow hstale
  · cases List.mem_singleton.mp hh
    exact absurd hserves (not_serves_audit _)
  · rw [hversion, hkept] at hreply
    exact ⟨text, result, hreply, hread, rfl, hstale⟩

end HookedStore
end Quire
