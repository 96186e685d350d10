import Quire.Proofs.AdapterWrites
import Quire.Proofs.ResultTexts

/-!
# Kept reads

The key of a single document carries no version, and only a write or an invalidation by identifier
drops it. So a read of one document returns what the store finds now, or what it found for an
earlier read with the same key. Where the adapter loses nothing, a document that is kept is what the
read goes on to return until such a write is made: writes to several documents at once and creations
leave it in place, and what was kept for a read by filter is never dropped.
-/
namespace Quire

/-- An operation of a run, with the collection before it. -/
structure Moment where
  op : CachedOp
  collection : Collection

namespace CachedStore

variable {κ : Type}

/-- Operations one after another, the last one first. Between them the adapter may lose entries. -/
inductive LoggedRun (p : CachePlugin κ) (settings : PagingSettings) (timestamps : Bool)
    (Holds : κ → CacheMemory → Prop) (start : CachedStore κ) : List Moment → CachedStore κ → Prop
  | start : LoggedRun p settings timestamps Holds start [] start
  | perform {log : List Moment} {w : CachedStore κ}
      (before : LoggedRun p settings timestamps Holds start log w) (op : CachedOp) :
      LoggedRun p settings timestamps Holds start (⟨op, w.collection⟩ :: log)
        ((op.perform p (repository p settings timestamps)).runOn w).2
  | lose {log : List Moment} {w : CachedStore κ}
      (before : LoggedRun p settings timestamps Holds start log w) {k : κ}
      (hk : ∀ m, Holds w.cache.adapter m → Holds k m) :
      LoggedRun p settings timestamps Holds start log
        { w with cache := { w.cache with adapter := k } }

/-- A run goes on with operations one after another. -/
theorem LoggedRun.afterAll {p : CachePlugin κ} {settings : PagingSettings} {timestamps : Bool}
    {Holds : κ → CacheMemory → Prop} {start w : CachedStore κ} {log : List Moment}
    (hrun : LoggedRun p settings timestamps Holds start log w) (ops : List CachedOp) :
    ∃ log', LoggedRun p settings timestamps Holds start log'
      (Action.afterAll (CachedOp.perform p (repository p settings timestamps)) ops w) := by
  induction ops generalizing log w with
  | nil => exact ⟨log, hrun⟩
  | cons op ops ih => exact ih (.perform hrun op)

/-- How a text can still be there under a key: it was there when the run began, or a read of one
document kept it at some moment, and no operation has dropped the key since. -/
def StillKept (keys : CacheKeys) (settings : PagingSettings) (m : CacheMemory) (log : List Moment)
    (key text : String) : Prop :=
  (m key = some text ∧ ∀ x ∈ log, ¬ x.op.Drops keys key) ∨
    ∃ later x earlier, log = later ++ x :: earlier ∧ (∀ y ∈ later, ¬ y.op.Drops keys key) ∧
      x.op.KeepsText keys settings x.collection key text

namespace StillKept

variable {keys : CacheKeys} {settings : PagingSettings} {m : CacheMemory} {log : List Moment}
  {key text : String}

theorem cons (h : StillKept keys settings m log key text) {x : Moment}
    (hx : ¬ x.op.Drops keys key) : StillKept keys settings m (x :: log) key text := by
  rcases h with ⟨hm, hlog⟩ | ⟨later, y, earlier, rfl, hlater, hkeeps⟩
  · exact Or.inl ⟨hm, List.forall_mem_cons.mpr ⟨hx, hlog⟩⟩
  · exact Or.inr ⟨x :: later, y, earlier, rfl, List.forall_mem_cons.mpr ⟨hx, hlater⟩, hkeeps⟩

theorem now {x : Moment} (h : x.op.KeepsText keys settings x.collection key text) :
    StillKept keys settings m (x :: log) key text :=
  Or.inr ⟨[], x, log, rfl, by simp, h⟩

end StillKept

variable {p : CachePlugin κ} {settings : PagingSettings} {timestamps : Bool}
  {Holds : κ → CacheMemory → Prop} {m : CacheMemory}

/-- The adapter remembers nothing under the keys of single documents but what is still kept. -/
def RemembersKept (p : CachePlugin κ) (settings : PagingSettings) (Holds : κ → CacheMemory → Prop)
    (m : CacheMemory) (log : List Moment) (k : κ) : Prop :=
  ∃ m', Holds k m' ∧ ∀ (q : SingleRead) (text : String), m' (q.key p.keys) = some text →
    StillKept p.keys settings m log (q.key p.keys) text

/-- One more operation drops its entry, and keeps what it reads. -/
theorem RemembersKept.perform (henabled : p.settings.enabled = true)
    (hadapter : p.adapter.RemembersUndeleted Holds) {log : List Moment} {w : CachedStore κ}
    (h : RemembersKept p settings Holds m log w.cache.adapter) (op : CachedOp) :
    RemembersKept p settings Holds m (⟨op, w.collection⟩ :: log)
      ((op.perform p (repository p settings timestamps)).runOn w).2.cache.adapter := by
  obtain ⟨m₀, hm₀, hkept⟩ := h
  -- What the drop leaves is what was kept under a key that is not dropped.
  obtain ⟨m₁, hm₁, hdropped⟩ : ∃ m₁, Holds (op.afterDrop p w.cache.adapter) m₁ ∧
      ∀ key text, m₁ key = some text → m₀ key = some text ∧ ¬ op.Drops p.keys key := by
    rw [CachedOp.afterDrop]
    cases hop : op.dropped? with
    | none =>
      refine ⟨m₀, hm₀, fun key text hget => ⟨hget, ?_⟩⟩
      rintro ⟨id, hid, -⟩
      rw [hop] at hid
      cases hid
    | some id =>
      refine ⟨_, hadapter.delete_key hm₀ (p.keys.byId id), fun key text hget => ?_⟩
      by_cases hkey : key = p.keys.byId id
      · rw [hkey, Function.update_self] at hget
        cases hget
      · rw [Function.update_of_ne hkey] at hget
        refine ⟨hget, ?_⟩
        rintro ⟨id', hid', hsame⟩
        cases hop.symm.trans hid'
        exact hkey hsame.symm
  obtain ⟨m₂, hm₂, hwritten⟩ := hadapter.toRemembers.steps
    (op.steps_perform p settings timestamps henabled w) hm₁
  refine ⟨m₂, hm₂, fun q text hget => ?_⟩
  rcases hwritten _ _ hget with hbefore | hkeeps | hother
  · obtain ⟨hthere, hundropped⟩ := hdropped _ _ hbefore
    exact (hkept q text hthere).cons hundropped
  · exact .now hkeeps
  · exact absurd rfl (hother q)

theorem LoggedRun.remembersKept (henabled : p.settings.enabled = true)
    (hadapter : p.adapter.RemembersUndeleted Holds) {start w : CachedStore κ}
    (hm : Holds start.cache.adapter m) {log : List Moment}
    (hrun : LoggedRun p settings timestamps Holds start log w) :
    RemembersKept p settings Holds m log w.cache.adapter := by
  induction hrun with
  | start => exact ⟨m, hm, fun q text hget => Or.inl ⟨hget, by simp⟩⟩
  | perform _ op ih => exact ih.perform henabled hadapter op
  | lose _ hk ih =>
    obtain ⟨m', hm', hkept⟩ := ih
    exact ⟨m', hk m' hm', hkept⟩

/-- A read that looks into the cache returns a document that the adapter answers with. -/
theorem run_result_of_reply (henabled : p.settings.enabled = true) {q : SingleRead}
    (hasks : q.asksCache = true) {w : CachedStore κ} {text : String}
    (hreply : p.adapter.reply (q.key p.keys) w.cache.adapter = some text) {d : Document}
    (hread : Document.ofText? text = some d) :
    ((q.run (repository p settings timestamps)).runOn w).1 = .ok (some d) := by
  rw [q.run_result p settings timestamps henabled hasks w, hreply, Option.bind_some, hread,
    Option.some_or]

/-- A read of one document that looks into the cache returns the document that the adapter answers
with, and otherwise what the store finds now; any other read returns what the store finds now. The
adapter answers only with what an earlier read with the same key kept of what the store found then,
while nothing has dropped the key since, or with what it held before the run. An adapter that loses
nothing goes on to answer with a document, and the read to return it, through all operations that do
not drop the key by identifier or clear everything. -/
theorem single_read_kept_or_now (henabled : p.settings.enabled = true)
    (hadapter : p.adapter.RemembersUndeleted Holds) {start w : CachedStore κ} {k : κ}
    (hm : Holds k m) {publish : Bool} {version : Nat} {log : List Moment}
    (hrun : LoggedRun p settings timestamps Holds
      (attach p settings timestamps publish version k start) log w) (q : SingleRead) :
    ((q.run (repository p settings timestamps)).runOn w).1 =
        .ok (if q.asksCache then
          ((p.adapter.reply (q.key p.keys) w.cache.adapter).bind Document.ofText?).or
            (w.collection.selectOne (q.query settings))
        else w.collection.selectOne (q.query settings)) ∧
      (∀ text, p.adapter.reply (q.key p.keys) w.cache.adapter = some text →
        StillKept p.keys settings m log (q.key p.keys) text) ∧
      (p.adapter.Lossless → ∀ text d,
        p.adapter.reply (q.key p.keys) w.cache.adapter = some text →
        Document.ofText? text = some d → ∀ ops : List CachedOp,
        (∀ op ∈ ops, op ≠ .invalidateAll ∧
          ∀ id o, q = .byId id o → ¬ op.Drops p.keys (p.keys.byId id)) →
        let later :=
          Action.afterAll (CachedOp.perform p (repository p settings timestamps)) ops w
        p.adapter.reply (q.key p.keys) later.cache.adapter = some text ∧
          (q.asksCache = true →
            ((q.run (repository p settings timestamps)).runOn later).1 = .ok (some d))) := by
  have hattached :
      Holds (attach p settings timestamps publish version k start).cache.adapter m := by
    have hadapter' := congrArg Snapshot.adapter
      (snapshot_attach p settings timestamps publish version k start)
    rw [show (attach p settings timestamps publish version k start).cache.adapter =
      p.adapter.afterGet p.keys.version k from hadapter']
    exact hadapter.get hm _
  refine ⟨?_, fun text hreply => ?_, fun hlossless text d hreply hread ops hops => ?_⟩
  · cases hasks : q.asksCache with
    | true => exact q.run_result p settings timestamps henabled hasks w
    | false => exact q.run_result_of_not_asksCache p settings timestamps henabled hasks w
  · obtain ⟨m', hm', hkept⟩ := hrun.remembersKept henabled hadapter hattached
    exact hkept q text (hadapter.reply hm' hreply)
  · have hlater := CachedOp.reply_afterAll settings timestamps henabled hlossless
      (fun op hop => ⟨(hops op hop).1, CachedOp.not_drops (hops op hop).2⟩) hreply hread
    exact ⟨hlater, fun hasks => run_result_of_reply henabled hasks hlater hread⟩

/-! ## A row that stays in the cache -/

/-- A memory as an adapter, which loses nothing. -/
def memoryAdapter : CacheAdapter CacheMemory where
  get key := Action.ofStep fun m => (m key, m)
  set key text _ := Action.ofStep fun m => ((), Function.update m key (some text))
  delete key := Action.ofStep fun m => ((m key).isSome, Function.update m key none)
  supportsClear := false
  clear := CacheAdapter.refuseClear
  isEnabled := true

/-- All texts of one memory are those of another. -/
def MemoryWithin (k m : CacheMemory) : Prop := ∀ key text, k key = some text → m key = some text

theorem MemoryWithin.update {k m : CacheMemory} (h : MemoryWithin k m) (key : String)
    (text? : Option String) :
    MemoryWithin (Function.update k key text?) (Function.update m key text?) := by
  intro other text hget
  by_cases hkey : other = key
  · subst hkey
    rwa [Function.update_self] at hget ⊢
  · rw [Function.update_of_ne hkey] at hget ⊢
    exact h other text hget

theorem MemoryWithin.erase {k m : CacheMemory} (h : MemoryWithin k m) (key : String) :
    MemoryWithin (Function.update k key none) m := by
  intro other text hget
  by_cases hkey : other = key
  · subst hkey
    rw [Function.update_self] at hget
    cases hget
  · rw [Function.update_of_ne hkey] at hget
    exact h other text hget

theorem lossless_memoryAdapter : memoryAdapter.Lossless where
  get _ _ _ := rfl
  set _ _ _ _ _ hne := Function.update_of_ne hne _ _
  delete _ _ _ hne := Function.update_of_ne hne _ _

theorem remembersUndeleted_memoryAdapter : memoryAdapter.RemembersUndeleted MemoryWithin where
  reply hk := hk _ _
  get hk _ := hk
  set_ok := by
    intro k m hk key text ttl _
    exact hk.update key (some text)
  set_error := by
    intro k m hk key text ttl f herror
    cases herror
  delete hk key := hk.erase key
  clear hk _ := hk
  delete_key hk key := hk.update key none

/-- Caching for a collection of rows that loses nothing. -/
def keepingRows : CachePlugin CacheMemory where
  keys := rowsCache.keys
  settings := {}
  adapter := memoryAdapter

/-- No rows yet, and nothing in the cache. -/
def noKeptRows : CachedStore CacheMemory :=
  attach keepingRows rowsPaging false false 0 (fun _ => none)
    { collection := { idField := "id" }, ids := ⟨fun n => toString n, 0⟩
      clock := ⟨fun n => toString n, 0⟩, cache := .start "rows" false 0 fun _ => none }

/-- A row is created and read. -/
def keptRow : CachedStore CacheMemory :=
  Action.afterAll (CachedOp.perform keepingRows (repository keepingRows rowsPaging false))
    [.create [("id", .int 1), ("n", .int 5)], .getById (.int 1) {}] noKeptRows

/-- All rows are changed, deleted and created again. -/
def rewriteRows : List CachedOp :=
  [.updateMany .all [("n", .int 6)], .deleteMany .all, .create [("id", .int 1), ("n", .int 7)]]

/-- The row is in the cache since it was read, and a read returns it after all rows have been
rewritten. -/
theorem single_read_kept_or_now_keptRow :
    ∃ log, LoggedRun keepingRows rowsPaging false MemoryWithin noKeptRows log keptRow ∧
      ∃ text d, memoryAdapter.reply (keepingRows.keys.byId (.int 1)) keptRow.cache.adapter =
          some text ∧
        Document.ofText? text = some d ∧
        StillKept keepingRows.keys rowsPaging (fun _ => none) log
          (keepingRows.keys.byId (.int 1)) text ∧
        (((repository keepingRows rowsPaging false).getById (.int 1) {}).runOn
          (Action.afterAll (CachedOp.perform keepingRows (repository keepingRows rowsPaging false))
            rewriteRows keptRow)).1 = .ok (some d) := by
  have hnothing : MemoryWithin (fun _ => none) fun _ => none := fun _ _ hget => hget
  obtain ⟨log, hrun⟩ := LoggedRun.afterAll (.start : LoggedRun keepingRows rowsPaging false
    MemoryWithin noKeptRows [] noKeptRows)
    [.create [("id", .int 1), ("n", .int 5)], .getById (.int 1) {}]
  obtain ⟨-, hkept, hstays⟩ := single_read_kept_or_now rfl remembersUndeleted_memoryAdapter
    hnothing hrun (.byId (.int 1) {})
  have hthere : ((memoryAdapter.reply (keepingRows.keys.byId (.int 1))
      keptRow.cache.adapter).bind Document.ofText?).isSome = true := by decide +kernel
  obtain ⟨d, hd⟩ := Option.isSome_iff_exists.mp hthere
  obtain ⟨text, hreply, hread⟩ := Option.bind_eq_some_iff.mp hd
  have hspares : ∀ op ∈ rewriteRows, op ≠ .invalidateAll ∧ ∀ id o,
      SingleRead.byId (.int 1) {} = .byId id o →
        ¬ op.Drops keepingRows.keys (keepingRows.keys.byId id) := by
    simp [rewriteRows, CachedOp.Drops, CachedOp.dropped?]
  exact ⟨log, hrun, text, d, hreply, hread, hkept text hreply,
    (hstays lossless_memoryAdapter text d hreply hread rewriteRows hspares).2 rfl⟩

/-! ## A row that is changed with all others -/

/-- A row that is read by identifier and by filter, before all rows are changed at once. -/
def rowsChanged : CachedStore TickingCache :=
  afterOp (.updateMany .all [("n", .int 6)]) (afterOp (.getByQuery .all {})
    (afterOp (.getById (.int 1) {}) (afterOp (.create [("id", .int 1), ("n", .int 5)]) noRows)))

theorem loggedRun_rowsChanged :
    ∃ c log, LoggedRun rowsCache rowsPaging false TickingCache.Holds noRows
      (⟨.updateMany .all [("n", .int 6)], c⟩ :: log) rowsChanged :=
  ⟨_, _, .perform (.perform (.perform (.perform .start (.create [("id", .int 1), ("n", .int 5)]))
    (.getById (.int 1) {})) (.getByQuery .all {})) (.updateMany .all [("n", .int 6)])⟩

/-- After all rows have been changed, neither the read by identifier nor the one by filter returns
what the store holds. -/
theorem single_reads_stale_rowsChanged :
    ∃ c log, LoggedRun rowsCache rowsPaging false TickingCache.Holds noRows
        (⟨.updateMany .all [("n", .int 6)], c⟩ :: log) rowsChanged ∧
      (((repository rowsCache rowsPaging false).getById (.int 1) {}).runOn rowsChanged).1 ≠
        .ok (rowsChanged.collection.selectOne { filter := .byId "id" (.int 1) }) ∧
      (((repository rowsCache rowsPaging false).getByQuery .all {}).runOn rowsChanged).1 ≠
        .ok (rowsChanged.collection.selectOne { filter := .all }) := by
  have hreads : ∀ out : Except Fault (Option Document), ∀ found : Option Document,
      (out.toOption.any fun d => d.any fun d => (d.fieldOrNull "n").equal (.int 5)) = true →
      (found.any fun d => (d.fieldOrNull "n").equal (.int 5)) = false → out ≠ .ok found := by
    rintro _ found hold hnew rfl
    rw [Except.toOption, Option.any_some, hnew] at hold
    cases hold
  obtain ⟨c, log, hrun⟩ := loggedRun_rowsChanged
  exact ⟨c, log, hrun, hreads _ _ (by decide +kernel) (by decide +kernel),
    hreads _ _ (by decide +kernel) (by decide +kernel)⟩

end CachedStore
end Quire
