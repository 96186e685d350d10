import Quire.Proofs.InterleavedLists
import Quire.Proofs.Restarts

/-!
# Invalidated lists

However the steps of list reads and writes interleave, a list read that begins after a write has
settled returns what some read of the store gave after the change of that write. The key of a list
is fixed before the store is read, and versions only grow, so a list that is kept under a version
was read after every write that had settled with that version or an earlier one.
-/
namespace Quire

open TrafficEvent

/-- A kept list is read from a text that the adapter answers with. -/
theorem CachePlugin.exists_of_keptList? {κ : Type} (p : CachePlugin κ) {version : Nat}
    {mode : ListMode} {k : κ} {q : ListResult} (h : p.keptList? version mode k = some q) :
    ∃ text, p.adapter.reply (p.keys.list version mode) k = some text ∧
      ListResult.ofText? text = some q := by
  rw [keptList?] at h
  cases hreply : p.adapter.reply (p.keys.list version mode) k with
  | none =>
    rw [hreply] at h
    cases h
  | some text =>
    rw [hreply, Option.bind_some, readList?] at h
    cases hread : ListResult.ofText? text with
    | none =>
      rw [hread] at h
      cases h
    | some found =>
      rw [hread] at h
      cases CachedStore.eq_of_servedList? h
      exact ⟨text, rfl, hread⟩

/-- What a read of the store gave and what a list read returns: the same, or the list that its text
is read as. -/
inductive Conveyed : Except Fault ListResult → Except Fault ListResult → Prop
  | direct (x : Except Fault ListResult) : Conveyed x x
  | kept {r q : ListResult} (h : ListResult.ofText? r.toValue.text = some q) :
      Conveyed (.ok r) (.ok q)

/-- Lists of documents with whole numbers are conveyed as they are. -/
theorem Conveyed.eq_listed {c : Collection} (hsound : c.Sound Value.isWhole64)
    {settings : PagingSettings} {mode : ListMode} {out : Except Fault ListResult}
    (h : Conveyed (c.listed settings mode) out) : out = c.listed settings mode := by
  generalize hfound : c.listed settings mode = found at h ⊢
  cases h with
  | direct => rfl
  | kept hread => rw [ListResult.eq_of_ofText? (hsound.plainDocuments hfound) hread]

namespace TrafficEvent

/-- A write settles with a later version only. -/
def Raises (version : Nat) (event : TrafficEvent ListRequest) : Prop :=
  ∀ j e n, event = .settled j e n → version < n

variable {settings : PagingSettings} {log : List (TrafficEvent ListRequest)}
  {event : TrafficEvent ListRequest} {e : AfterEvent} {i j n version : Nat} {mode : ListMode}
  {P : Except Fault ListResult → Prop}

theorem Raises.of_ne (he : ∀ j e n, event ≠ .settled j e n) : event.Raises version :=
  fun j e n h => absurd h (he j e n)

theorem Raises.settled_mem (he : event.Raises version) (hn : n ≤ version)
    (hmem : .settled j e n ∈ log ++ [event]) : .settled j e n ∈ log := by
  rcases List.mem_append.mp hmem with hlog | hlast
  · exact hlog
  · exact absurd hn (Nat.not_le_of_lt (he j e n (List.mem_singleton.mp hlast).symm))

/-- What a read of the store gave after the change of a write. -/
def FoundAfter (settings : PagingSettings) (log : List (TrafficEvent ListRequest)) (j : Nat)
    (mode : ListMode) (x : Except Fault ListResult) : Prop :=
  ∃ i request c, Log.Before log (.changed j) (.fetched i request c) ∧ request.mode = mode ∧
    c.listed settings mode = x

theorem FoundAfter.concat {x : Except Fault ListResult} (h : FoundAfter settings log j mode x)
    (event : TrafficEvent ListRequest) : FoundAfter settings (log ++ [event]) j mode x := by
  obtain ⟨i, request, c, horder, hx⟩ := h
  exact ⟨i, request, c, horder.concat event, hx⟩

/-- For every write that had settled when a read began, a condition on something that was found
after the change of the write. -/
def UpToDate (settings : PagingSettings) (log : List (TrafficEvent ListRequest)) (i : Nat)
    (mode : ListMode) (P : Except Fault ListResult → Prop) : Prop :=
  ∀ j e n, Log.Before log (.settled j e n) (.began i) → ∃ x, FoundAfter settings log j mode x ∧ P x

theorem UpToDate.concat (he : event ≠ .began i) (h : UpToDate settings log i mode P) :
    UpToDate settings (log ++ [event]) i mode P := by
  intro j e n horder
  obtain ⟨x, hfound, hx⟩ := h j e n (horder.of_concat he.symm)
  exact ⟨x, hfound.concat event, hx⟩

theorem UpToDate.conveyed {out : Except Fault ListResult}
    (h : UpToDate settings log i mode fun x => x = out) :
    UpToDate settings log i mode fun x => Conveyed x out := by
  intro j e n horder
  obtain ⟨x, hfound, rfl⟩ := h j e n horder
  exact ⟨x, hfound, .direct x⟩

end TrafficEvent

namespace Traffic

variable {κ : Type} {p : CachePlugin κ} {settings : PagingSettings} {modes : ListMode → Prop}
  {Holds : κ → CacheMemory → Prop}

/-- The key that a read has noted is that of its list under some version. What had settled with
that version or an earlier one had settled when the read began. -/
def KeyedAt (p : CachePlugin κ) (log : List (TrafficEvent ListRequest)) (version i : Nat)
    (mode : ListMode) (key : String) : Prop :=
  p.settings.enabled = true ∧ ∃ v ≤ version, key = p.keys.list v mode ∧
    ∀ j e n, .settled j e n ∈ log → n ≤ v → Log.Before log (.settled j e n) (.began i)

/-- What is known of a read at each of its phases. -/
def Tracked (p : CachePlugin κ) (settings : PagingSettings) (modes : ListMode → Prop)
    (log : List (TrafficEvent ListRequest)) (version i : Nat) :
    ReadPhase ListRequest ListResult → Prop
  | .waiting => True
  | .begun request context =>
    modes request.mode ∧
      (∀ key, context.cacheKey = some key → KeyedAt p log version i request.mode key) ∧
      ∀ q, Repository.servedList? request.mode context.served = some q →
        context.servedFromCache = true ∧
          UpToDate settings log i request.mode fun x => Conveyed x (.ok q)
  | .answered request context result =>
    modes request.mode ∧
      (∀ key, context.cacheKey = some key → KeyedAt p log version i request.mode key) ∧
      UpToDate settings log i request.mode (fun x => Conveyed x (.ok result)) ∧
      (context.servedFromCache = false →
        UpToDate settings log i request.mode fun x => x = .ok result)
  | .finished request out => UpToDate settings log i request.mode fun x => Conveyed x out

/-- A text kept for a list under a version. For every write that settled with that version or an
earlier one, it is the text of a list that was found after the change of the write. -/
def KeptSince (settings : PagingSettings) (log : List (TrafficEvent ListRequest)) (version : Nat)
    (l : Nat × ListMode) (text : String) : Prop :=
  l.1 ≤ version ∧ ∀ j e n, .settled j e n ∈ log → n ≤ l.1 →
    ∃ r : ListResult, text = r.toValue.text ∧ FoundAfter settings log j l.2 (.ok r)

section Later

variable {log : List (TrafficEvent ListRequest)} {event : TrafficEvent ListRequest}
  {i version version' : Nat}

theorem KeyedAt.concat (hversion : version ≤ version')
    (he : p.settings.enabled = true → event.Raises version) {mode : ListMode} {key : String}
    (h : KeyedAt p log version i mode key) : KeyedAt p (log ++ [event]) version' i mode key := by
  obtain ⟨henabled, v, hv, hkey, hsettled⟩ := h
  refine ⟨henabled, v, hv.trans hversion, hkey, fun j e n hmem hn => ?_⟩
  have hbefore := (he henabled).settled_mem (hn.trans hv) hmem
  exact (hsettled j e n hbefore hn).concat event

/-- What is known of a read stays known when others take their steps. -/
theorem Tracked.concat (hbegan : event ≠ .began i) (hversion : version ≤ version')
    (he : p.settings.enabled = true → event.Raises version)
    {phase : ReadPhase ListRequest ListResult}
    (h : Tracked p settings modes log version i phase) :
    Tracked p settings modes (log ++ [event]) version' i phase := by
  cases phase with
  | waiting => trivial
  | begun request context =>
    obtain ⟨hmode, hkey, hserved⟩ := h
    exact ⟨hmode, fun key hk => (hkey key hk).concat hversion he,
      fun q hq => ⟨(hserved q hq).1, (hserved q hq).2.concat hbegan⟩⟩
  | answered request context result =>
    obtain ⟨hmode, hkey, hresult, hfetched⟩ := h
    exact ⟨hmode, fun key hk => (hkey key hk).concat hversion he, hresult.concat hbegan,
      fun hs => (hfetched hs).concat hbegan⟩
  | finished request out => exact UpToDate.concat hbegan h

theorem KeptSince.concat (hversion : version ≤ version') (he : event.Raises version)
    {l : Nat × ListMode} {text : String} (h : KeptSince settings log version l text) :
    KeptSince settings (log ++ [event]) version' l text := by
  refine ⟨h.1.trans hversion, fun j e n hmem hn => ?_⟩
  obtain ⟨r, htext, hfound⟩ := h.2 j e n (he.settled_mem (hn.trans h.1) hmem) hn
  exact ⟨r, htext, hfound.concat event⟩

end Later

/-- The invariant of interleaved list reads and writes, from a version on. -/
structure Coherent (p : CachePlugin κ) (settings : PagingSettings) (modes : ListMode → Prop)
    (Holds : κ → CacheMemory → Prop) (start : Nat) (s : Traffic κ ListRequest ListResult) :
    Prop where
  version_le : s.cache.version.current ≤ start + s.settlements
  settled_le : ∀ j e n, .settled j e n ∈ s.log → n ≤ s.cache.version.current
  reads : ∀ i, Tracked p settings modes s.log s.cache.version.current i (s.reads i)
  kept : p.settings.enabled = true →
    ListsKept p modes Holds (KeptSince settings s.log s.cache.version.current) s.cache.adapter

namespace Coherent

variable {s : Traffic κ ListRequest ListResult} {start : Nat}

/-- At first the adapter holds no lists under later versions. -/
theorem quiet {collection : Collection} {cache : CacheState κ} {m : CacheMemory}
    (hm : Holds cache.adapter m)
    (hnone : ∀ v mode, modes mode → cache.version.current < v → m (p.keys.list v mode) = none) :
    Coherent p settings modes Holds cache.version.current (quiet collection cache) where
  version_le := Nat.le_refl _
  settled_le j e n hmem := absurd hmem List.not_mem_nil
  reads i := trivial
  kept _ := by
    refine ⟨m, hm, fun l text hmode hget =>
      ⟨?_, fun j e n hmem => absurd hmem List.not_mem_nil⟩⟩
    by_contra hlater
    rw [hnone l.1 l.2 hmode (Nat.lt_of_not_le hlater)] at hget
    cases hget

/-- A list that is kept under the present version is up to date for a read that begins now. -/
theorem keptList (hadapter : p.adapter.Remembers Holds)
    (h : Coherent p settings modes Holds start s) (henabled : p.settings.enabled = true)
    {mode : ListMode} (hmode : modes mode) {q : ListResult}
    (hkept : p.keptList? s.cache.version.current mode s.cache.adapter = some q) (i : Nat) :
    UpToDate settings (s.log ++ [.began i]) i mode fun x => Conveyed x (.ok q) := by
  obtain ⟨text, hreply, hread⟩ := p.exists_of_keptList? hkept
  obtain ⟨-, hlists⟩ := (h.kept henabled).reply hadapter
    (i := (s.cache.version.current, mode)) hmode hreply
  intro j e n horder
  have hmem : .settled j e n ∈ s.log := by simpa using horder.left_mem
  -- No write has settled with a later version than the present one, so the text covers them all.
  obtain ⟨r, rfl, hfound⟩ := hlists j e n hmem (h.settled_le j e n hmem)
  exact ⟨.ok r, hfound.concat _, .kept hread⟩

/-- The cache may change under the same version where the texts in it stay as they are required. -/
theorem withCache (h : Coherent p settings modes Holds start s) {cache : CacheState κ}
    (hversion : cache.version = s.cache.version)
    (hkept : p.settings.enabled = true → ListsKept p modes Holds
      (KeptSince settings s.log s.cache.version.current) cache.adapter) :
    Coherent p settings modes Holds start { s with cache } := by
  obtain ⟨version, stats, adapter⟩ := cache
  cases hversion
  exact ⟨h.version_le, h.settled_le, h.reads, hkept⟩

/-- A step of a read is logged. -/
theorem logRead (h : Coherent p settings modes Holds start s) {event : TrafficEvent ListRequest}
    (he : event.isSettled = false) {i : Nat} (hbegan : ∀ j, j ≠ i → event ≠ .began j)
    {phase : ReadPhase ListRequest ListResult}
    (hphase : Tracked p settings modes (s.log ++ [event]) s.cache.version.current i phase) :
    Coherent p settings modes Holds start
      { s with reads := Function.update s.reads i phase, log := s.log ++ [event] } := by
  have hplain : ∀ j e n, event ≠ .settled j e n := by
    rintro j e n rfl
    cases he
  refine ⟨h.version_le.trans (Nat.add_le_add_left ?_ _), fun j e n hmem => ?_,
    Function.forall_update_iff _ _ |>.mpr ⟨hphase, fun j hj => ?_⟩, fun henabled => ?_⟩
  · exact (List.sublist_append_left _ _).countP_le
  · exact h.settled_le j e n (by simpa [(hplain j e n).symm] using hmem)
  · exact (h.reads j).concat (hbegan j hj) le_rfl fun _ => .of_ne hplain
  · exact (h.kept henabled).mono fun l text _ htext => htext.concat le_rfl (.of_ne hplain)

/-- A read that notes the key of its list under the present version begins well. -/
theorem noted (hadapter : p.adapter.Remembers Holds)
    (h : Coherent p settings modes Holds start s) (henabled : p.settings.enabled = true) (i : Nat)
    {request : ListRequest} (hmode : modes request.mode) :
    Tracked p settings modes (s.log ++ [.began i]) s.cache.version.current i
      (.begun request (.noted (p.keys.list s.cache.version.current request.mode)
        ((p.adapter.reply (p.keys.list s.cache.version.current request.mode)
          s.cache.adapter).bind CachePlugin.readList?) { skipCache := request.skipCache })) := by
  refine ⟨hmode, fun key hk => ?_, fun q hq => ?_⟩
  · cases hk
    refine ⟨henabled, s.cache.version.current, le_rfl, rfl, fun j e n hmem _ => ?_⟩
    exact Log.before_last (by simpa using hmem) _
  · rw [CachedStore.served_noted] at hq
    refine ⟨?_, h.keptList hadapter henabled hmode hq i⟩
    cases hfound : (p.adapter.reply (p.keys.list s.cache.version.current request.mode)
        s.cache.adapter).bind CachePlugin.readList? with
    | none =>
      rw [hfound] at hq
      cases hq
    | some found => rfl

theorem beginRead (hadapter : p.adapter.Remembers Holds)
    (h : Coherent p settings modes Holds start s) (i : Nat) {request : ListRequest}
    (hmode : modes request.mode) :
    Coherent p settings modes Holds start
      (s.beginRead p (.lists p.keys settings modes) i request) := by
  rcases p.runOn_before_getAll request s.cache with hbefore | ⟨henabled, stats, hbefore⟩ <;>
    rw [beginRead_eq (.lists p.keys settings modes) hbefore]
  · exact h.logRead rfl (fun j hj => began_ne hj) ⟨hmode, nofun, nofun⟩
  · have hlogged := h.logRead rfl (fun j hj => began_ne hj) (h.noted hadapter henabled i hmode)
    exact hlogged.withCache rfl fun _ =>
      (hlogged.kept henabled).lose fun m hm => hadapter.get hm _

theorem takeServed (h : Coherent p settings modes Holds start s) {i : Nat}
    {request : ListRequest} {context : HookContext} {result : ListResult}
    (hi : s.reads i = .begun request context)
    (hserved : Repository.servedList? request.mode context.served = some result) :
    Coherent p settings modes Holds start (s.takeServed i request context result) := by
  have hread := h.reads i
  rw [hi] at hread
  obtain ⟨hmode, hkey, hlist⟩ := hread
  obtain ⟨hcached, hresult⟩ := hlist result hserved
  have hphase : Tracked p settings modes s.log s.cache.version.current i
      (.answered request context.take.2 result) :=
    ⟨hmode, hkey, hresult, fun huncached => absurd (hcached.symm.trans huncached) (by decide)⟩
  exact ⟨h.version_le, h.settled_le,
    Function.forall_update_iff _ _ |>.mpr ⟨hphase, fun j _ => h.reads j⟩, h.kept⟩

/-- What the store gives now is found after the change of every write that has settled. -/
theorem fetched {kind : TrafficKind ListRequest ListResult} (hlogged : s.Logged kind) (i : Nat)
    (request : ListRequest) :
    UpToDate settings (s.log ++ [.fetched i request s.collection]) i request.mode fun x =>
      x = s.collection.listed settings request.mode := by
  intro j e n horder
  have hsettled : .settled j e n ∈ s.log := (horder.of_concat (by simp)).left_mem
  exact ⟨_, ⟨i, request, s.collection, Log.before_last (hlogged.settled j e n hsettled) _, rfl,
    rfl⟩, rfl⟩

theorem fetch (h : Coherent p settings modes Holds start s)
    (hlogged : s.Logged (.lists p.keys settings modes)) {i : Nat} {request : ListRequest}
    {context : HookContext} (hi : s.reads i = .begun request context) :
    Coherent p settings modes Holds start
      (s.fetch (.lists p.keys settings modes) i request context) := by
  have hread : Tracked p settings modes (s.log ++ [.fetched i request s.collection]) _ i _ :=
    (h.reads i).concat (by simp) le_rfl fun _ => .of_ne (by simp)
  rw [hi] at hread
  obtain ⟨hmode, hkey, -⟩ := hread
  have hfetched : UpToDate settings _ i request.mode _ := fetched hlogged i request
  refine h.logRead rfl (by simp) ?_
  show Tracked p settings modes _ _ i
    (fetchedPhase request context (s.collection.listed settings request.mode))
  cases hlisted : s.collection.listed settings request.mode with
  | ok result =>
    rw [hlisted] at hfetched
    exact ⟨hmode, hkey, hfetched.conveyed, fun _ => hfetched⟩
  | error f =>
    rw [hlisted] at hfetched
    exact hfetched.conveyed

theorem finishRead (hadapter : p.adapter.Remembers Holds)
    (hmodes : ∀ mode other, modes mode → modes other →
      fingerprint mode.toValue = fingerprint other.toValue → mode = other)
    (h : Coherent p settings modes Holds start s) {i : Nat} {request : ListRequest}
    {context : HookContext} {result : ListResult}
    (hi : s.reads i = .answered request context result) :
    Coherent p settings modes Holds start
      (s.finishRead p (.lists p.keys settings modes) i request context result) := by
  have hread : Tracked p settings modes (s.log ++ [.finished i]) _ i _ :=
    (h.reads i).concat (by simp) le_rfl fun _ => .of_ne (by simp)
  rw [hi] at hread
  obtain ⟨hmode, hkey, hresult, hfetched⟩ := hread
  have hfinished : Coherent p settings modes Holds start { s with
      reads := Function.update s.reads i (.finished request (.ok result))
      log := s.log ++ [.finished i] } := h.logRead rfl (by simp) hresult
  rcases p.runOn_after_getAll request result context s.cache with
    hafter | ⟨-, huncached, key, stats, hcacheKey, hafter⟩ <;>
    rw [finishRead_eq (.lists p.keys settings modes) hafter]
  · exact hfinished
  · -- The key may be of an older version by now. It was noted before the store was read.
    obtain ⟨-, v, hv, rfl, hsettled⟩ := hkey key hcacheKey
    refine hfinished.withCache rfl fun henabled => ?_
    refine (hfinished.kept henabled).set_list hadapter hmodes hmode
      ⟨hv, fun j e n hmem hn => ?_⟩ _
    obtain ⟨x, hfound, rfl⟩ := hfetched huncached j e n (hsettled j e n hmem hn)
    exact ⟨result, rfl, hfound⟩

/-- A step of a write is logged, with a version that is later than before if caching is on. -/
theorem logWrite (h : Coherent p settings modes Holds start s) {event : TrafficEvent ListRequest}
    {version : Nat} (hversion : s.cache.version.current ≤ version)
    (hle : version ≤ start + (s.log ++ [event]).countP (·.isSettled))
    (he : p.settings.enabled = true → event.Raises s.cache.version.current)
    (hbegan : ∀ i, event ≠ .began i) (hsettled : ∀ j e n, event = .settled j e n → n ≤ version)
    (writes : Nat → WritePhase) :
    Coherent p settings modes Holds start { s with
      cache := { s.cache with version := ⟨version⟩ }, writes, log := s.log ++ [event] } := by
  refine ⟨hle, fun i e n hmem => ?_,
    fun i => (h.reads i).concat (hbegan i) hversion he, fun henabled =>
      (h.kept henabled).mono fun l text _ htext => htext.concat hversion (he henabled)⟩
  rcases List.mem_append.mp hmem with hlog | hlast
  · exact (h.settled_le i e n hlog).trans hversion
  · exact hsettled i e n (List.mem_singleton.mp hlast).symm

theorem changeStore (h : Coherent p settings modes Holds start s) (j : Nat) (e : AfterEvent)
    (collection : Collection) :
    Coherent p settings modes Holds start (s.changeStore j e collection) := by
  have hle : s.cache.version.current ≤
      start + (s.log ++ [TrafficEvent.changed j]).countP isSettled :=
    h.version_le.trans (Nat.add_le_add_left (List.sublist_append_left _ _).countP_le _)
  have hlogged := h.logWrite le_rfl hle (fun _ => .of_ne (by simp)) (by simp) (by simp)
    (Function.update s.writes j (.changed e))
  exact ⟨hlogged.version_le, hlogged.settled_le, hlogged.reads, hlogged.kept⟩

/-- A write settles with the next version, as long as the counter has one. -/
theorem settleWrite (hadapter : p.adapter.Remembers Holds)
    (h : Coherent p settings modes Holds start s) {j : Nat} {e : AfterEvent}
    (he : e.operation.isRead = false)
    (hroom : start + (s.settleWrite p j e).settlements < twoPow 64) :
    Coherent p settings modes Holds start (s.settleWrite p j e) := by
  have hcount : ∀ n,
      (s.log ++ [TrafficEvent.settled j e n]).countP isSettled = s.settlements + 1 :=
    fun n => List.countP_append
  rw [settlements_settleWrite] at hroom
  have hstart := h.version_le
  rcases p.runOn_after_write he {} s.cache with ⟨hdisabled, hafter⟩ | ⟨-, stats, hafter⟩ <;>
    rw [settleWrite_eq hafter]
  · refine h.logWrite le_rfl ?_ (fun henabled => ?_) (by simp) (by simp) _
    · rw [hcount]
      omega
    · rw [hdisabled] at henabled
      cases henabled
  · have hnext : ListVersion.next s.cache.version.current = s.cache.version.current + 1 :=
      ListVersion.next_of_hasNext (by rw [ListVersion.HasNext]; omega)
    have hdropped : Coherent p settings modes Holds start { s with
        cache := ⟨s.cache.version, stats,
          p.afterPersist (ListVersion.next s.cache.version.current)
            (p.afterWrite e s.cache.adapter)⟩ } := by
      refine h.withCache rfl fun henabled => ?_
      refine ListsKept.set_other hadapter (fun v mode => p.keys.version_ne_list v mode) _ _ ?_
      have hkept := h.kept henabled
      cases e <;> first | exact hkept | exact hkept.lose fun m hm => hadapter.delete hm _
    refine hdropped.logWrite (hnext ▸ Nat.le_succ _) ?_ (fun _ => ?_) (by simp) (by simp) _
    · rw [hcount, hnext]
      omega
    · rintro j' e' n heq
      cases heq
      exact hnext ▸ Nat.lt_succ_self _

/-- Every step keeps reads and kept lists up to date, as long as the counter does not come to its
end. -/
theorem step (hadapter : p.adapter.Remembers Holds)
    (hmodes : ∀ mode other, modes mode → modes other →
      fingerprint mode.toValue = fingerprint other.toValue → mode = other)
    {t : Traffic κ ListRequest ListResult}
    (hst : TrafficStep p (.lists p.keys settings modes) Holds s t)
    (hlogged : s.Logged (.lists p.keys settings modes))
    (hroom : start + t.settlements < twoPow 64)
    (h : Coherent p settings modes Holds start s) :
    Coherent p settings modes Holds start t := by
  cases hst with
  | beginRead hi hmode => exact h.beginRead hadapter _ hmode
  | takeServed hi hserved => exact h.takeServed hi hserved
  | fetch hi hserved => exact h.fetch hlogged hi
  | finishRead hi => exact h.finishRead hadapter hmodes hi
  | changeStore hj hchange => exact h.changeStore _ _ _
  | settleWrite hj =>
    obtain ⟨_, _, he⟩ := hlogged.announced _ _ hj
    exact h.settleWrite hadapter he hroom
  | lose hk => exact h.withCache rfl fun henabled => (h.kept henabled).lose hk
  | keepOther hkey text ttl =>
    exact h.withCache rfl fun henabled =>
      (h.kept henabled).set_other hadapter hkey text ttl

theorem run (hadapter : p.adapter.Remembers Holds)
    (hmodes : ∀ mode other, modes mode → modes other →
      fingerprint mode.toValue = fingerprint other.toValue → mode = other)
    {collection : Collection} {cache : CacheState κ}
    (h : Coherent p settings modes Holds start (Traffic.quiet collection cache))
    (hst : TrafficRun p (.lists p.keys settings modes) Holds (Traffic.quiet collection cache) s)
    (hroom : start + s.settlements < twoPow 64) : Coherent p settings modes Holds start s := by
  induction hst with
  | refl => exact h
  | tail hrun hstep ih =>
    have hearlier := Nat.lt_of_le_of_lt (Nat.add_le_add_left hstep.settlements_le start) hroom
    exact (ih hearlier).step hadapter hmodes hstep (TrafficRun.logged hrun) hroom

end Coherent
end Traffic

namespace TrafficRun

open Traffic

variable {κ : Type} {p : CachePlugin κ} {settings : PagingSettings} {modes : ListMode → Prop}
  {Holds : κ → CacheMemory → Prop}

/-- A list read that began after a write had settled can be finished, and returns what a read of
the store gave after the change of that write, as long as the version counter has not come to its
end. -/
theorem list_found_after_change (hadapter : p.adapter.Remembers Holds)
    (hmodes : ∀ mode other, modes mode → modes other →
      fingerprint mode.toValue = fingerprint other.toValue → mode = other)
    {collection : Collection} {cache : CacheState κ} {m : CacheMemory} (hm : Holds cache.adapter m)
    (hnone : ∀ v mode, modes mode → cache.version.current < v → m (p.keys.list v mode) = none)
    {s : Traffic κ ListRequest ListResult}
    (hrun : TrafficRun p (.lists p.keys settings modes) Holds (quiet collection cache) s)
    (hroom : cache.version.current + s.settlements < twoPow 64) {i j n : Nat} {e : AfterEvent}
    (hafter : Log.Before s.log (.settled j e n) (.began i)) :
    (∃ t request out, TrafficRun p (.lists p.keys settings modes) Holds s t ∧
        t.reads i = .finished request out) ∧
      ∀ request out, s.reads i = .finished request out →
        ∃ k other c, Log.Before s.log (.changed j) (.fetched k other c) ∧
          other.mode = request.mode ∧ Conveyed (c.listed settings request.mode) out ∧
          (c.Sound Value.isWhole64 → out = c.listed settings request.mode) := by
  have hcoherent : Coherent p settings modes Holds cache.version.current s :=
    (Coherent.quiet hm hnone).run hadapter hmodes hrun hroom
  have hread := hcoherent.reads i
  refine ⟨exists_finished fun hwaiting =>
    (TrafficRun.logged hrun).waiting i hwaiting hafter.right_mem, fun request out hout => ?_⟩
  rw [hout] at hread
  obtain ⟨x, ⟨k, other, c, horder, hmode, rfl⟩, hconveyed⟩ := hread j e n hafter
  exact ⟨k, other, c, horder, hmode, hconveyed, fun hsound => hconveyed.eq_listed hsound⟩

end TrafficRun

open Traffic CachedStore

/-- The first page of rows. -/
def firstRows : ListRequest := { mode := .offset { limit := some 1 } }

/-- Reads of the pages of rows. -/
def rowListings : TrafficKind ListRequest ListResult := .lists rowsCache.keys rowsPaging rowPages

/-- One step of a read of the first page. -/
def firstRowsStep (i : Nat) (s : Traffic TickingCache ListRequest ListResult) :
    Traffic TickingCache ListRequest ListResult :=
  s.advanceRead rowsCache rowListings i firstRows

/-- A row is created. -/
def rowCreation : AfterEvent := .create [("id", .int 1), ("n", .int 5)]

/-- A row is added after a read has found none. -/
def rowAdded : Traffic TickingCache ListRequest ListResult :=
  (firstRowsStep 0 (firstRowsStep 0 (quiet noRows.collection noRows.cache))).changeStore 0
    rowCreation { idField := "id", docs := [[("id", .int 1), ("n", .int 5)]] }

/-- The slow read keeps its empty page after the write has settled. -/
def pageKept : Traffic TickingCache ListRequest ListResult :=
  firstRowsStep 0 (rowAdded.settleWrite rowsCache 0 rowCreation)

/-- Then another read of the page. -/
def pageReread : Traffic TickingCache ListRequest ListResult :=
  firstRowsStep 1 (firstRowsStep 1 (firstRowsStep 1 pageKept))

theorem run_firstRowsStep (i : Nat) (s : Traffic TickingCache ListRequest ListResult) :
    TrafficRun rowsCache rowListings TickingCache.Holds s (firstRowsStep i s) :=
  .advanceRead fun _ => Or.inl rfl

theorem run_pageKept : TrafficRun rowsCache rowListings TickingCache.Holds
    (quiet noRows.collection noRows.cache) pageKept := by
  have hwaiting : (firstRowsStep 0 (firstRowsStep 0
      (quiet noRows.collection noRows.cache))).writes 0 = .waiting := by
    rw [firstRowsStep, firstRowsStep, writes_advanceRead, writes_advanceRead]
    rfl
  have hfound := (run_firstRowsStep 0 (quiet noRows.collection noRows.cache)).trans
    (run_firstRowsStep 0 _)
  have hchange : rowListings.changes (firstRowsStep 0 (firstRowsStep 0
      (quiet noRows.collection noRows.cache))).collection rowCreation
      { idField := "id", docs := [[("id", .int 1), ("n", .int 5)]] } := by
    show rowCreation.operation.isRead = false
    rfl
  have hadded := hfound.tail (.changeStore _ hwaiting hchange)
  have hsettled := hadded.tail (.settleWrite _ (Function.update_self _ _ _))
  exact hsettled.trans (run_firstRowsStep 0 _)

theorem reads_pageKept : pageKept.reads 1 = .waiting := by
  have hother : ∀ s : Traffic TickingCache ListRequest ListResult,
      (firstRowsStep 0 s).reads 1 = s.reads 1 := fun s =>
    reads_advanceRead_of_ne _ _ _ Nat.one_ne_zero
  have hsettle : ∀ s : Traffic TickingCache ListRequest ListResult, ∀ e,
      (s.settleWrite rowsCache 0 e).reads = s.reads := fun s e => rfl
  have hchange : ∀ s : Traffic TickingCache ListRequest ListResult, ∀ e c,
      (s.changeStore 0 e c).reads = s.reads := fun s e c => rfl
  rw [pageKept, hother, hsettle, rowAdded, hchange, hother, hother]
  rfl

/-- The other read begins after the write has settled, and the cache still has the empty page. -/
theorem list_found_after_change_pageReread :
    (pageReread.cache.adapter.cache.entries.any fun e =>
        (ListResult.ofText? e.2.text).any fun r => r.docs.isEmpty) = true ∧
      ∃ out, pageReread.reads 1 = .finished firstRows out ∧
        ∃ k other c, Log.Before pageReread.log (.changed 0) (.fetched k other c) ∧
          other.mode = firstRows.mode ∧ Conveyed (c.listed rowsPaging firstRows.mode) out ∧
          (c.Sound Value.isWhole64 → out = c.listed rowsPaging firstRows.mode) := by
  have hnothing : TickingCache.Holds noRows.cache.adapter fun _ => none := fun e he => by cases he
  have hlast : firstRowsStep 1 pageKept = pageKept.beginRead rowsCache rowListings 1 firstRows :=
    advanceRead_of_waiting _ _ reads_pageKept
  have hrun := (run_firstRowsStep 1 (firstRowsStep 1 pageKept)).trans (run_firstRowsStep 1 _)
  obtain ⟨n, hsettled⟩ : ∃ n, .settled 0 rowCreation n ∈ pageKept.log :=
    ⟨_, (run_firstRowsStep 0 _).log_grows.subset (List.mem_append_right _ List.mem_cons_self)⟩
  have hafter : Log.Before (firstRowsStep 1 pageKept).log (.settled 0 rowCreation n)
      (.began 1) := by
    rw [hlast, log_beginRead]
    exact Log.before_last hsettled _
  obtain ⟨out, hout⟩ : ∃ out, pageReread.reads 1 = .finished firstRows out :=
    exists_finished_of_waiting rowsCache rowListings firstRows firstRows reads_pageKept
  have hfound := (TrafficRun.list_found_after_change TickingCache.remembersUndeleted.toRemembers
    eq_of_fingerprint_rowPages hnothing (fun _ _ _ _ => rfl)
    ((run_pageKept.trans (run_firstRowsStep 1 _)).trans hrun) (by decide +kernel)
    (hafter.mono (TrafficRun.log_grows hrun))).2
  exact ⟨by decide +kernel, out, hout, hfound firstRows out hout⟩

end Quire
