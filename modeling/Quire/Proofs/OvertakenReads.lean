import Quire.Proofs.CachedRuns
import Quire.Proofs.InterleavedLookups
import Quire.Proofs.KeptEntries
import Quire.Proofs.KeySpace
import Quire.Proofs.ResultTexts

/-!
# Overtaken reads

A read of a document that begins after a change of the document has settled returns what some read
of the store gave after the change, or what an overtaken one gave: a read that went to the store
before the change and kept what it found there after the change had settled. The key of a document
carries no version, so that such a late entry is served like any other.
-/
namespace Quire

/-- What a read of the store found and what a read of the document returns: the same, or the
document that its text is read as. -/
inductive DocumentConveyed : Option Document → Option Document → Prop
  | direct (x : Option Document) : DocumentConveyed x x
  | kept {d e : Document} (h : Document.ofText? (Value.obj d).text = some e) :
      DocumentConveyed (some d) (some e)

/-- Documents with whole numbers are conveyed as they are. -/
theorem DocumentConveyed.eq_lookup {c : Collection} (hsound : c.Sound Value.isWhole64)
    {settings : PagingSettings} {id : DocumentId} {o : ReadOptions} {out : Option Document}
    (h : DocumentConveyed (c.lookup settings id o) out) : out = c.lookup settings id o := by
  generalize hfound : c.lookup settings id o = found at h ⊢
  cases h with
  | direct => rfl
  | @kept d e hread =>
    have hd : d.Sound Value.isWhole64 :=
      hsound.select Value.storable_isWhole64 _ d (List.mem_of_head? hfound)
    rw [Document.ofText?_text hd.every hd.ordered] at hread
    split at hread
    · exact hread.symm
    · cases hread

/-- Options that leave a document whole make no difference to what is found. -/
theorem Collection.lookup_of_not_isShaped {o : ReadOptions} (h : o.isShaped = false)
    (c : Collection) (settings : PagingSettings) (id : DocumentId) :
    c.lookup settings id o = c.lookup settings id {} :=
  CachedStore.selectOne_of_not_isShaped h c _

namespace Lookup

open TrafficEvent

/-! ## Where results come from -/

section Origins

variable {κ : Type} (p : CachePlugin κ) (settings : PagingSettings)
  (log : List (TrafficEvent Lookup))

/-- A read of a document went to the store before a write changed it, and kept what it found after
the write had settled and before read `i` began. -/
structure Overtaken (j : Nat) (e : AfterEvent) (n i k : Nat) (fetch : TrafficEvent Lookup) :
    Prop where
  fetched : Log.Before log fetch (.changed j)
  kept : Log.Before log (.settled j e n) (.finished k)
  began : Log.Before log (.finished k) (.began i)

/-- For every write of the document that had settled when read `i` began, what `i` returns comes
from a read of the store under the same key that followed the change or was overtaken by the write. -/
def Traced (i : Nat) (request : Lookup) (out : Option Document) : Prop :=
  ∀ j e n, e.target? = some request.id → Log.Before log (.settled j e n) (.began i) →
    ∃ k other c, p.keys.byId other.id = p.keys.byId request.id ∧
      DocumentConveyed (c.lookup settings other.id request.options) out ∧
      (Log.Before log (.changed j) (.fetched k other c) ∨
        Overtaken log j e n i k (.fetched k other c))

/-- A text that is kept under the key of a document. For every write of the document that has
settled, it is what a read found in the store that finished after that. -/
def KeptSince (key text : String) : Prop :=
  ∀ j e n id, .settled j e n ∈ log → e.target? = some id → p.keys.byId id = key →
    ∃ k other c d, p.keys.byId other.id = key ∧ .fetched k other c ∈ log ∧
      c.lookup settings other.id {} = some d ∧ text = (Value.obj d).text ∧
      Log.Before log (.settled j e n) (.finished k)

variable {p settings log} {event : TrafficEvent Lookup} {i : Nat} {request : Lookup}
  {out : Option Document}

theorem Overtaken.concat {j n k : Nat} {e : AfterEvent} {fetch : TrafficEvent Lookup}
    (h : Overtaken log j e n i k fetch) (event : TrafficEvent Lookup) :
    Overtaken (log ++ [event]) j e n i k fetch :=
  ⟨h.fetched.concat event, h.kept.concat event, h.began.concat event⟩

theorem Traced.concat (he : event ≠ .began i) (h : Traced p settings log i request out) :
    Traced p settings (log ++ [event]) i request out := by
  intro j e n hid hj
  obtain ⟨k, other, c, hkey, hconveyed, horder⟩ := h j e n hid (hj.of_concat he.symm)
  exact ⟨k, other, c, hkey, hconveyed, horder.imp (·.concat event) (·.concat event)⟩

theorem KeptSince.concat {key text : String}
    (he : ∀ j e n id, event = .settled j e n → e.target? = some id → p.keys.byId id ≠ key)
    (h : KeptSince p settings log key text) :
    KeptSince p settings (log ++ [event]) key text := by
  intro j e n id hj hid hkey
  rcases List.mem_append.mp hj with hlog | hlast
  · obtain ⟨k, other, c, d, hother, hmem, hfound, htext, hfinished⟩ := h j e n id hlog hid hkey
    exact ⟨k, other, c, d, hother, List.mem_append_left _ hmem, hfound, htext,
      hfinished.concat event⟩
  · exact absurd hkey (he j e n id (List.mem_singleton.mp hlast).symm hid)

/-- A read that takes the text under the key of its document is traced to the read that kept it. -/
theorem KeptSince.traced {text : String}
    (h : KeptSince p settings log (p.keys.byId request.id) text)
    (hsettled : ∀ j e n, .settled j e n ∈ log → .changed j ∈ log)
    (hshaped : request.options.isShaped = false) {d : Document}
    (hread : Document.ofText? text = some d) (i : Nat) :
    Traced p settings (log ++ [.began i]) i request (some d) := by
  intro j e n hid hj
  have hj' : .settled j e n ∈ log := by simpa using hj.left_mem
  obtain ⟨k, other, c, found, hkey, hmem, hfound, rfl, hfinished⟩ := h j e n _ hj' hid rfl
  refine ⟨k, other, c, hkey, ?_, ?_⟩
  · rw [Collection.lookup_of_not_isShaped hshaped, hfound]
    exact .kept hread
  · rcases Log.before_or_before (hsettled j e n hj') hmem (by simp) with hafter | hbefore
    · exact Or.inl (hafter.concat _)
    · exact Or.inr ⟨hbefore.concat _, hfinished.concat _,
        Log.before_last hfinished.right_mem _⟩

/-- A read of the store by the read itself follows every change that has settled. -/
theorem traced_of_fetched (hsettled : ∀ j e n, .settled j e n ∈ log → .changed j ∈ log)
    (i : Nat) (request : Lookup) (c : Collection) :
    Traced p settings (log ++ [.fetched i request c]) i request
      (c.lookup settings request.id request.options) := by
  intro j e n hid hj
  have hj' : .settled j e n ∈ log := (hj.of_concat (by simp)).left_mem
  exact ⟨i, request, c, rfl, .direct _, Or.inl (Log.before_last (hsettled j e n hj') _)⟩

end Origins

/-! ## The invariant -/

variable {κ : Type} {p : CachePlugin κ} {settings : PagingSettings}
  {Holds : κ → CacheMemory → Prop}

/-- The key that a read has noted is that of its document, which it returns whole. -/
def Noted (p : CachePlugin κ) (request : Lookup) (context : HookContext) : Prop :=
  ∀ key, context.cacheKey = some key →
    key = p.keys.byId request.id ∧ request.options.isShaped = false

/-- What is known of a read at each of its phases. -/
def Tracked (p : CachePlugin κ) (settings : PagingSettings) (log : List (TrafficEvent Lookup))
    (i : Nat) : ReadPhase Lookup (Option Document) → Prop
  | .waiting => True
  | .begun request context =>
    Noted p request context ∧
      ∀ d, Repository.servedDocument? context.served = some d →
        context.servedFromCache = true ∧ Traced p settings log i request (some d)
  | .answered request context found =>
    Noted p request context ∧ Traced p settings log i request found ∧
      (context.servedFromCache = false →
        ∃ c, .fetched i request c ∈ log ∧ c.lookup settings request.id request.options = found)
  | .finished request out => ∃ found, out = .ok found ∧ Traced p settings log i request found

/-- What is known of a read stays known when others take their steps. -/
theorem Tracked.concat {log : List (TrafficEvent Lookup)} {event : TrafficEvent Lookup} {i : Nat}
    (hbegan : event ≠ .began i) {phase : ReadPhase Lookup (Option Document)}
    (h : Tracked p settings log i phase) : Tracked p settings (log ++ [event]) i phase := by
  cases phase with
  | waiting => trivial
  | begun request context =>
    exact ⟨h.1, fun d hd => ⟨(h.2 d hd).1, (h.2 d hd).2.concat hbegan⟩⟩
  | answered request context found =>
    obtain ⟨hnoted, htraced, hfetched⟩ := h
    refine ⟨hnoted, htraced.concat hbegan, fun huncached => ?_⟩
    obtain ⟨c, hmem, hfound⟩ := hfetched huncached
    exact ⟨c, List.mem_append_left _ hmem, hfound⟩
  | finished request out =>
    obtain ⟨found, hout, htraced⟩ := h
    exact ⟨found, hout, htraced.concat hbegan⟩

/-- The invariant of interleaved reads and changes of documents. -/
structure Coherent (p : CachePlugin κ) (settings : PagingSettings)
    (Holds : κ → CacheMemory → Prop) (s : Traffic κ Lookup (Option Document)) : Prop where
  reads : ∀ i, Tracked p settings s.log i (s.reads i)
  kept : p.settings.enabled = true →
    KeptUnder Holds (fun key : String => key) (fun key => ∃ id, p.keys.byId id = key)
      (KeptSince p settings s.log) s.cache.adapter

namespace Coherent

variable {s : Traffic κ Lookup (Option Document)}

/-- At first nothing has settled, whatever the adapter holds. -/
theorem quiet {collection : Collection} {cache : CacheState κ} {m : CacheMemory}
    (hm : Holds cache.adapter m) : Coherent p settings Holds (.quiet collection cache) where
  reads i := trivial
  kept _ := ⟨m, hm, fun key text _ _ j e n id hmem => by cases hmem⟩

/-- The cache may change where the texts in it stay as they are required. -/
theorem withCache (h : Coherent p settings Holds s) {cache : CacheState κ}
    (hkept : p.settings.enabled = true →
      KeptUnder Holds (fun key : String => key) (fun key => ∃ id, p.keys.byId id = key)
        (KeptSince p settings s.log) cache.adapter) :
    Coherent p settings Holds { s with cache } :=
  ⟨h.reads, hkept⟩

/-- A step of a read is logged. -/
theorem logRead (h : Coherent p settings Holds s) {event : TrafficEvent Lookup}
    (he : ∀ j e n, event ≠ .settled j e n) {i : Nat} (hbegan : ∀ k, k ≠ i → event ≠ .began k)
    {phase : ReadPhase Lookup (Option Document)}
    (hphase : Tracked p settings (s.log ++ [event]) i phase) :
    Coherent p settings Holds
      { s with reads := Function.update s.reads i phase, log := s.log ++ [event] } := by
  refine ⟨Function.forall_update_iff _ _ |>.mpr ⟨hphase, fun k hk => ?_⟩, fun henabled => ?_⟩
  · exact (h.reads k).concat (hbegan k hk)
  · exact (h.kept henabled).mono fun key text _ htext =>
      htext.concat fun j e n id hsettled => absurd hsettled (he j e n)

theorem beginRead (hadapter : p.adapter.Remembers Holds) (h : Coherent p settings Holds s)
    (hlogged : s.Logged (.lookups p.keys settings)) (i : Nat) (request : Lookup) :
    Coherent p settings Holds (s.beginRead p (.lookups p.keys settings) i request) := by
  rcases p.runOn_before_getById request.id request.options s.cache with
    hbefore | ⟨henabled, hshaped, stats, hbefore⟩ <;>
    rw [Traffic.beginRead_eq (.lookups p.keys settings) hbefore]
  · exact h.logRead (by simp) (fun k hk => began_ne hk) ⟨nofun, nofun⟩
  · have hphase : Tracked p settings (s.log ++ [.began i]) i (.begun request (.noted
        (p.keys.byId request.id)
        ((p.adapter.reply (p.keys.byId request.id) s.cache.adapter).bind CachePlugin.readDocument?)
        { skipCache := request.options.skipCache })) := by
      refine ⟨fun key hkey => ?_, fun d hd => ?_⟩
      · cases hkey
        exact ⟨rfl, hshaped⟩
      · rw [CachedStore.served_noted] at hd
        cases hreply : p.adapter.reply (p.keys.byId request.id) s.cache.adapter with
        | none =>
          rw [hreply] at hd
          cases hd
        | some text =>
          rw [hreply, Option.bind_some, CachePlugin.readDocument?] at hd
          rw [Option.bind_some, CachePlugin.readDocument?]
          cases hread : Document.ofText? text with
          | none =>
            rw [hread] at hd
            cases hd
          | some found =>
            rw [hread] at hd
            cases hd
            have hlast := (h.kept henabled).reply hadapter ⟨request.id, rfl⟩ hreply
            exact ⟨rfl, hlast.traced hlogged.settled hshaped hread i⟩
    have hbegun := h.logRead (by simp) (fun k hk => began_ne hk) hphase
    exact hbegun.withCache fun _ => (hbegun.kept henabled).lose fun m hm => hadapter.get hm _

theorem takeServed (h : Coherent p settings Holds s) {i : Nat} {request : Lookup}
    {context : HookContext} {found : Option Document}
    (hi : s.reads i = .begun request context)
    (hserved : (Repository.servedDocument? context.served).map some = some found) :
    Coherent p settings Holds (s.takeServed i request context found) := by
  obtain ⟨d, hd, rfl⟩ := Option.map_eq_some_iff.mp hserved
  have hread := h.reads i
  rw [hi] at hread
  obtain ⟨hcached, htraced⟩ := hread.2 d hd
  have hphase : Tracked p settings s.log i (.answered request context.take.2 (some d)) :=
    ⟨hread.1, htraced, fun huncached => absurd (hcached.symm.trans huncached) (by decide)⟩
  exact ⟨Function.forall_update_iff _ _ |>.mpr ⟨hphase, fun k _ => h.reads k⟩, h.kept⟩

theorem fetch (h : Coherent p settings Holds s)
    (hlogged : s.Logged (.lookups p.keys settings)) {i : Nat} {request : Lookup}
    {context : HookContext} (hi : s.reads i = .begun request context) :
    Coherent p settings Holds (s.fetch (.lookups p.keys settings) i request context) := by
  have hread := h.reads i
  rw [hi] at hread
  refine h.logRead (by simp) (by simp) ⟨hread.1, ?_, fun _ => ?_⟩
  · exact traced_of_fetched hlogged.settled i request s.collection
  · exact ⟨s.collection, List.mem_append_right _ List.mem_cons_self, rfl⟩

theorem finishRead (hadapter : p.adapter.Remembers Holds) (h : Coherent p settings Holds s)
    {i : Nat} {request : Lookup} {context : HookContext} {found : Option Document}
    (hi : s.reads i = .answered request context found) :
    Coherent p settings Holds
      (s.finishRead p (.lookups p.keys settings) i request context found) := by
  have hread := h.reads i
  rw [hi] at hread
  obtain ⟨hnoted, htraced, hfetched⟩ := hread
  have hfinished : Coherent p settings Holds { s with
      reads := Function.update s.reads i (.finished request (.ok found))
      log := s.log ++ [.finished i] } :=
    h.logRead (by simp) (by simp) ⟨found, rfl, htraced.concat (by simp)⟩
  rcases p.runOn_after_getById request.id request.options found context s.cache with
    hafter | ⟨-, huncached, key, d, stats, hkey, rfl, hafter⟩ <;>
    rw [Traffic.finishRead_eq (.lookups p.keys settings) hafter]
  · exact hfinished
  · obtain ⟨rfl, hshaped⟩ := hnoted key hkey
    obtain ⟨c, hmem, hfound⟩ := hfetched huncached
    rw [Collection.lookup_of_not_isShaped hshaped] at hfound
    -- The hook after the read is later than all that has settled, however old the document is.
    have hlast : KeptSince p settings (s.log ++ [.finished i]) (p.keys.byId request.id)
        (Value.obj d).text := by
      intro j e n other hj _ _
      exact ⟨i, request, c, d, rfl, List.mem_append_left _ hmem, hfound, rfl,
        Log.before_last (by simpa using hj) _⟩
    exact hfinished.withCache fun henabled => (hfinished.kept henabled).set_own hadapter
      (i := p.keys.byId request.id) (fun key _ heq => heq ▸ hlast) _

/-- A step of a write is logged. -/
theorem logWrite (h : Coherent p settings Holds s) {event : TrafficEvent Lookup}
    (hbegan : ∀ i, event ≠ .began i) {cache : CacheState κ}
    (hkept : p.settings.enabled = true →
      KeptUnder Holds (fun key : String => key) (fun key => ∃ id, p.keys.byId id = key)
        (KeptSince p settings (s.log ++ [event])) cache.adapter)
    (collection : Collection) (writes : Nat → WritePhase) :
    Coherent p settings Holds { s with collection, cache, writes, log := s.log ++ [event] } :=
  ⟨fun i => (h.reads i).concat (hbegan i), hkept⟩

theorem changeStore (h : Coherent p settings Holds s) (j : Nat) (e : AfterEvent)
    (collection : Collection) : Coherent p settings Holds (s.changeStore j e collection) := by
  refine h.logWrite (by simp) (fun henabled => ?_) _ _
  exact (h.kept henabled).mono fun key text _ htext => htext.concat (by simp)

theorem settleWrite (hadapter : p.adapter.RemembersUndeleted Holds)
    (h : Coherent p settings Holds s) (j : Nat) {e : AfterEvent} {c c' : Collection}
    (hchange : DocumentChange settings c e c') :
    Coherent p settings Holds (s.settleWrite p j e) := by
  rcases p.runOn_after_write hchange.isRead_eq_false {} s.cache with
    ⟨hdisabled, hafter⟩ | ⟨-, stats, hafter⟩ <;> rw [Traffic.settleWrite_eq hafter]
  · refine h.logWrite (by simp) (fun henabled => ?_) _ _
    rw [hdisabled] at henabled
    cases henabled
  · refine h.logWrite (by simp) (fun henabled => ?_) _ _
    obtain ⟨id, hid, hdrop⟩ := hchange.exists_target
    rw [hdrop]
    -- The entry of the document is dropped, so the new event concerns no text that is left.
    have hdropped : ∀ n, KeptUnder Holds (fun key : String => key)
        (fun key => ∃ id, p.keys.byId id = key)
        (KeptSince p settings (s.log ++ [.settled j e n]))
        (p.adapter.afterDelete (p.keys.byId id) s.cache.adapter) := fun n => by
      refine (h.kept henabled).delete_own hadapter (i := p.keys.byId id)
        fun key text _ hne htext => htext.concat fun k e' n' other hother htarget => ?_
      cases hother
      cases hid.symm.trans htarget
      exact hne
    refine (hdropped _).set_other hadapter.toRemembers ?_ _ _
    rintro _ ⟨id, rfl⟩
    exact p.keys.version_ne_byId id

/-- Every step keeps results traced. -/
theorem step (hadapter : p.adapter.RemembersUndeleted Holds)
    {t : Traffic κ Lookup (Option Document)}
    (hst : TrafficStep p (.lookups p.keys settings) Holds s t)
    (hlogged : s.Logged (.lookups p.keys settings)) (h : Coherent p settings Holds s) :
    Coherent p settings Holds t := by
  cases hst with
  | beginRead hi hasks => exact h.beginRead hadapter.toRemembers hlogged _ _
  | takeServed hi hserved => exact h.takeServed hi hserved
  | fetch hi hserved => exact h.fetch hlogged hi
  | finishRead hi => exact h.finishRead hadapter.toRemembers hi
  | changeStore hj hchange => exact h.changeStore _ _ _
  | settleWrite hj =>
    obtain ⟨_, _, hchange⟩ := hlogged.announced _ _ hj
    exact h.settleWrite hadapter _ hchange
  | lose hk => exact h.withCache fun henabled => (h.kept henabled).lose hk
  | keepOther hkey text ttl =>
    refine h.withCache fun henabled => (h.kept henabled).set_other hadapter.toRemembers ?_ text ttl
    rintro _ ⟨id, rfl⟩
    exact hkey id

theorem run (hadapter : p.adapter.RemembersUndeleted Holds) {collection : Collection}
    {cache : CacheState κ} (h : Coherent p settings Holds (.quiet collection cache))
    (hst : TrafficRun p (.lookups p.keys settings) Holds (.quiet collection cache) s) :
    Coherent p settings Holds s := by
  induction hst with
  | refl => exact h
  | tail hrun hstep ih => exact ih.step hadapter hstep (TrafficRun.logged hrun)

end Coherent
end Lookup

namespace TrafficRun

open Traffic Lookup

variable {κ : Type} {p : CachePlugin κ} {settings : PagingSettings}
  {Holds : κ → CacheMemory → Prop}

/-- A read of a document that began after a write of the document had settled can be finished. It
returns what a read of the store under the same key gave after the change of that write, or what one
gave that was overtaken by it. -/
theorem found_after_change_or_overtaken (hadapter : p.adapter.RemembersUndeleted Holds)
    {collection : Collection} {cache : CacheState κ} {m : CacheMemory} (hm : Holds cache.adapter m)
    {s : Traffic κ Lookup (Option Document)}
    (hrun : TrafficRun p (.lookups p.keys settings) Holds (quiet collection cache) s)
    {i j n : Nat} {e : AfterEvent} {id : DocumentId} (hid : e.target? = some id)
    (hafter : Log.Before s.log (.settled j e n) (.began i)) :
    (∃ t request out, TrafficRun p (.lookups p.keys settings) Holds s t ∧
        t.reads i = .finished request out) ∧
      ∀ o out, s.reads i = .finished ⟨id, o⟩ out →
        ∃ found, out = .ok found ∧ ∃ k other c, p.keys.byId other.id = p.keys.byId id ∧
          DocumentConveyed (c.lookup settings other.id o) found ∧
          (c.Sound Value.isWhole64 → found = c.lookup settings other.id o) ∧
          (Log.Before s.log (.changed j) (.fetched k other c) ∨
            Overtaken s.log j e n i k (.fetched k other c)) := by
  have hcoherent : Coherent p settings Holds s := (Coherent.quiet hm).run hadapter hrun
  have hread := hcoherent.reads i
  refine ⟨exists_finished fun hwaiting => (TrafficRun.logged hrun).waiting i hwaiting
    hafter.right_mem, fun o out hout => ?_⟩
  rw [hout] at hread
  obtain ⟨found, rfl, htraced⟩ := hread
  obtain ⟨k, other, c, hkey, hconveyed, horder⟩ := htraced j e n hid hafter
  exact ⟨found, rfl, k, other, c, hkey, hconveyed, fun hsound => hconveyed.eq_lookup hsound, horder⟩

end TrafficRun

/-! ## A row that is overtaken -/

open Traffic Lookup CachedStore

/-- One row. -/
def rowStored : Collection := { idField := "id", docs := [[("id", .int 1), ("n", .int 5)]] }

/-- The row with another number. -/
def rowChanged : Option Document × Collection :=
  rowStored.updateOne (.byId rowsPaging.idField (.int 1)) [("n", .int 8)]

/-- Reads of rows. -/
def rowLookups : TrafficKind Lookup (Option Document) := .lookups rowsCache.keys rowsPaging

/-- One step of a read of the row. -/
def rowStep (i : Nat) (s : Traffic TickingCache Lookup (Option Document)) :
    Traffic TickingCache Lookup (Option Document) :=
  s.advanceRead rowsCache rowLookups i { id := .int 1 }

/-- A slow read has found the row. -/
def rowFound : Traffic TickingCache Lookup (Option Document) :=
  rowStep 0 (rowStep 0 (quiet rowStored noRows.cache))

/-- Then the row is changed, and its entry is dropped. -/
def rowSettled : Traffic TickingCache Lookup (Option Document) :=
  (rowFound.changeStore 0 (.update (.int 1) rowChanged.1) rowChanged.2).settleWrite rowsCache 0
    (.update (.int 1) rowChanged.1)

/-- The slow read keeps the row as it was, and another read begins. -/
def rowAsked : Traffic TickingCache Lookup (Option Document) := rowStep 1 (rowStep 0 rowSettled)

/-- The other read is served. -/
def rowServed : Traffic TickingCache Lookup (Option Document) := rowStep 1 (rowStep 1 rowAsked)

theorem run_rowStep {i : Nat} {s : Traffic TickingCache Lookup (Option Document)} :
    TrafficRun rowsCache rowLookups TickingCache.Holds s (rowStep i s) :=
  .advanceRead fun _ => trivial

theorem reads_rowSettled : (rowStep 0 rowSettled).reads 1 = .waiting := by
  have hother : ∀ s : Traffic TickingCache Lookup (Option Document),
      (rowStep 0 s).reads 1 = s.reads 1 := fun s =>
    reads_advanceRead_of_ne _ _ _ Nat.one_ne_zero
  have hsettle : ∀ s : Traffic TickingCache Lookup (Option Document), ∀ e,
      (s.settleWrite rowsCache 0 e).reads = s.reads := fun s e => rfl
  have hchange : ∀ s : Traffic TickingCache Lookup (Option Document), ∀ e c,
      (s.changeStore 0 e c).reads = s.reads := fun s e c => rfl
  rw [hother, rowSettled, hsettle, hchange, rowFound, hother, hother]
  rfl

theorem collection_rowFound : rowFound.collection = rowStored := by
  rw [rowFound, rowStep, rowStep, collection_advanceRead, collection_advanceRead]
  rfl

theorem changes_rowFound : rowLookups.changes rowFound.collection (.update (.int 1) rowChanged.1)
    rowChanged.2 := by
  rw [collection_rowFound]
  exact .update (.int 1) [("n", .int 8)]

theorem run_rowAsked : TrafficRun rowsCache rowLookups TickingCache.Holds
    (quiet rowStored noRows.cache) rowAsked := by
  have hwaiting : rowFound.writes 0 = .waiting := by
    rw [rowFound, rowStep, rowStep, writes_advanceRead, writes_advanceRead]
    rfl
  have hfound : TrafficRun rowsCache rowLookups TickingCache.Holds
      (quiet rowStored noRows.cache) rowFound := run_rowStep.trans run_rowStep
  have hchanged := hfound.tail (.changeStore _ hwaiting changes_rowFound)
  have hsettled := hchanged.tail (.settleWrite _ (Function.update_self _ _ _))
  exact (hsettled.trans run_rowStep).trans run_rowStep

theorem run_rowServed : TrafficRun rowsCache rowLookups TickingCache.Holds rowAsked rowServed :=
  run_rowStep.trans run_rowStep

/-- The other read begins after the change has settled. -/
theorem exists_settled_before_began_rowServed : ∃ n,
    Log.Before rowServed.log (.settled 0 (.update (.int 1) rowChanged.1) n) (.began 1) := by
  have hlast : rowStep 1 (rowStep 0 rowSettled) =
      (rowStep 0 rowSettled).beginRead rowsCache rowLookups 1 { id := .int 1 } :=
    advanceRead_of_waiting _ _ reads_rowSettled
  obtain ⟨n, hsettled⟩ : ∃ n, .settled 0 (.update (.int 1) rowChanged.1) n ∈ rowSettled.log := by
    rw [rowSettled, log_settleWrite]
    exact ⟨_, List.mem_append_right _ List.mem_cons_self⟩
  have hlate : _ ∈ (rowStep 0 rowSettled).log :=
    (TrafficRun.log_grows run_rowStep).subset hsettled
  have hasked : Log.Before rowAsked.log (.settled 0 (.update (.int 1) rowChanged.1) n)
      (.began 1) := by
    rw [rowAsked, hlast, log_beginRead]
    exact Log.before_last hlate _
  exact ⟨n, hasked.mono (TrafficRun.log_grows run_rowServed)⟩

/-- What a finished read returned. -/
def ReadPhase.returned? {ρ α : Type} : ReadPhase ρ α → Option α
  | .finished _ (.ok result) => some result
  | _ => none

/-- The other read returns the row as it was before the change. -/
theorem exists_finished_rowServed :
    ∃ found, rowServed.reads 1 = .finished { id := .int 1 } (.ok found) ∧
      found ≠ rowServed.collection.lookup rowsPaging (.int 1) {} := by
  obtain ⟨out, hout⟩ : ∃ out, rowServed.reads 1 = .finished { id := .int 1 } out := by
    rw [rowServed, rowAsked, rowStep, rowStep, rowStep]
    exact exists_finished_of_waiting rowsCache rowLookups _ _ reads_rowSettled
  have hold : (rowServed.reads 1).returned?.any
      (fun found => found.any fun d => (d.fieldOrNull "n").equal (.int 5)) = true := by
    decide +kernel
  have hnew : (rowServed.collection.lookup rowsPaging (.int 1) {}).any
      (fun d => (d.fieldOrNull "n").equal (.int 5)) = false := by
    decide +kernel
  cases out with
  | error f =>
    rw [hout] at hold
    cases hold
  | ok found =>
    refine ⟨found, hout, fun heq => ?_⟩
    rw [hout, ReadPhase.returned?, Option.any_some, heq, hnew] at hold
    cases hold

/-- Whether an event of the store is its change by a write. -/
def TrafficEvent.changesStore? {ρ : Type} : TrafficEvent ρ → Option Bool
  | .fetched .. => some false
  | .changed _ => some true
  | _ => none

/-- Nobody reads the store after the change. -/
theorem not_fetched_rowServed (k : Nat) (request : Lookup) (c : Collection) :
    ¬ Log.Before rowServed.log (.changed 0) (.fetched k request c) := by
  intro h
  have hkinds : [some true, some false].Sublist (rowServed.log.map TrafficEvent.changesStore?) :=
    List.Sublist.map TrafficEvent.changesStore? h
  exact absurd hkinds (by decide +kernel)

/-- The row that the other read returns was found by the slow one. -/
theorem found_after_change_or_overtaken_rowServed :
    ∃ n found, rowServed.reads 1 = .finished { id := .int 1 } (.ok found) ∧
      ∃ k other c, rowsCache.keys.byId other.id = rowsCache.keys.byId (.int 1) ∧
        DocumentConveyed (c.lookup rowsPaging other.id {}) found ∧
        Overtaken rowServed.log 0 (.update (.int 1) rowChanged.1) n 1 k (.fetched k other c) := by
  have hnothing : TickingCache.Holds noRows.cache.adapter fun _ => none := fun e he => by cases he
  obtain ⟨found, hfinished, -⟩ := exists_finished_rowServed
  obtain ⟨n, hafter⟩ := exists_settled_before_began_rowServed
  have hfound := (TrafficRun.found_after_change_or_overtaken TickingCache.remembersUndeleted
    hnothing (run_rowAsked.trans run_rowServed) rfl hafter).2
  obtain ⟨_, hout, k, other, c, hkey, hconveyed, -, hlater | hovertaken⟩ :=
    hfound {} (.ok found) hfinished
  · exact absurd hlater (not_fetched_rowServed k other c)
  · cases hout
    exact ⟨n, _, hfinished, k, other, c, hkey, hconveyed, hovertaken⟩

/-- A read that begins after a change has settled returns the row as it was before the change, which
no read of the store finds after the change. -/
theorem lookup_stale_rowServed :
    ∃ s n, TrafficRun rowsCache rowLookups TickingCache.Holds (quiet rowStored noRows.cache) s ∧
      Log.Before s.log (.settled 0 (.update (.int 1) rowChanged.1) n) (.began 1) ∧
      (∃ found, s.reads 1 = .finished { id := .int 1 } (.ok found) ∧
        found ≠ s.collection.lookup rowsPaging (.int 1) {}) ∧
      ∀ k request c, ¬ Log.Before s.log (.changed 0) (.fetched k request c) := by
  obtain ⟨n, hafter⟩ := exists_settled_before_began_rowServed
  exact ⟨rowServed, n, run_rowAsked.trans run_rowServed, hafter, exists_finished_rowServed,
    not_fetched_rowServed⟩

end Quire
