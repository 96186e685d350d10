import Quire.Proofs.CacheMemories
import Quire.Proofs.EventOrder
import Quire.Proofs.HarmlessCaching

/-!
# Interleaved operations

Reads of one kind and writes of one cached collection, cut into the steps between which other
operations can take theirs. A read is its hook before, a read of the store unless a result was
served, and its hook after; a write is the change of the store and its hook after. A hook is one
step, whatever it asks of the adapter. The steps are logged in their order, and the steps of one
operation without others between them are the operation.
-/
namespace Quire

/-- Reads of one kind, and what may happen beside them. -/
structure TrafficKind (ρ α : Type) where
  /-- The requests that are made. -/
  asks : ρ → Prop
  skipCache : ρ → Bool
  before : ρ → BeforeEvent
  /-- The result of a request in what was served. -/
  pick : ρ → Option HookResult → Option α
  /-- What the store gives. -/
  find : ρ → Collection → Except Fault α
  after : ρ → α → AfterEvent
  /-- What a write makes of the collection, with what is announced after it. -/
  changes : Collection → AfterEvent → Collection → Prop
  /-- The keys that other users of the adapter may write. -/
  others : String → Prop

/-- The steps that are logged. -/
inductive TrafficEvent (ρ : Type) where
  /-- The hook before a read. -/
  | began (read : Nat)
  /-- A read of the store, with what was stored. -/
  | fetched (read : Nat) (request : ρ) (c : Collection)
  /-- The hook after a read. -/
  | finished (read : Nat)
  /-- The change of the store by a write. -/
  | changed (write : Nat)
  /-- The hook after a write, with the version that it left. -/
  | settled (write : Nat) (e : AfterEvent) (version : Nat)

/-- Whether a write has settled. -/
def TrafficEvent.isSettled {ρ : Type} : TrafficEvent ρ → Bool
  | .settled _ _ _ => true
  | _ => false

theorem TrafficEvent.began_ne {ρ : Type} {i k : Nat} (hk : k ≠ i) :
    (.began i : TrafficEvent ρ) ≠ .began k := fun heq => hk (TrafficEvent.began.inj heq).symm

/-- How far a read has come. -/
inductive ReadPhase (ρ α : Type) where
  | waiting
  | begun (request : ρ) (context : HookContext)
  | answered (request : ρ) (context : HookContext) (result : α)
  | finished (request : ρ) (outcome : Except Fault α)

/-- How far a write has come. -/
inductive WritePhase where
  | waiting
  | changed (e : AfterEvent)
  | settled

/-- A collection with its cache, and the reads and writes that are under way. -/
structure Traffic (κ ρ α : Type) where
  collection : Collection
  cache : CacheState κ
  reads : Nat → ReadPhase ρ α
  writes : Nat → WritePhase
  log : List (TrafficEvent ρ)

namespace Traffic

variable {κ ρ α : Type}

/-- Nothing is under way yet. -/
def quiet (collection : Collection) (cache : CacheState κ) : Traffic κ ρ α where
  collection
  cache
  reads _ := .waiting
  writes _ := .waiting
  log := []

/-- How many writes have settled. -/
def settlements (s : Traffic κ ρ α) : Nat := s.log.countP (·.isSettled)

section Steps

variable (p : CachePlugin κ) (kind : TrafficKind ρ α) (s : Traffic κ ρ α)

/-- The hook before a read, with a context of its own. -/
def beginRead (i : Nat) (request : ρ) : Traffic κ ρ α :=
  let (_, context, cache) :=
    (p.before (kind.before request)).runOn ({ skipCache := kind.skipCache request }, s.cache)
  { s with
    cache
    reads := Function.update s.reads i (.begun request context)
    log := s.log ++ [.began i] }

/-- Takes the result that was served. -/
def takeServed (i : Nat) (request : ρ) (context : HookContext) (result : α) : Traffic κ ρ α :=
  { s with reads := Function.update s.reads i (.answered request context.take.2 result) }

/-- What a read of the store makes of a read. -/
def fetchedPhase (request : ρ) (context : HookContext) : Except Fault α → ReadPhase ρ α
  | .ok result => .answered request context.take.2 result
  | .error f => .finished request (.error f)

/-- A read of the store. -/
def fetch (i : Nat) (request : ρ) (context : HookContext) : Traffic κ ρ α :=
  { s with
    reads := Function.update s.reads i
      (fetchedPhase request context (kind.find request s.collection))
    log := s.log ++ [.fetched i request s.collection] }

/-- The hook after a read. -/
def finishRead (i : Nat) (request : ρ) (context : HookContext) (result : α) : Traffic κ ρ α :=
  let (_, _, cache) := (p.after (kind.after request result)).runOn (context, s.cache)
  { s with
    cache
    reads := Function.update s.reads i (.finished request (.ok result))
    log := s.log ++ [.finished i] }

/-- The change of the store by a write. -/
def changeStore (j : Nat) (e : AfterEvent) (collection : Collection) : Traffic κ ρ α :=
  { s with
    collection
    writes := Function.update s.writes j (.changed e)
    log := s.log ++ [.changed j] }

/-- The hook after a write, with a context of its own. -/
def settleWrite (j : Nat) (e : AfterEvent) : Traffic κ ρ α :=
  let (_, _, cache) := (p.after e).runOn ({}, s.cache)
  { s with
    cache
    writes := Function.update s.writes j .settled
    log := s.log ++ [.settled j e cache.version.current] }

/-- The next step of a read, if it has one. -/
def advanceRead (i : Nat) (request : ρ) : Traffic κ ρ α :=
  match s.reads i with
  | .waiting => s.beginRead p kind i request
  | .begun request context =>
    match kind.pick request context.served with
    | some result => s.takeServed i request context result
    | none => s.fetch kind i request context
  | .answered request context result => s.finishRead p kind i request context result
  | .finished _ _ => s

/-- Another state of the adapter. -/
def withAdapter (k : κ) : Traffic κ ρ α := { s with cache := { s.cache with adapter := k } }

end Steps

section Hooks

variable {p : CachePlugin κ} (kind : TrafficKind ρ α) {s : Traffic κ ρ α}
  {out : Except Fault Unit} {context context' : HookContext} {cache : CacheState κ}

theorem beginRead_eq {request : ρ} (h : (p.before (kind.before request)).runOn
    ({ skipCache := kind.skipCache request }, s.cache) = (out, context, cache)) (i : Nat) :
    s.beginRead p kind i request = { s with
      cache
      reads := Function.update s.reads i (.begun request context)
      log := s.log ++ [.began i] } := by
  simp only [beginRead, h]

theorem finishRead_eq {request : ρ} {result : α}
    (h : (p.after (kind.after request result)).runOn (context, s.cache) = (out, context', cache))
    (i : Nat) :
    s.finishRead p kind i request context result = { s with
      cache
      reads := Function.update s.reads i (.finished request (.ok result))
      log := s.log ++ [.finished i] } := by
  simp only [finishRead, h]

omit kind in
theorem settleWrite_eq {e : AfterEvent}
    (h : (p.after e).runOn ({}, s.cache) = (out, context, cache)) (j : Nat) :
    s.settleWrite p j e = { s with
      cache
      writes := Function.update s.writes j .settled
      log := s.log ++ [.settled j e cache.version.current] } := by
  simp only [settleWrite, h]

theorem log_beginRead (i : Nat) (request : ρ) :
    (s.beginRead p kind i request).log = s.log ++ [.began i] := rfl

omit kind in
theorem log_settleWrite (j : Nat) (e : AfterEvent) : (s.settleWrite p j e).log =
    s.log ++ [.settled j e (s.settleWrite p j e).cache.version.current] := rfl

omit kind in
theorem settlements_settleWrite (j : Nat) (e : AfterEvent) :
    (s.settleWrite p j e).settlements = s.settlements + 1 := List.countP_append

end Hooks

end Traffic

open Traffic

variable {κ ρ α : Type} {p : CachePlugin κ} {kind : TrafficKind ρ α}
  {Holds : κ → CacheMemory → Prop}

/-- One step of any read or write. Between the steps the adapter may lose what it was given, and be
used under other keys. -/
inductive TrafficStep (p : CachePlugin κ) (kind : TrafficKind ρ α)
    (Holds : κ → CacheMemory → Prop) : Traffic κ ρ α → Traffic κ ρ α → Prop
  | beginRead (s : Traffic κ ρ α) {i : Nat} {request : ρ} (hi : s.reads i = .waiting)
      (hasks : kind.asks request) : TrafficStep p kind Holds s (s.beginRead p kind i request)
  | takeServed (s : Traffic κ ρ α) {i : Nat} {request : ρ} {context : HookContext} {result : α}
      (hi : s.reads i = .begun request context)
      (hserved : kind.pick request context.served = some result) :
      TrafficStep p kind Holds s (s.takeServed i request context result)
  | fetch (s : Traffic κ ρ α) {i : Nat} {request : ρ} {context : HookContext}
      (hi : s.reads i = .begun request context)
      (hserved : kind.pick request context.served = none) :
      TrafficStep p kind Holds s (s.fetch kind i request context)
  | finishRead (s : Traffic κ ρ α) {i : Nat} {request : ρ} {context : HookContext} {result : α}
      (hi : s.reads i = .answered request context result) :
      TrafficStep p kind Holds s (s.finishRead p kind i request context result)
  | changeStore (s : Traffic κ ρ α) {j : Nat} (hj : s.writes j = .waiting) {e : AfterEvent}
      {collection : Collection} (hchange : kind.changes s.collection e collection) :
      TrafficStep p kind Holds s (s.changeStore j e collection)
  | settleWrite (s : Traffic κ ρ α) {j : Nat} {e : AfterEvent} (hj : s.writes j = .changed e) :
      TrafficStep p kind Holds s (s.settleWrite p j e)
  | lose (s : Traffic κ ρ α) {k : κ} (hk : ∀ m, Holds s.cache.adapter m → Holds k m) :
      TrafficStep p kind Holds s (s.withAdapter k)
  | keepOther (s : Traffic κ ρ α) {key : String} (hkey : kind.others key) (text : String)
      (ttl : Nat) :
      TrafficStep p kind Holds s
        (s.withAdapter (p.adapter.afterSet key text ttl s.cache.adapter))

/-- Steps in any order. -/
abbrev TrafficRun (p : CachePlugin κ) (kind : TrafficKind ρ α) (Holds : κ → CacheMemory → Prop) :
    Traffic κ ρ α → Traffic κ ρ α → Prop :=
  Relation.ReflTransGen (TrafficStep p kind Holds)

/-! ## The log -/

/-- No step is taken out of the log. -/
theorem TrafficStep.log_grows {s t : Traffic κ ρ α} (hst : TrafficStep p kind Holds s t) :
    s.log <+: t.log := by
  cases hst with
  | beginRead | fetch | finishRead | changeStore | settleWrite => exact List.prefix_append _ _
  | takeServed | lose | keepOther => exact List.prefix_rfl

theorem TrafficRun.log_grows {s t : Traffic κ ρ α} (hst : TrafficRun p kind Holds s t) :
    s.log <+: t.log := by
  induction hst with
  | refl => exact List.prefix_rfl
  | tail _ hstep ih => exact ih.trans hstep.log_grows

theorem TrafficStep.settlements_le {s t : Traffic κ ρ α} (hst : TrafficStep p kind Holds s t) :
    s.settlements ≤ t.settlements :=
  hst.log_grows.sublist.countP_le

/-- The log has what has been done. A write that waits for its hook was one of the kind. -/
structure Traffic.Logged (kind : TrafficKind ρ α) (s : Traffic κ ρ α) : Prop where
  waiting : ∀ i, s.reads i = .waiting → .began i ∉ s.log
  announced : ∀ j e, s.writes j = .changed e → ∃ c c', kind.changes c e c'
  changed : ∀ j e, s.writes j = .changed e → .changed j ∈ s.log
  settled : ∀ j e n, .settled j e n ∈ s.log → .changed j ∈ s.log

namespace Traffic.Logged

variable {s : Traffic κ ρ α} (h : s.Logged kind)

include h

theorem withCache (cache : CacheState κ) : ({ s with cache } : Traffic κ ρ α).Logged kind :=
  ⟨h.waiting, h.announced, h.changed, h.settled⟩

/-- A read that is not waiting any more takes a step, which may be logged. -/
theorem read (i : Nat) {phase : ReadPhase ρ α} (hphase : phase ≠ .waiting)
    (events : List (TrafficEvent ρ)) (hbegan : ∀ k, k ≠ i → .began k ∉ events)
    (hsettled : ∀ j e n, .settled j e n ∉ events) :
    ({ s with reads := Function.update s.reads i phase, log := s.log ++ events } :
      Traffic κ ρ α).Logged kind := by
  refine ⟨Function.forall_update_iff s.reads (fun k (phase : ReadPhase ρ α) =>
      phase = .waiting → TrafficEvent.began k ∉ s.log ++ events) |>.mpr
        ⟨fun hwaiting => absurd hwaiting hphase, fun k hk hwaiting hmem => ?_⟩, h.announced,
    fun j e hj => List.mem_append_left _ (h.changed j e hj), fun j e n hmem => ?_⟩
  · exact (List.mem_append.mp hmem).elim (h.waiting k hwaiting) (hbegan k hk)
  · exact List.mem_append_left _
      (h.settled j e n ((List.mem_append.mp hmem).resolve_right (hsettled j e n)))

/-- A step of a write is logged. -/
theorem write (j : Nat) (phase : WritePhase) (event : TrafficEvent ρ)
    (hbegan : ∀ i, event ≠ .began i)
    (hsettled : ∀ k e n, event = .settled k e n → .changed k ∈ s.log)
    (hphase : ∀ e, phase = .changed e →
      (∃ c c', kind.changes c e c') ∧ event = .changed j) :
    ({ s with writes := Function.update s.writes j phase, log := s.log ++ [event] } :
      Traffic κ ρ α).Logged kind := by
  refine ⟨fun i hi hmem => ?_, Function.forall_update_iff s.writes
      (fun k (phase : WritePhase) => ∀ e, phase = .changed e → ∃ c c', kind.changes c e c') |>.mpr
        ⟨fun e he => (hphase e he).1, fun k _ => h.announced k⟩,
    Function.forall_update_iff s.writes (fun k (phase : WritePhase) =>
      ∀ e, phase = .changed e → TrafficEvent.changed k ∈ s.log ++ [event]) |>.mpr
        ⟨fun e he => ?_, fun k _ e hk => List.mem_append_left _ (h.changed k e hk)⟩,
    fun k e n hmem => List.mem_append_left _ ?_⟩
  · rcases List.mem_append.mp hmem with hlog | hlast
    · exact h.waiting i hi hlog
    · exact hbegan i (List.mem_singleton.mp hlast).symm
  · exact List.mem_append_right _ (List.mem_singleton.mpr (hphase e he).2.symm)
  · rcases List.mem_append.mp hmem with hlog | hlast
    · exact h.settled k e n hlog
    · exact hsettled k e n (List.mem_singleton.mp hlast).symm

theorem step {t : Traffic κ ρ α} (hst : TrafficStep p kind Holds s t) : t.Logged kind := by
  cases hst with
  | @beginRead i request hi hasks =>
    obtain ⟨context, cache, hbefore, -⟩ :=
      p.exists_runOn_before (kind.before request) { skipCache := kind.skipCache request } s.cache
    rw [beginRead_eq kind hbefore]
    have hbegun : ReadPhase.begun request context ≠ (.waiting : ReadPhase ρ α) := nofun
    exact (h.read i hbegun [.began i] (by simp) (by simp)).withCache cache
  | @takeServed i request context result hi hserved =>
    have hanswered : ReadPhase.answered request context.take.2 result ≠ .waiting := nofun
    have hread := h.read i hanswered [] (by simp) (by simp)
    rw [List.append_nil] at hread
    exact hread
  | @fetch i request context hi hserved =>
    have hfetched : fetchedPhase request context (kind.find request s.collection) ≠ .waiting := by
      cases kind.find request s.collection <;> nofun
    exact h.read i hfetched [.fetched i request s.collection] (by simp) (by simp)
  | @finishRead i request context result hi =>
    obtain ⟨cache, hafter⟩ := p.exists_runOn_after (kind.after request result) context s.cache
    rw [finishRead_eq kind hafter]
    have hfinished : ReadPhase.finished request (.ok result) ≠ .waiting := nofun
    exact (h.read i hfinished [.finished i] (by simp) (by simp)).withCache cache
  | @changeStore j hj e collection hchange =>
    have hwrite := h.write j (.changed e) (.changed j) (by simp) (by simp)
      fun e' he => ⟨⟨_, _, WritePhase.changed.inj he ▸ hchange⟩, rfl⟩
    exact ⟨hwrite.waiting, hwrite.announced, hwrite.changed, hwrite.settled⟩
  | @settleWrite j e hj =>
    obtain ⟨cache, hafter⟩ := p.exists_runOn_after e {} s.cache
    rw [settleWrite_eq hafter]
    refine (h.write j .settled _ (by simp) (fun k e' n heq => ?_) fun e' he => ?_).withCache cache
    · cases heq
      exact h.changed j e hj
    · cases he
  | lose hk => exact h.withCache _
  | keepOther hkey text ttl => exact h.withCache _

end Traffic.Logged

theorem TrafficRun.logged {collection : Collection} {cache : CacheState κ} {s : Traffic κ ρ α}
    (hst : TrafficRun p kind Holds (quiet collection cache) s) : s.Logged kind := by
  induction hst with
  | refl =>
    have hnone : ∀ j e, (quiet collection cache : Traffic κ ρ α).writes j ≠ .changed e :=
      fun j e hj => WritePhase.noConfusion hj
    exact ⟨fun _ _ => List.not_mem_nil, fun j e hj => absurd hj (hnone j e),
      fun j e hj => absurd hj (hnone j e), fun j e n hmem => absurd hmem List.not_mem_nil⟩
  | tail _ hstep ih => exact ih.step hstep

/-! ## The hooks of writes -/

namespace CachePlugin

variable (p : CachePlugin κ)

theorem runOn_before_write {e : BeforeEvent} (he : e.operation.isRead = false)
    (s : CacheState κ) : (p.before e).runOn ({}, s) = (.ok (), {}, s) := by
  cases henabled : p.settings.enabled with
  | false => exact runOn_before_of_disabled henabled e {} s
  | true =>
    have h := p.runOn_before henabled e {} s
    rw [show p.source? {} s.version.current e = none by
      cases e <;> first | rfl | cases he] at h
    exact h

/-- After a write nothing happens where caching is off. Otherwise the version is raised. -/
theorem runOn_after_write {e : AfterEvent} (he : e.operation.isRead = false) (c : HookContext)
    (s : CacheState κ) :
    (p.settings.enabled = false ∧ (p.after e).runOn (c, s) = (.ok (), c, s)) ∨
      p.settings.enabled = true ∧ ∃ stats, (p.after e).runOn (c, s) =
        (.ok (), c, ⟨⟨ListVersion.next s.version.current⟩, stats,
          p.afterPersist (ListVersion.next s.version.current) (p.afterWrite e s.adapter)⟩) := by
  cases henabled : p.settings.enabled with
  | false => exact Or.inl ⟨rfl, runOn_after_of_disabled henabled e c s⟩
  | true => exact Or.inr ⟨rfl, p.runOn_after_of_write henabled he c s⟩

end CachePlugin

/-! ## The steps of one read -/

section Advance

variable {s : Traffic κ ρ α} {i : Nat} {request : ρ}

theorem TrafficRun.advanceRead (hasks : s.reads i = .waiting → kind.asks request) :
    TrafficRun p kind Holds s (s.advanceRead p kind i request) := by
  rw [Traffic.advanceRead]
  cases hi : s.reads i with
  | waiting => exact .single (.beginRead s hi (hasks hi))
  | begun request context =>
    cases hserved : kind.pick request context.served with
    | some result =>
      simp only [hserved]
      exact .single (.takeServed s hi hserved)
    | none =>
      simp only [hserved]
      exact .single (.fetch s hi hserved)
  | answered request context result => exact .single (.finishRead s hi)
  | finished request out => exact .refl

namespace Traffic

variable (p kind) (other : ρ)

/-- The step of a read leaves other reads where they are. -/
theorem reads_advanceRead_of_ne {k : Nat} (hk : k ≠ i) :
    (s.advanceRead p kind i other).reads k = s.reads k := by
  rw [advanceRead]
  split
  · exact Function.update_of_ne hk _ _
  · split <;> exact Function.update_of_ne hk _ _
  · exact Function.update_of_ne hk _ _
  · rfl

theorem writes_advanceRead : (s.advanceRead p kind i other).writes = s.writes := by
  rw [advanceRead]
  split
  · rfl
  · split <;> rfl
  · rfl
  · rfl

theorem collection_advanceRead : (s.advanceRead p kind i other).collection = s.collection := by
  rw [advanceRead]
  split
  · rfl
  · split <;> rfl
  · rfl
  · rfl

theorem advanceRead_of_waiting (hi : s.reads i = .waiting) :
    s.advanceRead p kind i request = s.beginRead p kind i request := by
  simp only [advanceRead, hi]

theorem advanceRead_of_begun {context : HookContext} (hi : s.reads i = .begun request context) :
    (∃ c result, (s.advanceRead p kind i other).reads i = .answered request c result) ∨
      ∃ f, (s.advanceRead p kind i other).reads i = .finished request (.error f) := by
  simp only [advanceRead, hi]
  cases kind.pick request context.served with
  | some result => exact Or.inl ⟨_, result, Function.update_self _ _ _⟩
  | none =>
    simp only [fetch]
    cases kind.find request s.collection with
    | ok result => exact Or.inl ⟨_, result, Function.update_self _ _ _⟩
    | error f => exact Or.inr ⟨f, Function.update_self _ _ _⟩

theorem advanceRead_of_answered {context : HookContext} {result : α}
    (hi : s.reads i = .answered request context result) :
    (s.advanceRead p kind i other).reads i = .finished request (.ok result) := by
  simp only [advanceRead, hi]
  exact Function.update_self _ _ _

theorem advanceRead_of_finished {out : Except Fault α} (hi : s.reads i = .finished request out) :
    s.advanceRead p kind i other = s := by
  simp only [advanceRead, hi]

/-- Three steps are a whole read. -/
theorem exists_finished_of_waiting (request : ρ) (hi : s.reads i = .waiting) :
    ∃ out, (((s.advanceRead p kind i request).advanceRead p kind i other).advanceRead p kind
      i other).reads i = .finished request out := by
  have hbegun : ∃ context, (s.advanceRead p kind i request).reads i = .begun request context := by
    rw [advanceRead_of_waiting p kind hi, beginRead]
    exact ⟨_, Function.update_self _ _ _⟩
  obtain ⟨context, hbegun⟩ := hbegun
  rcases advanceRead_of_begun p kind other hbegun with ⟨c, result, hanswered⟩ | ⟨f, hfailed⟩
  · exact ⟨_, advanceRead_of_answered p kind other hanswered⟩
  · exact ⟨_, by rw [advanceRead_of_finished p kind other hfailed, hfailed]⟩

end Traffic

/-- A read that has begun can always be finished. -/
theorem TrafficRun.exists_finished (hi : s.reads i ≠ .waiting) :
    ∃ t request out, TrafficRun p kind Holds s t ∧ t.reads i = .finished request out := by
  cases hphase : s.reads i with
  | waiting => exact absurd hphase hi
  | begun request context =>
    have hnext : TrafficRun p kind Holds s (s.advanceRead p kind i request) :=
      .advanceRead fun h => absurd h hi
    rcases advanceRead_of_begun p kind request hphase with
      ⟨c, result, hanswered⟩ | ⟨f, hfailed⟩
    · exact ⟨_, request, _, hnext.tail (.finishRead _ hanswered), Function.update_self _ _ _⟩
    · exact ⟨_, request, _, hnext, hfailed⟩
  | answered request context result =>
    exact ⟨_, request, _, .single (.finishRead s hphase), Function.update_self _ _ _⟩
  | finished request out => exact ⟨s, request, out, .refl, hphase⟩

end Advance

/-! ## Steps without others between them -/

namespace TrafficRun

open CachedStore

variable {settings : PagingSettings} {timestamps : Bool}

/-- The steps of a read, one after another, are the read. -/
theorem exists_readThrough (kind : TrafficKind ρ α) (w : CachedStore κ) {s : Traffic κ ρ α}
    (hcollection : s.collection = w.collection) (hcache : s.cache = w.cache) {i : Nat}
    (hi : s.reads i = .waiting) (request : ρ) (hasks : kind.asks request)
    {find : Action (CachedStore κ) α} (hfind : ∀ cache : CacheState κ,
      find.runOn { w with cache } = (kind.find request w.collection, { w with cache })) :
    let run := ((repository p settings timestamps).readThrough (kind.skipCache request)
      (kind.before request) (kind.pick request) find (kind.after request)).runOn w
    ∃ t, TrafficRun p kind Holds s t ∧ t.collection = run.2.collection ∧ t.cache = run.2.cache ∧
      t.reads i = .finished request run.1 := by
  intro run
  obtain ⟨c, cache, hbefore, -, -⟩ :=
    p.exists_runOn_before (kind.before request) { skipCache := kind.skipCache request } w.cache
  have hbegin : TrafficRun p kind Holds s (s.beginRead p kind i request) :=
    .single (.beginRead s hi hasks)
  rw [← hcache] at hbefore
  rw [beginRead_eq kind hbefore] at hbegin
  rw [hcache] at hbefore
  have hphase : Function.update s.reads i (.begun request c) i = .begun request c :=
    Function.update_self _ _ _
  cases hserved : kind.pick request c.served with
  | some x =>
    obtain ⟨cache', hafter⟩ := p.exists_runOn_after (kind.after request x) c.take.2 cache
    have hrun : run = _ := runOn_readThrough_of_ok p settings timestamps _ hbefore
      (hfind cache) (by rw [hserved]; rfl) hafter
    have htaken := hbegin.tail (.takeServed _ hphase hserved)
    have hfinish := htaken.tail (.finishRead _ (Function.update_self _ _ _))
    rw [Traffic.takeServed, finishRead_eq kind hafter] at hfinish
    rw [hrun]
    exact ⟨_, hfinish, hcollection, rfl, Function.update_self _ _ _⟩
  | none =>
    have hfetched := hbegin.tail (.fetch _ hphase hserved)
    cases hfound : kind.find request w.collection with
    | ok x =>
      obtain ⟨cache', hafter⟩ := p.exists_runOn_after (kind.after request x) c.take.2 cache
      have hrun : run = _ := runOn_readThrough_of_ok p settings timestamps _ hbefore
        (hfind cache) (by rw [hserved]; exact hfound) hafter
      simp only [Traffic.fetch, hcollection, hfound, fetchedPhase] at hfetched
      have hfinish := hfetched.tail (.finishRead _ (Function.update_self _ _ _))
      rw [finishRead_eq kind hafter] at hfinish
      rw [hrun]
      exact ⟨_, hfinish, rfl, rfl, Function.update_self _ _ _⟩
    | error f =>
      have hrun : run = _ := runOn_readThrough_of_error p settings timestamps _ hbefore
        (hfind cache) (by rw [hserved]; exact hfound)
      simp only [Traffic.fetch, hcollection, hfound, fetchedPhase] at hfetched
      rw [hrun]
      exact ⟨_, hfetched, rfl, rfl, Function.update_self _ _ _⟩

/-- The change of the store and the hook after it, one after the other, are the write. -/
theorem exists_announced (kind : TrafficKind ρ α) {β : Type} {w t : CachedStore κ}
    {change : Action (CachedStore κ) β} {x : β} (hchange : change.runOn w = (.ok x, t))
    (hcached : t.cache = w.cache) {e : BeforeEvent} (he : e.operation.isRead = false)
    {report : β → AfterEvent}
    (hchanges : kind.changes w.collection (report x) t.collection) {s : Traffic κ ρ α}
    (hcollection : s.collection = w.collection) (hcache : s.cache = w.cache) {j : Nat}
    (hj : s.writes j = .waiting) :
    let run := ((repository p settings timestamps).announced e change report).runOn w
    ∃ u, TrafficRun p kind Holds s u ∧ u.collection = run.2.collection ∧ u.cache = run.2.cache ∧
      u.writes j = .settled := by
  intro run
  obtain ⟨cache', hafter⟩ := p.exists_runOn_after (report x) {} w.cache
  have hrun : run = (.ok x, { t with cache := cache' }) :=
    runOn_announced_of_ok p settings timestamps (p.runOn_before_write he w.cache) hchange
      (hcached ▸ hafter)
  rw [← hcollection] at hchanges
  have hchanged : TrafficRun p kind Holds s (s.changeStore j (report x) t.collection) :=
    .single (.changeStore s hj hchanges)
  have hsettled := hchanged.tail (.settleWrite _ (Function.update_self _ _ _))
  have hcurrent : (p.after (report x)).runOn
      ({}, (s.changeStore j (report x) t.collection).cache) = (.ok (), {}, cache') :=
    hcache ▸ hafter
  rw [settleWrite_eq hcurrent] at hsettled
  rw [hrun]
  exact ⟨_, hsettled, rfl, rfl, Function.update_self _ _ _⟩

end TrafficRun
end Quire
