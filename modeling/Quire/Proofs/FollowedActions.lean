import Quire.Proofs.CachedStores

/-!
# Followed actions

An action over one state follows an action over another if related states stay related and the
outcomes are the same, except that the first may succeed by itself with some results. The reads and
writes of a repository whose hooks never fail follow those of a repository without hooks.
-/
namespace Quire

variable {σ τ υ α β : Type} {R : σ → τ → Prop}

namespace Action

/-- From related states the actions lead to related states. They have the same outcome, unless the
first one succeeds with a result of its own. -/
def Follows (R : σ → τ → Prop) (own : α → Prop) (a : Action σ α) (b : Action τ α) : Prop :=
  ∀ s t, R s t → R (a.runOn s).2 (b.runOn t).2 ∧
    ((a.runOn s).1 = (b.runOn t).1 ∨ ∃ x, (a.runOn s).1 = .ok x ∧ own x)

/-- From related states the actions lead to related states, with the same outcome. -/
abbrev Alike (R : σ → τ → Prop) (a : Action σ α) (b : Action τ α) : Prop :=
  Follows R (fun _ => False) a b

theorem Follows.mono {own own' : α → Prop} {a : Action σ α} {b : Action τ α}
    (h : a.Follows R own b) (hown : ∀ x, own x → own' x) : a.Follows R own' b := by
  intro s t hst
  obtain ⟨hR, hout⟩ := h s t hst
  exact ⟨hR, hout.imp_right fun ⟨x, hx, hxown⟩ => ⟨x, hx, hown x hxown⟩⟩

theorem Alike.runOn {a : Action σ α} {b : Action τ α} (h : a.Alike R b) {s : σ} {t : τ}
    (hst : R s t) : (a.runOn s).1 = (b.runOn t).1 ∧ R (a.runOn s).2 (b.runOn t).2 := by
  obtain ⟨hR, hout | ⟨x, -, hx⟩⟩ := h s t hst
  · exact ⟨hout, hR⟩
  · exact hx.elim

theorem follows_pure {own : α → Prop} (x : α) :
    (pure x : Action σ α).Follows R own (pure x) :=
  fun _ _ hst => ⟨hst, Or.inl rfl⟩

theorem follows_ofExcept {own : α → Prop} (r : Except Fault α) :
    (ofExcept r : Action σ α).Follows R own (ofExcept r) :=
  fun _ _ hst => ⟨hst, Or.inl rfl⟩

/-- After actions with the same outcome, the rest decides. -/
theorem Follows.bind {own : β → Prop} {a : Action σ α} {b : Action τ α} {k : α → Action σ β}
    {l : α → Action τ β} (h : a.Alike R b) (hk : ∀ x, (k x).Follows R own (l x)) :
    (a >>= k).Follows R own (b >>= l) := by
  intro s t hst
  obtain ⟨hout, hR⟩ := h.runOn hst
  rw [runOn_bind, runOn_bind]
  rcases ha : a.runOn s with ⟨x, s'⟩
  rcases hb : b.runOn t with ⟨y, t'⟩
  rw [ha, hb] at hout hR
  cases hout
  cases x with
  | error f => exact ⟨hR, Or.inl rfl⟩
  | ok x => exact hk x s' t' hR

/-- A result of its own may be turned into another one, but not into a fault. -/
theorem Follows.bind_ofExcept {own : α → Prop} {a : Action σ α} {b : Action τ α}
    (h : a.Follows R own b) (own' : β → Prop) {f : α → Except Fault β}
    (hf : ∀ x, own x → ∃ y, f x = .ok y ∧ own' y) :
    (a >>= fun x => ofExcept (f x)).Follows R own' (b >>= fun x => ofExcept (f x)) := by
  intro s t hst
  obtain ⟨hR, hout⟩ := h s t hst
  rw [runOn_bind, runOn_bind]
  rcases ha : a.runOn s with ⟨x, s'⟩
  rcases hb : b.runOn t with ⟨y, t'⟩
  rw [ha, hb] at hout hR
  rcases hout with hsame | ⟨x, hx, hown⟩
  · cases hsame
    cases x with
    | error f => exact ⟨hR, Or.inl rfl⟩
    | ok x => exact ⟨hR, Or.inl rfl⟩
  · cases hx
    obtain ⟨z, hz, hown'⟩ := hf x hown
    refine ⟨?_, Or.inr ⟨z, hz, hown'⟩⟩
    cases y <;> exact hR

theorem Follows.map {own : α → Prop} {own' : β → Prop} {a : Action σ α} {b : Action τ α}
    (h : a.Follows R own b) {f : α → β} (hf : ∀ x, own x → own' (f x)) :
    (f <$> a).Follows R own' (f <$> b) := by
  rw [map_eq_pure_bind, map_eq_pure_bind]
  exact h.bind_ofExcept own' (f := fun x => .ok (f x)) fun x hx => ⟨f x, rfl, hf x hx⟩

end Action

/-! ## Parts of related states -/

/-- Parts that are the same in related states, and that stay so. -/
structure Part.Alike (R : σ → τ → Prop) (p : Part σ υ) (q : Part τ υ) : Prop where
  get : ∀ s t, R s t → p.get s = q.get t
  set : ∀ s t x, R s t → R (p.set x s) (q.set x t)

theorem Part.Alike.lift {p : Part σ υ} {q : Part τ υ} (h : p.Alike R q) (a : Action υ α) :
    (p.lift a).Alike R (q.lift a) := by
  intro s t hst
  rw [Part.runOn_lift, Part.runOn_lift, h.get s t hst]
  exact ⟨h.set s t _ hst, Or.inl rfl⟩

theorem Part.Alike.pair {ω : Type} {p : Part σ υ} {q : Part τ υ} (h : p.Alike R q)
    {p' : Part σ ω} {q' : Part τ ω} (h' : p'.Alike R q') : (p.pair p').Alike R (q.pair q') where
  get s t hst := Prod.ext (h.get s t hst) (h'.get s t hst)
  set s t _ hst := h'.set _ _ _ (h.set s t _ hst)

theorem Part.Alike.ofRead {p : Part σ υ} {q : Part τ υ} (h : p.Alike R q)
    (f : υ → Except Fault α) :
    (Action.ofRead fun s => f (p.get s)).Alike R (Action.ofRead fun t => f (q.get t)) := by
  intro s t hst
  refine ⟨hst, Or.inl ?_⟩
  show f (p.get s) = f (q.get t)
  rw [h.get s t hst]

/-- Where a state has a collection and what a repository needs besides it. -/
structure StoreParts (σ : Type) where
  collection : Part σ Collection
  ids : Part σ IdSource
  clock : Part σ Clock

structure StoreParts.Alike (R : σ → τ → Prop) (S : StoreParts σ) (T : StoreParts τ) : Prop where
  collection : S.collection.Alike R T.collection
  ids : S.ids.Alike R T.ids
  clock : S.clock.Alike R T.clock

/-- The repository of a collection in memory. -/
@[simps]
def StoreParts.repository (S : StoreParts σ) (name : String) (settings : PagingSettings)
    (timestamps : Bool) (hooks : List (Hook σ)) : Repository σ where
  collection := name
  store := Collection.store S.collection S.ids
  settings
  ids := S.ids
  clock := S.clock
  hooks
  timestamps

/-! ## What a repository does by itself -/

namespace Pager

variable {p : Part σ Collection} {q : Part τ Collection} (h : p.Alike R q)
  (settings : PagingSettings)

include h

theorem paginate_alike (r : OffsetRequest) :
    ((Pager.mk (Collection.reader p) settings).paginate r).Alike R
      ((Pager.mk (Collection.reader q) settings).paginate r) := by
  refine (Action.follows_ofExcept _).bind fun sort => ?_
  refine (h.ofRead fun c => c.find _).bind fun docs => ?_
  dsimp only
  split
  · exact (h.ofRead fun c => .ok c.docs.length).bind fun _ => Action.follows_pure _
  · exact (h.ofRead fun c => .ok (c.count r.filter)).bind fun _ => Action.follows_pure _

theorem stream_alike (r : KeysetRequest) :
    ((Pager.mk (Collection.reader p) settings).stream r).Alike R
      ((Pager.mk (Collection.reader q) settings).stream r) := by
  refine (Action.follows_ofExcept _).bind fun sort => ?_
  refine (Action.follows_ofExcept _).bind fun filter => ?_
  exact (h.ofRead fun c => c.find _).bind fun _ => Action.follows_ofExcept _

theorem aggregatePaginate_alike (r : AggregateRequest) :
    ((Pager.mk (Collection.reader p) settings).aggregatePaginate r).Alike R
      ((Pager.mk (Collection.reader q) settings).aggregatePaginate r) := by
  refine (h.ofRead fun c => c.results _).bind fun rows => ?_
  exact (Action.follows_ofExcept _).bind fun _ => Action.follows_pure _

end Pager

namespace StoreParts

variable {S : StoreParts σ} {T : StoreParts τ} (h : S.Alike R T) (name : String)
  (settings : PagingSettings) (timestamps : Bool) (hooks : List (Hook σ))

include h

theorem Alike.prepareNew (d : Document) :
    ((S.repository name settings timestamps hooks).prepareNew d).Alike R
      ((T.repository name settings timestamps []).prepareNew d) := by
  have hstamp : ∀ e : Document,
      (if timestamps then do
        let now ← S.clock.lift (Action.ofStep Clock.next)
        pure (Repository.stampNew now e)
      else pure e : Action σ Document).Alike R
      (if timestamps then do
        let now ← T.clock.lift (Action.ofStep Clock.next)
        pure (Repository.stampNew now e)
      else pure e) := by
    intro e
    cases timestamps with
    | false => exact Action.follows_pure _
    | true => exact (h.clock.lift _).bind fun _ => Action.follows_pure _
  rw [Repository.prepareNew, Repository.prepareNew]
  simp only [repository_settings, repository_timestamps, repository_ids, repository_clock]
  by_cases hid : (d.get? settings.idField).all Value.isNull = true
  · rw [if_pos hid, if_pos hid]
    exact (h.ids.lift _).bind fun _ => (Action.follows_pure _).bind hstamp
  · rw [if_neg hid, if_neg hid]
    exact (Action.follows_pure d).bind hstamp

theorem Alike.prepareAllNew (ds : List Document) :
    ((S.repository name settings timestamps hooks).prepareAllNew ds).Alike R
      ((T.repository name settings timestamps []).prepareAllNew ds) := by
  induction ds with
  | nil => exact Action.follows_pure _
  | cons d ds ih =>
    refine (h.prepareNew name settings timestamps hooks d).bind fun _ => ?_
    exact Action.Follows.bind ih fun _ => Action.follows_pure _

theorem Alike.preparePatch (patch : Document) :
    ((S.repository name settings timestamps hooks).preparePatch patch).Alike R
      ((T.repository name settings timestamps []).preparePatch patch) := by
  cases timestamps with
  | false => exact Action.follows_pure _
  | true => exact (h.clock.lift _).bind fun _ => Action.follows_pure _

theorem Alike.readList (mode : ListMode) :
    ((S.repository name settings timestamps hooks).readList mode).Alike R
      ((T.repository name settings timestamps []).readList mode) := by
  cases mode with
  | offset r => exact (Pager.paginate_alike h.collection settings r).map fun _ hx => hx
  | keyset r => exact (Pager.stream_alike h.collection settings r).map fun _ hx => hx

end StoreParts

/-! ## Harmless hooks -/

/-- A hook that never fails and changes nothing that the relation is about. It gives no result to a
read past the cache, and none at all if it is silent. -/
structure Hook.Harmless (R : σ → τ → Prop) (silent : Prop) (h : Hook σ) : Prop where
  before : ∀ e c s t, R s t → ∃ c' s', (h.before e).runOn (c, s) = (.ok (), c', s') ∧ R s' t ∧
    c'.skipCache = c.skipCache ∧ (c.skipCache = true ∨ silent → c'.served = c.served)
  after : ∀ e c s t, R s t → ∃ c' s', (h.after e).runOn (c, s) = (.ok (), c', s') ∧ R s' t

namespace Hook

variable {silent : Prop} {hooks : List (Hook σ)}

theorem runOn_emitBefore (hh : ∀ h ∈ hooks, h.Harmless R silent) (e : BeforeEvent)
    (c : HookContext) {s : σ} {t : τ} (hst : R s t) :
    ∃ c' s', (emitBefore hooks e).runOn (c, s) = (.ok (), c', s') ∧ R s' t ∧
      c'.skipCache = c.skipCache ∧ (c.skipCache = true ∨ silent → c'.served = c.served) := by
  induction hooks generalizing c s with
  | nil => exact ⟨c, s, rfl, hst, rfl, fun _ => rfl⟩
  | cons h hooks ih =>
    rw [List.forall_mem_cons] at hh
    obtain ⟨c', s', hrun, hR, hskip, hserved⟩ := hh.1.before e c s t hst
    obtain ⟨c'', s'', hrest, hR', hskip', hserved'⟩ := ih hh.2 c' hR
    refine ⟨c'', s'', ?_, hR', hskip'.trans hskip, fun hquiet => ?_⟩
    · rw [emitBefore, Action.runOn_bind_of_ok hrun, hrest]
    · exact (hserved' (hskip ▸ hquiet)).trans (hserved hquiet)

theorem runOn_emitAfter (hh : ∀ h ∈ hooks, h.Harmless R silent) (e : AfterEvent)
    (c : HookContext) {s : σ} {t : τ} (hst : R s t) :
    ∃ c' s', (emitAfter hooks e).runOn (c, s) = (.ok (), c', s') ∧ R s' t := by
  induction hooks generalizing c s with
  | nil => exact ⟨c, s, rfl, hst⟩
  | cons h hooks ih =>
    rw [List.forall_mem_cons] at hh
    obtain ⟨c', s', hrun, hR⟩ := hh.1.after e c s t hst
    obtain ⟨c'', s'', hrest, hR'⟩ := ih hh.2 c' hR
    exact ⟨c'', s'', by rw [emitAfter, Action.runOn_bind_of_ok hrun, hrest], hR'⟩

end Hook

namespace Repository

variable {silent : Prop} {r : Repository σ} {q : Repository τ}

/-- Where nobody listens, a write is the change alone. -/
theorem runOn_announced_of_no_hooks (hq : q.hooks = []) (e : BeforeEvent) (change : Action τ α)
    (report : α → AfterEvent) (t : τ) :
    (q.announced e change report).runOn t = change.runOn t := by
  have hafter : ∀ x, q.after (report x) = pure () := fun x => by rw [after, hq]; rfl
  rw [announced, before, hq]
  simp only [Hook.emitBefore, hafter, pure_bind, bind_pure]
  rfl

/-- Where nobody listens, a read is the store's. -/
theorem runOn_readThrough_of_no_hooks (hq : q.hooks = []) (skip : Bool) (e : BeforeEvent)
    {pick : Option HookResult → Option α} (hpick : pick none = none) (find : Action τ α)
    (report : α → AfterEvent) (t : τ) :
    (q.readThrough skip e pick find report).runOn t = find.runOn t := by
  have hafter : ∀ x, q.after (report x) = pure () := fun x => by rw [after, hq]; rfl
  have htake : takeServed.runOn (({ skipCache := skip } : HookContext), t) =
      (.ok none, { skipCache := skip }, t) := rfl
  rw [readThrough, before, hq]
  simp only [Hook.emitBefore, hafter, pure_bind, bind_pure]
  rw [inContext, Action.runOn_ofFun, servedOr, Action.runOn_bind_of_ok htake, hpick]
  rfl

section Hooks

variable (hr : ∀ h ∈ r.hooks, h.Harmless R silent) (hq : q.hooks = [])

include hr hq

omit hq in
/-- With harmless hooks a write ends as its change does, carried out in a related state. -/
theorem exists_runOn_announced (e : BeforeEvent) (change : Action σ α) (report : α → AfterEvent)
    {s : σ} {t : τ} (hst : R s t) (after' : σ → τ)
    (hchange : ∀ s', R s' t → R (change.runOn s').2 (after' s')) :
    ∃ s' u, R s' t ∧ (r.announced e change report).runOn s = ((change.runOn s').1, u) ∧
      R u (after' s') := by
  rw [announced, inContext, Action.runOn_ofFun, before]
  obtain ⟨c, s', hbefore, hR, -, -⟩ := Hook.runOn_emitBefore hr e {} hst
  have hR' := hchange s' hR
  have hstore : (onState change).runOn (c, s') =
      ((change.runOn s').1, c, (change.runOn s').2) := rfl
  rw [Action.runOn_bind_of_ok hbefore]
  rcases hx : change.runOn s' with ⟨f | x, s''⟩
  · rw [hx] at hstore hR'
    rw [Action.runOn_bind_of_error hstore]
    exact ⟨s', s'', hR, by rw [hx], hR'⟩
  · rw [hx] at hstore hR'
    obtain ⟨c', u, hafter, hR''⟩ := Hook.runOn_emitAfter hr (report x) c hR'
    rw [Action.runOn_bind_of_ok hstore, after, Action.runOn_bind_of_ok hafter]
    exact ⟨s', u, hR, by rw [hx]; rfl, hR''⟩

/-- Harmless hooks leave a write as it is. -/
theorem announced_alike (e : BeforeEvent) {change : Action σ α} {change' : Action τ α}
    (h : change.Alike R change') (report : α → AfterEvent) :
    (r.announced e change report).Alike R (q.announced e change' report) := by
  intro s t hst
  obtain ⟨s', u, hR, hrun, hR'⟩ := exists_runOn_announced hr e change report hst
    (fun _ => (change'.runOn t).2) fun s' hs' => (h.runOn hs').2
  rw [runOn_announced_of_no_hooks hq, hrun]
  exact ⟨hR', Or.inl (h.runOn hR).1⟩

/-- With harmless hooks a read returns what the store gives, or a result that a hook served. -/
theorem readThrough_follows (skip : Bool) (e : BeforeEvent)
    {pick : Option HookResult → Option α} (hpick : pick none = none) {find : Action σ α}
    {find' : Action τ α} (h : find.Alike R find')
    (hreads : ∀ s t, R s t → R s (find'.runOn t).2) (report : α → AfterEvent) :
    (r.readThrough skip e pick find report).Follows R
      (fun x => ¬ (skip = true ∨ silent) ∧ ∃ served, pick served = some x)
      (q.readThrough skip e pick find' report) := by
  intro s t hst
  rw [runOn_readThrough_of_no_hooks hq skip e hpick, readThrough, inContext, Action.runOn_ofFun,
    before]
  obtain ⟨c, s', hbefore, hR, -, hserved⟩ := Hook.runOn_emitBefore hr e { skipCache := skip } hst
  rw [Action.runOn_bind_of_ok hbefore]
  -- The after hooks leave the result alone.
  have hrest : ∀ {out : Except Fault α} {c' s''}, (servedOr pick find).runOn (c, s') =
      (out, c', s'') → R s'' (find'.runOn t).2 →
      ∃ c'' u, ((servedOr pick find) >>= fun x => r.after (report x) >>= fun _ => pure x).runOn
        (c, s') = (out, c'', u) ∧ R u (find'.runOn t).2 := by
    intro out c' s'' hrun hR'
    cases out with
    | error f => exact ⟨c', s'', Action.runOn_bind_of_error hrun _, hR'⟩
    | ok x =>
      obtain ⟨c'', u, hafter, hR''⟩ := Hook.runOn_emitAfter hr (report x) c' hR'
      refine ⟨c'', u, ?_, hR''⟩
      rw [Action.runOn_bind_of_ok hrun, after, Action.runOn_bind_of_ok hafter]
      rfl
  have htake : takeServed.runOn (c, s') = (.ok c.served, c.take.2, s') := rfl
  cases hpicked : pick c.served with
  | none =>
    have hfind : (servedOr pick find).runOn (c, s') =
        ((find.runOn s').1, c.take.2, (find.runOn s').2) := by
      rw [servedOr, Action.runOn_bind_of_ok htake, hpicked]
      rfl
    obtain ⟨hout, hR'⟩ := h.runOn hR
    obtain ⟨c', u, hrun, hR''⟩ := hrest hfind hR'
    rw [hrun]
    exact ⟨hR'', Or.inl hout⟩
  | some x =>
    have hpick' : (servedOr pick find).runOn (c, s') = (.ok x, c.take.2, s') := by
      rw [servedOr, Action.runOn_bind_of_ok htake, hpicked]
      rfl
    obtain ⟨c', u, hrun, hR''⟩ := hrest hpick' (hreads s' t hR)
    rw [hrun]
    refine ⟨hR'', Or.inr ⟨x, rfl, fun hquiet => ?_, c.served, hpicked⟩⟩
    rw [hserved hquiet, hpick] at hpicked
    cases hpicked

end Hooks

end Repository
end Quire
