import Quire.Proofs.AdapterWrites

/-!
# Repositories with other hooks

Caching as one hook among others, which may fail before and after every operation and may serve
results of their own. A hook that fails after a write keeps the hooks behind it from hearing of the
write.
-/
namespace Quire

variable {κ τ : Type}

/-- A result after an action leaves the state as the action does, and is there if the action
succeeds. -/
theorem Action.runOn_bind_const {σ α β : Type} (a : Action σ β) (x : α) (s : σ) :
    ((a >>= fun _ => pure x).runOn s).2 = (a.runOn s).2 ∧
      ∀ y, ((a >>= fun _ => pure x).runOn s).1 = .ok y → y = x ∧ ∃ u, (a.runOn s).1 = .ok u := by
  rw [runOn_bind]
  rcases a.runOn s with ⟨f | u, t⟩
  · exact ⟨rfl, nofun⟩
  · exact ⟨rfl, fun y hy => ⟨(Except.ok.inj hy).symm, u, rfl⟩⟩

theorem Repository.runOn_inContext_eq {σ α : Type} (c : HookContext)
    (a : Action (HookContext × σ) α) (s : σ) :
    (inContext c a).runOn s = ((a.runOn (c, s)).1, (a.runOn (c, s)).2.2) := rfl

/-! ## Other hooks -/

/-- A served result has the mark that it was served. -/
def HookContext.Marked (c : HookContext) : Prop :=
  c.served.isSome = true → c.servedFromCache = true

namespace Hook

section Announcements

variable {σ : Type} {hooks : List (Hook σ)} {P : HookContext × σ → Prop}

/-- A hook that does not fail after an operation. -/
def Steady (h : Hook σ) : Prop := ∀ e x, ((h.after e).runOn x).1 = .ok ()

/-- A result that a hook serves by itself. -/
def Serves (h : Hook σ) (r : HookResult) : Prop :=
  ∃ e x, ((h.before e).runOn x).2.1.served = some r ∧ x.1.served ≠ some r

theorem served_before {h : Hook σ} {e : BeforeEvent} {x : HookContext × σ} {r : HookResult}
    (hr : ((h.before e).runOn x).2.1.served = some r) : x.1.served = some r ∨ h.Serves r := by
  by_cases hbefore : x.1.served = some r
  · exact Or.inl hbefore
  · exact Or.inr ⟨e, x, hr, hbefore⟩

theorem preserves_emitBefore {e : BeforeEvent} (hh : ∀ h ∈ hooks, (h.before e).Preserves P) :
    (emitBefore hooks e).Preserves P := by
  induction hooks with
  | nil => exact Action.preserves_pure _
  | cons h hooks ih =>
    rw [List.forall_mem_cons] at hh
    exact hh.1.bind fun _ => ih hh.2

theorem preserves_emitAfter {e : AfterEvent} (hh : ∀ h ∈ hooks, (h.after e).Preserves P) :
    (emitAfter hooks e).Preserves P := by
  induction hooks with
  | nil => exact Action.preserves_pure _
  | cons h hooks ih =>
    rw [List.forall_mem_cons] at hh
    exact hh.1.bind fun _ => ih hh.2

theorem emitBefore_append (first second : List (Hook σ)) (e : BeforeEvent) :
    emitBefore (first ++ second) e = emitBefore first e >>= fun _ => emitBefore second e := by
  induction first with
  | nil => exact (pure_bind _ _).symm
  | cons h first ih =>
    rw [List.cons_append, emitBefore, emitBefore, bind_assoc]
    exact bind_congr fun _ => ih

theorem emitAfter_append (first second : List (Hook σ)) (e : AfterEvent) :
    emitAfter (first ++ second) e = emitAfter first e >>= fun _ => emitAfter second e := by
  induction first with
  | nil => exact (pure_bind _ _).symm
  | cons h first ih =>
    rw [List.cons_append, emitAfter, emitAfter, bind_assoc]
    exact bind_congr fun _ => ih

theorem ok_of_emitAfter_append {first second : List (Hook σ)} {e : AfterEvent}
    {x : HookContext × σ} (h : ((emitAfter (first ++ second) e).runOn x).1 = .ok ()) :
    ((emitAfter first e).runOn x).1 = .ok () := by
  rw [emitAfter_append] at h
  rcases hrun : (emitAfter first e).runOn x with ⟨f | u, y⟩
  · rw [Action.runOn_bind_of_error hrun] at h
    cases h
  · rfl

theorem runOn_emitAfter_of_steady (hh : ∀ h ∈ hooks, h.Steady) (e : AfterEvent)
    (x : HookContext × σ) : ((emitAfter hooks e).runOn x).1 = .ok () := by
  induction hooks generalizing x with
  | nil => rfl
  | cons h hooks ih =>
    rw [List.forall_mem_cons] at hh
    have hfirst := hh.1 e x
    rcases hrun : (h.after e).runOn x with ⟨f | u, y⟩
    · rw [hrun] at hfirst
      cases hfirst
    · rw [emitAfter, Action.runOn_bind_of_ok hrun]
      exact ih hh.2 y

end Announcements

/-- What hooks other than caching leave alone: the store with its cache, the key that caching has
noted, and the mark of a served result. -/
structure Keeps (x y : HookContext × (CachedStore κ × τ)) : Prop where
  store : y.2.1 = x.2.1
  noted : y.1.cacheKey = x.1.cacheKey
  served : x.1.servedFromCache = true → y.1.servedFromCache = true
  marked : x.1.Marked → y.1.Marked

/-- A hook other than caching. It may fail, serve results and change what is its own. -/
structure Bystander (h : Hook (CachedStore κ × τ)) : Prop where
  before : ∀ e x, Keeps x ((h.before e).runOn x).2
  after : ∀ e x, Keeps x ((h.after e).runOn x).2

end Hook

/-! ## The repository -/

namespace HookedStore

open CachedStore

/-- A cached store next to what other hooks keep. -/
def parts : StoreParts (CachedStore κ × τ) where
  collection := Part.fst.comp collectionPart
  ids := Part.fst.comp idsPart
  clock := Part.fst.comp clockPart

/-- The cache of a cached store next to what other hooks keep. -/
def cacheOf : Part (CachedStore κ × τ) (CacheState κ) := Part.fst.comp cachePart

/-- The repository with caching between other hooks. -/
def repository (p : CachePlugin κ) (settings : PagingSettings) (timestamps : Bool)
    (ahead behind : List (Hook (CachedStore κ × τ))) : Repository (CachedStore κ × τ) :=
  parts.repository p.keys.collection settings timestamps (ahead ++ p.hook cacheOf :: behind)

/-! ## How far an operation has got -/

section Progress

variable (p : CachePlugin κ) (Writes : String → String → Prop) (Noted : String → Prop)
  (Served : HookResult → Prop) (w₀ : CachedStore κ)

/-- Nothing has changed but what the adapter holds. -/
structure Looking (w : CachedStore κ) : Prop where
  collection : w.collection = w₀.collection
  version : w.cache.version = w₀.cache.version
  steps : p.adapter.Steps Writes w₀.cache.adapter w.cache.adapter

/-- The version has been raised once at most, whatever has become of the collection. -/
structure Advanced (w : CachedStore κ) : Prop where
  version : w.cache.version.current = w₀.cache.version.current ∨
    w.cache.version.current = ListVersion.next w₀.cache.version.current
  steps : p.adapter.Steps Writes w₀.cache.adapter w.cache.adapter

/-- How an operation ends. If it succeeds, or if what comes ahead of caching is steady, then it
raises the version with every change of the collection. -/
structure Progress (steady : Prop) {α : Type} (s : CachedStore κ × τ)
    (run : Except Fault α × (CachedStore κ × τ)) : Prop where
  advanced : Advanced p Writes s.1 run.2.1
  raised : (steady ∨ ∃ x, run.1 = .ok x) → run.2.1.collection ≠ s.1.collection →
    run.2.1.cache.version.current = ListVersion.next s.1.cache.version.current

/-- Before an operation, until caching is asked. -/
structure Waiting (x : HookContext × (CachedStore κ × τ)) : Prop where
  store : x.2.1 = w₀
  noted : x.1.cacheKey = none
  marked : x.1.Marked
  served : ∀ r, x.1.served = some r → Served r

/-- Before an operation, when caching may have been asked. -/
structure Asking (x : HookContext × (CachedStore κ × τ)) : Prop where
  looking : Looking p Writes w₀ x.2.1
  noted : ∀ key, x.1.cacheKey = some key → Noted key
  marked : x.1.Marked
  served : ∀ r, x.1.served = some r → Served r

/-- After a read. Its result was served, or the store has found it. -/
structure Telling (found : Prop) (x : HookContext × (CachedStore κ × τ)) : Prop where
  looking : Looking p Writes w₀ x.2.1
  noted : ∀ key, x.1.cacheKey = some key → Noted key
  found : x.1.servedFromCache = true ∨ found

end Progress

variable {p : CachePlugin κ} {Writes : String → String → Prop} {Noted : String → Prop}
  {Served : HookResult → Prop} {w₀ : CachedStore κ}

theorem Looking.advanced {w : CachedStore κ} (h : Looking p Writes w₀ w) :
    Advanced p Writes w₀ w := ⟨Or.inl (congrArg _ h.version), h.steps⟩

/-- Where the counter does not come to its end, the version is not lowered. -/
theorem Advanced.version_le {w : CachedStore κ} (h : Advanced p Writes w₀ w)
    (hroom : ListVersion.HasNext w₀.cache.version.current) :
    w₀.cache.version.current ≤ w.cache.version.current := by
  rcases h.version with hsame | hnext
  · exact hsame.ge
  · rw [hnext, ListVersion.next_of_hasNext hroom]
    exact Nat.le_succ _

theorem Waiting.asking {x : HookContext × (CachedStore κ × τ)} (h : Waiting Served w₀ x) :
    Asking p Writes Noted Served w₀ x where
  looking := by
    rw [h.store]
    exact ⟨rfl, rfl, .refl⟩
  noted key hkey := by
    rw [h.noted] at hkey
    cases hkey
  marked := h.marked
  served := h.served

section Bystanders

variable {h : Hook (CachedStore κ × τ)} (hh : h.Bystander)

include hh

theorem waiting_before_bystander (hserves : ∀ r, h.Serves r → Served r) (e : BeforeEvent) :
    (h.before e).Preserves (Waiting Served w₀) := by
  intro x hx
  have hkeeps := hh.before e x
  exact ⟨hkeeps.store.trans hx.store, hkeeps.noted.trans hx.noted, hkeeps.marked hx.marked,
    fun r hr => (Hook.served_before hr).elim (hx.served r) (hserves r)⟩

theorem asking_before_bystander (hserves : ∀ r, h.Serves r → Served r) (e : BeforeEvent) :
    (h.before e).Preserves (Asking p Writes Noted Served w₀) := by
  intro x hx
  have hkeeps := hh.before e x
  exact ⟨hkeeps.store ▸ hx.looking, hkeeps.noted ▸ hx.noted, hkeeps.marked hx.marked,
    fun r hr => (Hook.served_before hr).elim (hx.served r) (hserves r)⟩

theorem telling_after_bystander {found : Prop} (e : AfterEvent) :
    (h.after e).Preserves (Telling p Writes Noted w₀ found) := by
  intro x hx
  have hkeeps := hh.after e x
  exact ⟨hkeeps.store ▸ hx.looking, hkeeps.noted ▸ hx.noted, hx.found.imp_left hkeeps.served⟩

theorem store_after_bystander (P : CachedStore κ → Prop) (e : AfterEvent) :
    (h.after e).Preserves fun x => P x.2.1 := by
  intro x hx
  rw [(hh.after e x).store]
  exact hx

end Bystanders

/-! ## Before and after an operation -/

section Announced

variable (settings : PagingSettings) (timestamps : Bool)
  {ahead behind : List (Hook (CachedStore κ × τ))}
  (henabled : p.settings.enabled = true) (hahead : ∀ h ∈ ahead, h.Bystander)
  (hbehind : ∀ h ∈ behind, h.Bystander)

include henabled hahead hbehind

/-- Before an operation caching notes the key where it looks, and what is served comes from there
or from another hook. -/
theorem asking_before (hserves : ∀ h ∈ ahead ++ behind, ∀ r, h.Serves r → Served r)
    {e : BeforeEvent} (hsource : ∀ c key read,
      p.source? c w₀.cache.version.current e = some (key, read) → Noted key ∧
        ∀ r, (p.adapter.reply key w₀.cache.adapter).bind read = some r → Served r)
    (skip : Bool) {s : CachedStore κ × τ} (hs : s.1 = w₀) :
    Asking p Writes Noted Served w₀ (((repository p settings timestamps ahead behind).before
      e).runOn ({ skipCache := skip }, s)).2 := by
  have hbefore : (repository p settings timestamps ahead behind).before e =
      Hook.emitBefore ahead e >>= fun _ => Hook.emitBefore (p.hook cacheOf :: behind) e :=
    Hook.emitBefore_append _ _ _
  have hwaiting : (Hook.emitBefore ahead e).Preserves (Waiting Served w₀) :=
    Hook.preserves_emitBefore fun h hh => waiting_before_bystander (hahead h hh)
      (hserves h (List.mem_append_left _ hh)) e
  have hstart : Waiting Served w₀ (({ skipCache := skip } : HookContext), s) :=
    ⟨hs, rfl, nofun, nofun⟩
  have hfirst := hwaiting _ hstart
  rw [hbefore]
  rcases hrun : (Hook.emitBefore ahead e).runOn ({ skipCache := skip }, s) with ⟨f | u, c, s₁⟩
  · rw [hrun] at hfirst
    rw [Action.runOn_bind_of_error hrun]
    exact hfirst.asking
  rw [hrun] at hfirst
  -- Caching looks into its cache as it was before the operation.
  obtain rfl : s₁.1 = w₀ := hfirst.store
  have hlook := p.runOn_before henabled e c s₁.1.cache
  obtain ⟨c₂, s₂, hplugin, hasking⟩ : ∃ c₂ s₂,
      ((p.hook cacheOf).before e).runOn (c, s₁) = (.ok (), c₂, s₂) ∧
        Asking p Writes Noted Served s₁.1 (c₂, s₂) := by
    cases hsrc : p.source? c s₁.1.cache.version.current e with
    | none =>
      rw [hsrc] at hlook
      exact ⟨_, _, Part.runOn_lift_beside hlook, hfirst.asking⟩
    | some source =>
      obtain ⟨key, read⟩ := source
      rw [hsrc] at hlook
      obtain ⟨stats, hlook⟩ := hlook
      obtain ⟨hnoted, hserved⟩ := hsource c key read hsrc
      refine ⟨_, _, Part.runOn_lift_beside hlook, ⟨rfl, rfl, .single (.get _ _)⟩, ?_, ?_, ?_⟩
      · rintro key' hkey
        cases hkey
        exact hnoted
      · cases (p.adapter.reply key s₁.1.cache.adapter).bind read with
        | none => exact hfirst.marked
        | some r => exact fun _ => rfl
      · intro r hr
        cases hfound : (p.adapter.reply key s₁.1.cache.adapter).bind read with
        | none =>
          rw [hfound] at hr
          exact hfirst.served r hr
        | some r' =>
          rw [hfound] at hr
          cases hr
          exact hserved _ hfound
  rw [Action.runOn_bind_of_ok hrun, Hook.emitBefore, Action.runOn_bind_of_ok hplugin]
  exact Hook.preserves_emitBefore (fun h hh => asking_before_bystander (hbehind h hh)
    (hserves h (List.mem_append_right _ hh)) e) _ hasking

omit henabled in
/-- After a read its result is kept under the noted key, if the store has found it. -/
theorem telling_after_read {found : Prop} {e : AfterEvent} {v : Option Value} {ttl : Nat}
    (hafter : p.after e = p.keepResult v ttl)
    (hkeep : ∀ key x, Noted key → found → v = some x → Writes key x.text) :
    ((repository p settings timestamps ahead behind).after e).Preserves
      (Telling p Writes Noted w₀ found) := by
  refine Hook.preserves_emitAfter fun h hh => ?_
  rcases List.mem_append.mp hh with hfirst | hrest
  · exact telling_after_bystander (hahead h hfirst) e
  rcases List.mem_cons.mp hrest with rfl | hlast
  · rintro ⟨c, s⟩ hs
    by_cases hskipped : c.servedFromCache = true ∨ c.cacheKey = none ∨ v = none
    · have hrun := p.runOn_keepResult_of_not_kept hskipped ttl s.1.cache
      rw [← hafter] at hrun
      rw [CachePlugin.hook, Part.runOn_lift_beside hrun]
      exact hs
    · simp only [not_or, Bool.not_eq_true, ← ne_eq, Option.ne_none_iff_exists'] at hskipped
      obtain ⟨hserved, ⟨key, hkey⟩, x, rfl⟩ := hskipped
      obtain ⟨stats, hrun⟩ := p.runOn_keepResult hserved hkey x ttl s.1.cache
      rw [← hafter] at hrun
      rw [CachePlugin.hook, Part.runOn_lift_beside hrun]
      have hfound : found := hs.found.resolve_left (by rw [hserved]; exact Bool.false_ne_true)
      exact ⟨⟨hs.looking.collection, hs.looking.version, hs.looking.steps.tail
        (.set _ (hkeep key x (hs.noted key hkey) hfound rfl) _)⟩, hs.noted, hs.found⟩
  · exact telling_after_bystander (hbehind h hlast) e

/-- After a write nothing has become of the store if a hook attached ahead of caching fails.
Otherwise caching has raised the version, whether a hook behind fails or not. -/
theorem after_write_cases {e : AfterEvent} (he : e.operation.isRead = false) (c : HookContext)
    (s : CachedStore κ × τ) :
    (((Hook.emitAfter ahead e).runOn (c, s)).1 ≠ .ok () ∧
        (((repository p settings timestamps ahead behind).after e).runOn (c, s)).2.2.1 = s.1) ∨
      ∃ stats, (((repository p settings timestamps ahead behind).after e).runOn (c, s)).2.2.1 =
        { s.1 with cache := ⟨⟨ListVersion.next s.1.cache.version.current⟩, stats,
          p.afterPersist (ListVersion.next s.1.cache.version.current)
            (p.afterWrite e s.1.cache.adapter)⟩ } := by
  have hkept := Hook.preserves_emitAfter
    (fun h hh => store_after_bystander (hahead h hh) (· = s.1) e) (c, s) rfl
  have hafter : (repository p settings timestamps ahead behind).after e =
      Hook.emitAfter ahead e >>= fun _ => Hook.emitAfter (p.hook cacheOf :: behind) e :=
    Hook.emitAfter_append _ _ _
  rw [hafter]
  rcases hrun : (Hook.emitAfter ahead e).runOn (c, s) with ⟨f | u, c', s'⟩
  all_goals
    rw [hrun] at hkept
    have hsame : s'.1 = s.1 := hkept
  · rw [Action.runOn_bind_of_error hrun]
    exact Or.inl ⟨nofun, hsame⟩
  · obtain ⟨stats, hplugin⟩ := p.runOn_after_of_write henabled he c' s.1.cache
    let raised : CacheState κ := ⟨⟨ListVersion.next s.1.cache.version.current⟩, stats,
      p.afterPersist (ListVersion.next s.1.cache.version.current)
        (p.afterWrite e s.1.cache.adapter)⟩
    have hcache : cacheOf.get s' = s.1.cache := congrArg CachedStore.cache hsame
    have hhook : ((p.hook cacheOf).after e).runOn (c', s') =
        (.ok (), c', cacheOf.set raised s') :=
      Part.runOn_lift_beside (by rw [hcache]; exact hplugin)
    have hset : (cacheOf.set raised s').1 = { s.1 with cache := raised } :=
      congrArg (cachePart.set raised) hsame
    have hended := Hook.preserves_emitAfter (fun h hh =>
      store_after_bystander (hbehind h hh) (· = { s.1 with cache := raised }) e)
      (c', cacheOf.set raised s') hset
    rw [Action.runOn_bind_of_ok hrun, Hook.emitAfter, Action.runOn_bind_of_ok hhook]
    exact Or.inr ⟨stats, hended⟩

/-- A write raises the version with every change of the collection, unless a hook attached ahead of
caching fails. -/
theorem announced_progress {α : Type} (hversion : ∀ text, Writes p.keys.version text)
    {e : BeforeEvent} {change : Action (CachedStore κ × τ) α} {report : α → AfterEvent}
    (hreport : ∀ x, (report x).operation.isRead = false)
    (hcache : ∀ s, (change.runOn s).2.1.cache = s.1.cache)
    (hrefused : ∀ s f t, change.runOn s = (.error f, t) → t.1.collection = s.1.collection)
    (s : CachedStore κ × τ) :
    Progress p Writes (∀ h ∈ ahead, h.Steady) s
      (((repository p settings timestamps ahead behind).announced e change report).runOn s) := by
  have hasking : Asking p Writes (fun _ => True) (fun _ => True) s.1
      (((repository p settings timestamps ahead behind).before e).runOn ({}, s)).2 :=
    asking_before settings timestamps henabled hahead hbehind (fun _ _ _ _ => trivial)
      (fun _ _ _ _ => ⟨trivial, fun _ _ => trivial⟩) false rfl
  have hlooking := hasking.looking
  rw [Repository.announced, Repository.runOn_inContext_eq]
  rcases hbefore : ((repository p settings timestamps ahead behind).before e).runOn ({}, s) with
    ⟨f | u, c, s₁⟩
  all_goals rw [hbefore] at hlooking
  · rw [Action.runOn_bind_of_error hbefore]
    exact ⟨hlooking.advanced, fun _ hchanged => absurd hlooking.collection hchanged⟩
  rw [Action.runOn_bind_of_ok hbefore]
  have hsame := hcache s₁
  have hstate : (Repository.onState change).runOn (c, s₁) =
      ((change.runOn s₁).1, c, (change.runOn s₁).2) := rfl
  rcases hchange : change.runOn s₁ with ⟨f | x, s₂⟩
  all_goals
    rw [hchange] at hstate hsame
    dsimp only at hstate hsame
  · rw [Action.runOn_bind_of_error hstate]
    refine ⟨⟨Or.inl ?_, ?_⟩, fun _ hchanged =>
      absurd ((hrefused s₁ f s₂ hchange).trans hlooking.collection) hchanged⟩
    · rw [hsame, hlooking.version]
    · rw [hsame]
      exact hlooking.steps
  rw [Action.runOn_bind_of_ok hstate]
  obtain ⟨hended, hresult⟩ := Action.runOn_bind_const
    ((repository p settings timestamps ahead behind).after (report x)) x (c, s₂)
  rw [hended]
  rcases after_write_cases settings timestamps henabled hahead hbehind (hreport x) c s₂ with
    ⟨hfailed, hkept⟩ | ⟨stats, hraised⟩
  · refine ⟨⟨Or.inl ?_, ?_⟩, fun hquiet _ => absurd ?_ hfailed⟩
    · rw [hkept, hsame, hlooking.version]
    · rw [hkept, hsame]
      exact hlooking.steps
    · rcases hquiet with hsteady | ⟨y, hy⟩
      · exact Hook.runOn_emitAfter_of_steady hsteady _ _
      · obtain ⟨-, u, hall⟩ := hresult y hy
        exact Hook.ok_of_emitAfter_append hall
  · have hnext : ListVersion.next s₂.1.cache.version.current =
        ListVersion.next s.1.cache.version.current := by rw [hsame, hlooking.version]
    have hdropped : p.adapter.Steps Writes s₂.1.cache.adapter
        (p.afterWrite (report x) s₂.1.cache.adapter) := by
      cases report x with
      | update | delete => exact .single (.delete _ _)
      | _ => exact .refl
    rw [hsame] at hdropped
    refine ⟨⟨Or.inr ?_, ?_⟩, fun _ _ => ?_⟩
    · rw [hraised, hnext]
    · rw [hraised, hsame]
      exact (hlooking.steps.trans hdropped).tail (.set _ (hversion _) _)
    · rw [hraised, hnext]

variable (Noted Served) in
/-- A read changes neither the collection nor the version. It returns what the store finds, unless
a result is served, and keeps only what the store has found. -/
theorem readThrough_looking {α : Type}
    (hserves : ∀ h ∈ ahead ++ behind, ∀ r, h.Serves r → Served r)
    {skip : Bool} {e : BeforeEvent} (hsource : ∀ c key read,
      p.source? c w₀.cache.version.current e = some (key, read) → Noted key ∧
        ∀ r, (p.adapter.reply key w₀.cache.adapter).bind read = some r → Served r)
    {pick : Option HookResult → Option α} (hpick : pick none = none)
    {find : Action (CachedStore κ × τ) α} {result : Except Fault α}
    (hfind : ∀ s : CachedStore κ × τ, s.1.collection = w₀.collection → find.runOn s = (result, s))
    {report : α → AfterEvent} {entry : α → Option Value} {ttl : Nat}
    (hreport : ∀ x, p.after (report x) = p.keepResult (entry x) ttl)
    (hkeep : ∀ key x v, Noted key → result = .ok x → entry x = some v → Writes key v.text)
    {s : CachedStore κ × τ} (hs : s.1 = w₀) {out : Except Fault α} {t : CachedStore κ × τ}
    (hrun : ((repository p settings timestamps ahead behind).readThrough skip e pick find
      report).runOn s = (out, t)) :
    Looking p Writes w₀ t.1 ∧
      ∀ x, out = .ok x → result = .ok x ∨ ∃ r, pick (some r) = some x ∧ Served r := by
  have hasking : Asking p Writes Noted Served w₀ (((repository p settings timestamps ahead
      behind).before e).runOn ({ skipCache := skip }, s)).2 :=
    asking_before settings timestamps henabled hahead hbehind hserves hsource skip hs
  rw [Repository.readThrough, Repository.runOn_inContext_eq] at hrun
  rcases hbefore : ((repository p settings timestamps ahead behind).before e).runOn
    ({ skipCache := skip }, s) with ⟨f | u, c, s₁⟩
  all_goals rw [hbefore] at hasking
  · rw [Action.runOn_bind_of_error hbefore] at hrun
    cases hrun
    exact ⟨hasking.looking, fun x hx => by cases hx⟩
  rw [Action.runOn_bind_of_ok hbefore] at hrun
  -- After the result is there, it is announced and returned.
  have hrest : ∀ x, (result = .ok x ∨ ∃ r, pick (some r) = some x ∧ Served r) →
      Telling p Writes Noted w₀ (result = .ok x) (c.take.2, s₁) →
      (Repository.servedOr pick find).runOn (c, s₁) = (.ok x, c.take.2, s₁) →
      Looking p Writes w₀ t.1 ∧
        ∀ x, out = .ok x → result = .ok x ∨ ∃ r, pick (some r) = some x ∧ Served r := by
    intro x hx htelling hserved
    rw [Action.runOn_bind_of_ok hserved] at hrun
    obtain ⟨rfl, rfl⟩ := Prod.mk.inj hrun
    obtain ⟨hended, hreturned⟩ := Action.runOn_bind_const
      ((repository p settings timestamps ahead behind).after (report x)) x (c.take.2, s₁)
    rw [hended]
    have hafter := telling_after_read settings timestamps hahead hbehind (hreport x)
      (fun key v hkey hfound hv => hkeep key x v hkey hfound hv) _ htelling
    refine ⟨hafter.looking, fun y hy => ?_⟩
    rw [(hreturned y hy).1]
    exact hx
  have htake : Repository.takeServed.runOn (c, s₁) = (.ok c.served, c.take.2, s₁) := rfl
  cases hpicked : pick c.served with
  | some x =>
    obtain ⟨r, hr⟩ : ∃ r, c.served = some r := by
      refine Option.ne_none_iff_exists'.mp fun hnone => ?_
      rw [hnone, hpick] at hpicked
      cases hpicked
    refine hrest x (Or.inr ⟨r, hr ▸ hpicked, hasking.served r hr⟩)
      ⟨hasking.looking, hasking.noted, Or.inl (hasking.marked (hr ▸ rfl))⟩ ?_
    rw [Repository.servedOr, Action.runOn_bind_of_ok htake, hpicked]
    rfl
  | none =>
    have hfound : (Repository.servedOr pick find).runOn (c, s₁) = (result, c.take.2, s₁) := by
      have hstate : (Repository.onState find).runOn (c.take.2, s₁) =
          ((find.runOn s₁).1, c.take.2, (find.runOn s₁).2) := rfl
      rw [Repository.servedOr, Action.runOn_bind_of_ok htake, hpicked]
      rw [hfind s₁ hasking.looking.collection] at hstate
      exact hstate
    cases hresult : result with
    | error f =>
      rw [hresult] at hfound
      rw [Action.runOn_bind_of_error hfound] at hrun
      cases hrun
      exact ⟨hasking.looking, fun x hx => by cases hx⟩
    | ok x =>
      rw [← hresult]
      exact hrest x (Or.inl hresult) ⟨hasking.looking, hasking.noted, Or.inr hresult⟩
        (hresult ▸ hfound)

end Announced
end HookedStore
end Quire
