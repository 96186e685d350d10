import Mathlib.Logic.Function.Iterate
import Quire.Proofs.CacheCalls

/-!
# Cache counters

What each operation on a cache counts, whatever the adapter does: every look is one hit or one
miss, an entry that is kept is one set, and only raising the version moves it. From these follows
what the plugin counts before and after an operation that it hears of.
-/
namespace Quire

/-! ## What actions ensure -/

namespace Action

variable {σ τ α β : Type}

/-- An action after which a condition on the state still holds. -/
def Preserves (P : σ → Prop) (a : Action σ α) : Prop := ∀ s, P s → P (a.runOn s).2

theorem Preserves.bind {P : σ → Prop} {a : Action σ α} {k : α → Action σ β} (h : a.Preserves P)
    (hk : ∀ x, (k x).Preserves P) : (a >>= k).Preserves P := by
  intro s hs
  have hP := h s hs
  rw [runOn_bind]
  rcases ha : a.runOn s with ⟨f | x, t⟩
  · rw [ha] at hP
    exact hP
  · rw [ha] at hP
    exact hk x t hP

theorem preserves_pure {P : σ → Prop} (x : α) : (pure x : Action σ α).Preserves P := fun _ h => h

/-- From a state with the first property the action leads to an outcome and a state with the
second. -/
def Ensures (P : σ → Prop) (a : Action σ α) (Q : Except Fault α → σ → Prop) : Prop :=
  ∀ s, P s → Q (a.runOn s).1 (a.runOn s).2

variable {P : σ → Prop} {a : Action σ α} {Q Q' : Except Fault α → σ → Prop}

theorem Ensures.mono (h : a.Ensures P Q) (hQ : ∀ out s, Q out s → Q' out s) : a.Ensures P Q' :=
  fun s hs => hQ _ _ (h s hs)

theorem ensures_pure {x : α} (h : ∀ s, P s → Q (.ok x) s) : (pure x : Action σ α).Ensures P Q := h

theorem Preserves.ensures (h : a.Preserves P) : a.Ensures P fun _ => P := h

/-- A second action takes over where the first one succeeds. -/
theorem Ensures.bind {k : α → Action σ β} {R : Except Fault β → σ → Prop} (h : a.Ensures P Q)
    (hk : ∀ x, (k x).Ensures (Q (.ok x)) R) (hfault : ∀ f s, Q (.error f) s → R (.error f) s) :
    (a >>= k).Ensures P R := by
  intro s hs
  have hQ := h s hs
  rw [runOn_bind]
  rcases hrun : a.runOn s with ⟨f | x, t⟩
  · rw [hrun] at hQ
    exact hfault f t hQ
  · rw [hrun] at hQ
    exact hk x t hQ

/-- What is ensured whether the action fails or not is still so when its result is turned into
another one. -/
theorem Ensures.map {R : Bool → σ → Prop} (h : a.Ensures P fun out => R out.isOk) (f : α → β) :
    (f <$> a).Ensures P fun out => R out.isOk := by
  rw [map_eq_pure_bind]
  exact h.bind (fun _ => ensures_pure fun _ hs => hs) fun _ _ hs => hs

end Action

/-- What an action on a part ensures, where the part can be replaced. -/
theorem Part.lift_ensures {σ τ α : Type} {part : Part σ τ}
    (hpart : ∀ t s, part.get (part.set t s) = t) {a : Action τ α} {P : τ → Prop}
    {Q : Except Fault α → τ → Prop} (h : a.Ensures P Q) :
    (part.lift a).Ensures (fun s => P (part.get s)) fun out s => Q out (part.get s) := by
  intro s hs
  rw [runOn_lift, hpart]
  exact h _ hs

/-! ## Counters -/

theorem ListVersion.iterate_next_le (version raised : Nat) :
    next^[raised] version ≤ version + raised := by
  induction raised with
  | zero => exact Nat.le_refl _
  | succ raised ih =>
    rw [Function.iterate_succ_apply']
    exact Nat.le_trans (next_le _) (Nat.succ_le_succ ih)

/-- Where the counter does not come to its end, the version has grown by as much as it was
raised. -/
theorem ListVersion.iterate_next {version raised : Nat} (h : version + raised < twoPow 64) :
    next^[raised] version = version + raised := by
  induction raised with
  | zero => rfl
  | succ raised ih =>
    have hlast : HasNext (version + raised) := h
    rw [Function.iterate_succ_apply', ih (Nat.lt_of_succ_lt h), next_of_hasNext hlast,
      Nat.add_assoc]

/-- What is counted of a cache, with its version. -/
structure CacheCounters where
  hits : Nat
  misses : Nat
  sets : Nat
  version : Nat

namespace CacheCounters

/-- The counters after an event. -/
def count (e : CacheEvent) (n : CacheCounters) : CacheCounters :=
  match e with
  | .hit => { n with hits := n.hits + 1 }
  | .miss => { n with misses := n.misses + 1 }
  | .set => { n with sets := n.sets + 1 }
  | .invalidation _ | .error _ => n

/-- The counters under the next version. -/
def raise (n : CacheCounters) : CacheCounters := { n with version := ListVersion.next n.version }

/-- So many reads asked the cache and so many times the version was raised, while not more entries
were written than reads missed. -/
structure Moved (n m : CacheCounters) (reads raised : Nat) : Prop where
  looked : m.hits + m.misses = n.hits + n.misses + reads
  kept : m.sets + n.misses ≤ n.sets + m.misses
  version : m.version = ListVersion.next^[raised] n.version

theorem Moved.trans {n m k : CacheCounters} {reads reads' raised raised' : Nat}
    (h : n.Moved m reads raised) (h' : m.Moved k reads' raised') :
    n.Moved k (reads + reads') (raised + raised') where
  looked := by rw [h'.looked, h.looked, Nat.add_assoc]
  kept := by
    have hfirst := h.kept
    have hsecond := h'.kept
    omega
  version := by rw [h'.version, h.version, Nat.add_comm, Function.iterate_add_apply]

variable (n : CacheCounters)

theorem moved_refl : n.Moved n 0 0 := ⟨rfl, Nat.le_refl _, rfl⟩

theorem moved_raise : n.Moved n.raise 0 1 := ⟨rfl, Nat.le_refl _, rfl⟩

theorem moved_if (raised : Bool) : n.Moved (if raised then n.raise else n) 0 raised.toNat := by
  cases raised with
  | false => exact n.moved_refl
  | true => exact n.moved_raise

theorem moved_hit : n.Moved (n.count .hit) 1 0 := ⟨Nat.add_right_comm _ _ _, Nat.le_refl _, rfl⟩

theorem moved_miss : n.Moved (n.count .miss) 1 0 :=
  ⟨rfl, Nat.add_le_add_left (Nat.le_succ _) _, rfl⟩

theorem moved_kept : n.Moved ((n.count .miss).count .set) 1 0 :=
  ⟨rfl, Nat.le_of_eq (Nat.add_right_comm _ _ _), rfl⟩

end CacheCounters

namespace CacheState

open Quire.Action

variable {κ α β : Type}

def counters (s : CacheState κ) : CacheCounters :=
  ⟨s.stats.hits, s.stats.misses, s.stats.sets, s.version.current⟩

/-- The counters are the given ones. -/
def At (n : CacheCounters) (s : CacheState κ) : Prop := s.counters = n

theorem At.moved {n m : CacheCounters} {reads raised : Nat} {s : CacheState κ} (hs : At m s)
    (h : n.Moved m reads raised) : n.Moved s.counters reads raised := by
  rw [At] at hs
  rwa [hs]

theorem counters_record (s : CacheState κ) (e : CacheEvent) :
    counters { s with stats := s.stats.record e } = s.counters.count e := by
  rw [CacheStats.record]
  cases e <;> (dsimp only [CacheStats.count]; split <;> rfl)

variable {n : CacheCounters}

theorem record_ensures (e : CacheEvent) :
    (record e : Action (CacheState κ) Unit).Ensures (At n) fun _ => At (n.count e) := by
  rintro s rfl
  exact s.counters_record e

/-- An event is counted, and then comes the rest. -/
theorem record_bind_ensures (e : CacheEvent) {k : Unit → Action (CacheState κ) β}
    {R : Except Fault β → CacheState κ → Prop} (hk : (k ()).Ensures (At (n.count e)) R) :
    (record e >>= k).Ensures (At n) R := by
  intro s hs
  have hrecord : (record e).runOn s = (.ok (), { s with stats := s.stats.record e }) := rfl
  rw [runOn_bind_of_ok hrecord]
  exact hk _ (record_ensures e s hs)

/-- A call of the adapter counts nothing by itself, and what follows has its outcome. -/
theorem call_bind_ensures {a : Action κ α} {k : Except Fault α → Action (CacheState κ) β}
    {R : Except Fault β → CacheState κ → Prop} (hk : ∀ out, (k out).Ensures (At n) R) :
    (call a >>= k).Ensures (At n) R := by
  intro s hs
  rw [runOn_bind_of_ok (CachePlugin.runOn_call a s)]
  exact hk _ _ hs

end CacheState

/-! ## The cache -/

namespace CachePlugin

open CacheState Quire.Action

variable {κ α : Type} (p : CachePlugin κ) {n : CacheCounters}

theorem persist_ensures (version : Nat) :
    (p.persist version).Ensures (At n) fun _ => At n := by
  refine call_bind_ensures fun out => ?_
  cases out with
  | ok _ => exact ensures_pure fun _ hs => hs
  | error _ => exact record_ensures (.error "persist_version")

theorem bump_ensures : p.bump.Ensures (At n) fun _ => At n.raise := by
  refine Ensures.bind (Q := fun _ => At n.raise) ?_ (fun version => ?_) fun _ _ hs => hs
  · rintro s rfl
    rfl
  · refine record_bind_ensures (.invalidation "version") ?_
    exact (p.persist_ensures version).bind (fun _ => ensures_pure fun _ hs => hs) fun _ _ hs => hs

theorem dropById_ensures (id : DocumentId) : (p.dropById id).Ensures (At n) fun _ => At n := by
  refine call_bind_ensures fun out => ?_
  cases out with
  | ok _ => exact record_bind_ensures (.invalidation "entry") (ensures_pure fun _ hs => hs)
  | error _ => exact record_bind_ensures (.error "delete") (ensures_pure fun _ hs => hs)

/-- Taking over a version counts nothing. -/
theorem bootstrap_ensures :
    p.bootstrap.Ensures (At n) fun _ s => ∃ version, At { n with version } s := by
  have hcurrent : (currentVersion : Action (CacheState κ) Nat).Ensures (At n)
      fun _ s => ∃ version, At { n with version } s := fun _ hs => ⟨n.version, hs⟩
  refine call_bind_ensures fun out => ?_
  rcases out with f | _ | text
  · exact record_bind_ensures (.error "bootstrap") hcurrent
  · exact hcurrent
  · dsimp only
    split
    · rintro s rfl
      exact ⟨_, rfl⟩
    · exact hcurrent

/-- A look into the cache is a hit or a miss. -/
theorem lookup_ensures (read : String → Option α) (key : String) :
    (p.lookup read key).Ensures (At n) fun out => match out with
      | .ok (some _) => At (n.count .hit)
      | _ => At (n.count .miss) := by
  refine call_bind_ensures fun out => ?_
  rcases out with f | _ | x
  · refine record_bind_ensures (.error "get") (record_bind_ensures .miss ?_)
    exact ensures_pure fun _ hs => hs
  · exact record_bind_ensures .miss (ensures_pure fun _ hs => hs)
  · exact record_bind_ensures .hit (ensures_pure fun _ hs => hs)

theorem keep_ensures (key : String) (v : Value) (ttl : Nat) :
    (p.keep key v ttl).Ensures (At n) fun _ s => At n s ∨ At (n.count .set) s := by
  refine call_bind_ensures fun out => ?_
  cases out with
  | ok _ => exact (record_ensures .set).mono fun _ _ hs => Or.inr hs
  | error _ => exact (record_ensures (.error "set")).mono fun _ _ hs => Or.inl hs

/-- Whether the adapter, as it is, clears the entries of the collection by pattern. -/
def clears (k : κ) : Bool :=
  p.adapter.supportsClear && ((p.adapter.clear p.keys.pattern).runOn k).1.isOk

/-- Only where the adapter does not clear the entries by pattern the version is raised. -/
theorem invalidateAll_ensures {cleared : Bool} :
    p.invalidateAll.Ensures (fun s => At n s ∧ p.clears s.adapter = cleared)
      fun _ => At (if cleared then n else n.raise) := by
  rintro s ⟨hs, rfl⟩
  have hraise : (p.bump >>= fun _ => pure 0 : Action (CacheState κ) Nat).Ensures (At n)
      fun _ => At n.raise :=
    p.bump_ensures.bind (fun _ => ensures_pure fun _ hs => hs) fun _ _ hs => hs
  rw [invalidateAll, clears]
  cases hclear : p.adapter.supportsClear with
  | false => exact hraise s hs
  | true =>
    rw [if_pos rfl, Bool.true_and, runOn_bind_of_ok (runOn_call _ s)]
    cases ((p.adapter.clear p.keys.pattern).runOn s.adapter).1 with
    | error _ =>
      refine (record_bind_ensures (n := n) (R := fun _ => At n.raise) (.error "clear") ?_) _ hs
      exact hraise
    | ok removed =>
      refine (record_bind_ensures (n := n) (R := fun _ => At n) (.invalidation "clear") ?_) _ hs
      refine Ensures.bind (Q := fun _ => At n) (fun _ hs => hs) (fun version => ?_) fun _ _ hs => hs
      exact (p.persist_ensures version).bind (fun _ => ensures_pure fun _ hs => hs) fun _ _ hs => hs

end CachePlugin

/-! ## The hook -/

/-- What was counted when a read has looked for its result, if it asks the cache at all. -/
inductive CacheCounters.Looked {κ : Type} (n : CacheCounters) :
    Bool → HookContext × CacheState κ → Prop
  /-- Nothing was asked, and nothing will be kept. -/
  | past {c : HookContext} {s : CacheState κ} (hkey : c.cacheKey = none) (hs : s.At n) :
      Looked n false (c, s)
  | served {c : HookContext} {s : CacheState κ} (hserved : c.servedFromCache = true)
      (hs : s.At (n.count .hit)) : Looked n true (c, s)
  | missed {c : HookContext} {s : CacheState κ} (hs : s.At (n.count .miss)) : Looked n true (c, s)

namespace CacheCounters

variable {κ : Type} {n : CacheCounters} {asked : Bool} {c c' : HookContext} {s : CacheState κ}

theorem Looked.moved (h : n.Looked asked (c, s)) : n.Moved s.counters asked.toNat 0 := by
  cases h with
  | past _ hs => exact hs.moved n.moved_refl
  | served _ hs => exact hs.moved n.moved_hit
  | missed hs => exact hs.moved n.moved_miss

/-- It does not matter whether the result that was served has been taken. -/
theorem Looked.of_context (h : n.Looked asked (c, s)) (hkey : c'.cacheKey = c.cacheKey)
    (hserved : c'.servedFromCache = c.servedFromCache) : n.Looked asked (c', s) := by
  cases h with
  | past hnone hs => exact .past (hkey.trans hnone) hs
  | served htrue hs => exact .served (hserved.trans htrue) hs
  | missed hs => exact .missed hs

end CacheCounters

namespace CachePlugin

open CacheCounters CacheState Quire.Action

variable {κ α : Type} (p : CachePlugin κ) {n : CacheCounters} {asked : Bool}

theorem onCache_ensures {a : Action (CacheState κ) α} {P : CacheState κ → Prop}
    {Q : Except Fault α → CacheState κ → Prop} (h : a.Ensures P Q) :
    (onCache a).Ensures (fun x => P x.2) fun out x => Q out x.2 := fun x hx => h x.2 hx

/-- A read that looks for its result is a hit or a miss, and a hit is marked as served. -/
theorem serveFrom_ensures (read : String → Option HookResult) (key : String) :
    (p.serveFrom read key).Ensures (fun x => At n x.2) fun _ => n.Looked true := by
  rintro ⟨c, s⟩ hs
  have hlooked := p.lookup_ensures read key s hs
  obtain ⟨stats, hlookup⟩ := p.runOn_lookup read key s
  have hcache := runOn_onCache (p.lookup read key) c s
  rw [hlookup] at hlooked hcache
  rw [serveFrom, runOn_bind_of_ok hcache]
  cases hfound : (p.adapter.reply key s.adapter).bind read with
  | none =>
    rw [hfound] at hlooked
    exact .missed hlooked
  | some result =>
    rw [hfound] at hlooked
    exact .served rfl hlooked

/-- Before an operation the cache is counted as asked where the operation looks for its result. -/
theorem before_ensures (henabled : p.settings.enabled = true) {e : BeforeEvent} {c : HookContext}
    (hkey : c.cacheKey = none) (hasked : ∀ version, (p.source? c version e).isSome = asked) :
    (p.before e).Ensures (fun x => x.1 = c ∧ At n x.2) fun _ => n.Looked asked := by
  rintro ⟨c', s⟩ ⟨hc, hs⟩
  obtain rfl : c' = c := hc
  rw [p.runOn_before_eq henabled, ← hasked s.version.current]
  cases p.source? c' s.version.current e with
  | none => exact .past hkey hs
  | some source => exact p.serveFrom_ensures source.2 source.1 (c', s) hs

/-- A result is kept at most once, and only where the read has missed. -/
theorem keepResult_ensures (v : Option Value) (ttl : Nat) :
    (p.keepResult v ttl).Ensures (n.Looked asked)
      fun _ x => n.Moved x.2.counters asked.toNat 0 := by
  rintro ⟨c, s⟩ h
  by_cases hskipped : c.servedFromCache = true ∨ c.cacheKey = none ∨ v = none
  · rw [p.runOn_keepResult_of_not_kept hskipped]
    exact h.moved
  · simp only [not_or, Bool.not_eq_true, ← ne_eq, Option.ne_none_iff_exists'] at hskipped
    obtain ⟨hserved, ⟨key, hkey⟩, v, rfl⟩ := hskipped
    have hcontext : context.runOn (c, s) = (.ok c, c, s) := rfl
    rw [keepResult, runOn_bind_of_ok hcontext, hserved, hkey]
    cases h with
    | past hnone => exact absurd (hkey.symm.trans hnone) (by simp)
    | served htrue => exact absurd (hserved.symm.trans htrue) (by simp)
    | missed hs =>
      rcases onCache_ensures (p.keep_ensures key v ttl) (c, s) hs with hkept | hkept
      · exact hkept.moved n.moved_miss
      · exact hkept.moved n.moved_kept

/-- After a write the version is raised once, whatever else fails. -/
theorem after_ensures (henabled : p.settings.enabled = true) {e : AfterEvent}
    (he : e.operation.isRead = false) :
    (p.after e).Ensures (fun x => At n x.2) fun out x => out = .ok () ∧ At n.raise x.2 := by
  have hbump : (onCache p.bump >>= fun _ => pure () :
      Action (HookContext × CacheState κ) Unit).Ensures (fun x => At n x.2)
        fun _ x => At n.raise x.2 :=
    (onCache_ensures p.bump_ensures).bind (fun _ => ensures_pure fun _ hx => hx) fun _ _ hx => hx
  have hraised : (p.after e).Ensures (fun x => At n x.2) fun _ x => At n.raise x.2 := by
    cases e with
    | getById | getByQuery | getAll => cases he
    | update id | delete id =>
      rw [after, henabled]
      -- The drop cannot fail, so the version is always reached.
      refine Ensures.bind (Q := fun out x => (∃ existed, out = .ok existed) ∧ At n x.2)
        (fun x hx => ⟨?_, onCache_ensures (p.dropById_ensures id) x hx⟩)
        (fun _ x hx => hbump x hx.2) ?_
      · obtain ⟨existed, stats, hdrop⟩ := p.runOn_dropById id x.2
        exact ⟨existed, congrArg Prod.fst hdrop⟩
      · rintro f x ⟨⟨existed, hfault⟩, -⟩
        cases hfault
    | create | createMany | updateMany | deleteMany =>
      rw [after, henabled]
      exact hbump
  rintro ⟨c, s⟩ hs
  obtain ⟨stats, hrun⟩ := p.runOn_after_of_write henabled he c s
  exact ⟨congrArg Prod.fst hrun, hraised (c, s) hs⟩

end CachePlugin

end Quire
