import Quire.Proofs.AdapterWrites
import Quire.Proofs.GlobMatching

/-!
# Cleared collections

The pattern of a collection matches all of its keys and none of another collection below the same
prefix, whatever identifiers and filters users choose. Once a cache in memory has been cleared by
it, only what is written afterwards is served for the collection.
-/
namespace Quire

/-! ## Keys and patterns -/

/-- What a collection has keys for. -/
inductive CacheSubject where
  | byId (id : DocumentId)
  | byQuery (filter : Filter) (options : ReadOptions)
  | list (version : Nat) (mode : ListMode)
  | version

namespace CacheKeys

/-- The key of a subject. -/
def key (k : CacheKeys) : CacheSubject → String
  | .byId id => k.byId id
  | .byQuery f o => k.byQuery f o
  | .list version mode => k.list version mode
  | .version => k.version

theorem of_make {keyPrefix collection : String} {k : CacheKeys}
    (h : CacheKeys.make keyPrefix collection = .ok k) :
    k.keyPrefix = keyPrefix ∧ k.collection = collection := by
  rw [make] at h
  split at h
  · split at h
    · cases h
      exact ⟨rfl, rfl⟩
    · cases h
  · cases h

variable (k : CacheKeys)

theorem exists_key_eq (x : CacheSubject) : ∃ rest, k.key x = k.stem ++ rest := by
  cases x with
  | byId id => exact ⟨_, k.byId_eq id⟩
  | byQuery f o => exact ⟨_, k.byQuery_eq f o⟩
  | list version mode => exact ⟨_, k.list_eq version mode⟩
  | version => exact ⟨_, rfl⟩

theorem version_ne_key {x : CacheSubject} (hx : x ≠ .version) : k.version ≠ k.key x := by
  cases x with
  | byId id => exact k.version_ne_byId id
  | byQuery f o =>
    rw [key, byQuery_eq, CacheKeys.version]
    exact k.stem_append_ne (by simp [String.toList_append])
  | list version mode => exact k.version_ne_list version mode
  | version => exact absurd rfl hx

theorem plain_of_not_isGlobChar {c : Char} (h : isGlobChar c = false) : c ≠ '*' ∧ c ≠ '?' := by
  constructor <;> rintro rfl <;> cases h

theorem of_mem_collection {c : Char} (hc : c ∈ k.collection.toList) :
    isGlobChar c = false ∧ c ≠ ':' := by
  have hall := (Bool.and_eq_true_iff.mp k.plain_collection).2
  simpa using List.all_eq_true.mp hall c hc

theorem plain_stem : ∀ c ∈ k.stem.toList, c ≠ '*' ∧ c ≠ '?' := by
  have hfirst : ∀ c ∈ k.keyPrefix.toList, c ≠ '*' ∧ c ≠ '?' := fun c hc =>
    plain_of_not_isGlobChar (by simpa using List.all_eq_true.mp k.plain_keyPrefix c hc)
  have hcollection : ∀ c ∈ k.collection.toList, c ≠ '*' ∧ c ≠ '?' := fun c hc =>
    plain_of_not_isGlobChar (k.of_mem_collection hc).1
  have hcolon : ∀ c ∈ ":".toList, c ≠ '*' ∧ c ≠ '?' := by simp
  simp only [stem, String.toList_append, List.forall_mem_append]
  exact ⟨⟨⟨hfirst, hcolon⟩, hcollection⟩, hcolon⟩

/-- The pattern of a collection matches what starts like its keys. -/
theorem isMatch_pattern_iff {text : String} :
    Glob.isMatch k.pattern text = true ↔ ∃ rest, text = k.stem ++ rest :=
  Glob.isMatch_star_iff k.plain_stem

theorem isMatch_pattern_key (x : CacheSubject) : Glob.isMatch k.pattern (k.key x) = true :=
  k.isMatch_pattern_iff.mpr (k.exists_key_eq x)

theorem colon_notMem_collection : ':' ∉ k.collection.toList :=
  fun hmem => (k.of_mem_collection hmem).2 rfl

/-- Below one prefix, what starts a key determines the collection. -/
theorem collection_eq_of_stem {k l : CacheKeys} (hsame : k.keyPrefix = l.keyPrefix)
    {a b : String} (h : k.stem ++ a = l.stem ++ b) : k.collection = l.collection := by
  have hchars := congrArg String.toList h
  simp only [stem, String.toList_append, hsame, List.append_assoc] at hchars
  have hrest := List.append_cancel_left (List.append_cancel_left hchars)
  exact String.ext
    (digits_append_colon k.colon_notMem_collection l.colon_notMem_collection hrest).1

/-- Below one prefix, no pattern reaches the keys of another collection. -/
theorem isMatch_pattern_of_ne {k l : CacheKeys} (hsame : k.keyPrefix = l.keyPrefix)
    (hne : k.collection ≠ l.collection) (x : CacheSubject) :
    Glob.isMatch k.pattern (l.key x) = false := by
  rw [Bool.eq_false_iff, ne_eq, isMatch_pattern_iff]
  rintro ⟨rest, heq⟩
  obtain ⟨own, hown⟩ := l.exists_key_eq x
  exact hne (collection_eq_of_stem hsame (heq.symm.trans hown))

end CacheKeys

/-! ## Entries -/

namespace MemoryCache

variable {c : MemoryCache} {key : String}

theorem lookup_filter (keep : String → Bool) (entries : List (String × CacheEntry)) :
    (entries.filter fun e => keep e.1).lookup key =
      if keep key then entries.lookup key else none := by
  induction entries with
  | nil => simp
  | cons e entries ih =>
    obtain ⟨name, entry⟩ := e
    rw [List.filter_cons, List.lookup_cons]
    by_cases hkey : key = name
    · subst hkey
      cases hkeep : keep key <;> simp [ih, hkeep]
    · have hother : (key == name) = false := by simpa using hkey
      cases keep name <;> simp [List.lookup_cons, hother, ih]

theorem find?_drop_self (c : MemoryCache) (key : String) : find? key (c.drop key) = none := by
  rw [drop, find?, lookup_filter (· != key), if_neg (by simp)]

/-- Clearing by a pattern drops the entries of the matching keys and keeps all others. -/
theorem find?_clear (c : MemoryCache) (pattern key : String) :
    find? key (c.clear pattern).2 =
      if Glob.isMatch pattern key then none else c.find? key := by
  rw [clear, find?, lookup_filter (fun key => !Glob.isMatch pattern key), find?]
  cases Glob.isMatch pattern key <;> rfl

theorem find?_write_self (c : MemoryCache) (now : Nat) (key text : String) (life : Nat) :
    find? key (c.write now key text life) = some ⟨text, expiryAfter now life⟩ := by
  have hroom :
      find? key (if (c.find? key).isSome then c.drop key else c.makeRoom now) = none := by
    split
    · exact find?_drop_self c key
    · next hnone =>
      rw [find?, List.lookup_eq_none_iff]
      intro e he
      rw [bne_iff_ne]
      rintro rfl
      refine hnone ?_
      rw [find?, List.lookup_isSome_iff]
      exact ⟨e, mem_of_mem_makeRoom he, beq_self_eq_true _⟩
  rw [find?] at hroom
  rw [write, find?, List.lookup_append, hroom, List.lookup_cons, beq_self_eq_true]
  rfl

theorem get_of_find? {e : CacheEntry} (h : c.find? key = some e) {now : Nat}
    (hlive : now < e.expiresAt) : (c.get now key).1 = some e.text := by
  rw [MemoryCache.get, h]
  dsimp only
  rw [if_pos (by simpa [CacheEntry.isLive] using hlive)]

/-- An entry that is written for some time is live when it is written. -/
theorem lt_expiry {ttl : Nat} (h : ttl ≠ 0) (now : Nat) : now < expiry now ttl := by
  have hsecond : 0 < second := tenPow_pos 9
  have hlived : 0 < ttl * second := Nat.mul_pos (Nat.pos_of_ne_zero h) hsecond
  have hfar : 0 < farFuture := Nat.mul_pos (by decide) hsecond
  rw [expiry, expiryAfter]
  split
  · exact Nat.lt_add_of_pos_right hlived
  · exact Nat.lt_add_of_pos_right hfar

end MemoryCache

namespace CacheAdapter.InMemory

variable {κ : Type} {a : CacheAdapter κ} {cache : κ → MemoryCache} {now : κ → Nat}

/-- What holds of all entries and is written holds of all entries afterwards. -/
theorem steps (h : a.InMemory cache now) {Writes P : String → String → Prop}
    (hwrites : ∀ key text, Writes key text → P key text) {k k' : κ} (hsteps : a.Steps Writes k k')
    (hk : ∀ e ∈ (cache k).entries, P e.1 e.2.text) :
    ∀ e ∈ (cache k').entries, P e.1 e.2.text := by
  induction hsteps with
  | refl => exact hk
  | @tail k₁ _ _ hstep ih =>
    cases hstep with
    | get key =>
      rw [(h.get key k₁).2]
      exact fun e he => ih e (MemoryCache.mem_of_mem_get he)
    | @set key text hwritten ttl =>
      rw [(h.set key text ttl k₁).2]
      intro e he
      rcases MemoryCache.mem_of_mem_write he with rfl | ⟨hmem, -⟩
      · exact hwrites key text hwritten
      · exact ih e hmem
    | delete key =>
      rw [(h.delete key k₁).2]
      exact fun e he => ih e (MemoryCache.ne_of_mem_drop he).1
    | clear pattern =>
      rw [(h.clear pattern k₁).2]
      exact fun e he => ih e (List.mem_filter.mp he).1

end CacheAdapter.InMemory

/-! ## Clearing -/

namespace CachePlugin

variable {κ : Type}

/-- From a state of the adapter on, the keys of the collection, except that of its version, are
answered only with texts that are written from there on. -/
def ServesOnlyLater (p : CachePlugin κ) (k : κ) : Prop :=
  ∀ Writes k', p.adapter.Steps Writes k k' → ∀ x, x ≠ .version → ∀ text,
    p.adapter.reply (p.keys.key x) k' = some text → Writes (p.keys.key x) text

/-- The cache answers with a version until its time to live has elapsed, counted from when it was
written. -/
def HoldsVersion (p : CachePlugin κ) (version written : Nat) (c : MemoryCache) : Prop :=
  (∀ now, now < MemoryCache.expiry written p.settings.versionTtl →
    (c.get now p.keys.version).1 = some (toString version)) ∧
  (p.settings.versionTtl ≠ 0 → written < MemoryCache.expiry written p.settings.versionTtl)

variable {p : CachePlugin κ} {cache : κ → MemoryCache} {now : κ → Nat}
  (hmemory : p.adapter.InMemory cache now)

include hmemory

theorem cache_afterPersist (version : Nat) (k : κ) :
    cache (p.afterPersist version k) =
      (cache k).set (now k) p.keys.version (toString version) p.settings.versionTtl :=
  (hmemory.set _ _ _ k).2

theorem holdsVersion_afterPersist (version : Nat) (k : κ) :
    p.HoldsVersion version (now k) (cache (p.afterPersist version k)) := by
  refine ⟨fun later hlater => ?_, fun hlives => MemoryCache.lt_expiry hlives _⟩
  rw [cache_afterPersist hmemory]
  exact MemoryCache.get_of_find? (MemoryCache.find?_write_self _ _ _ _ _) hlater

/-- Once its pattern is cleared and its version is written, nothing of a collection is left. -/
theorem servesOnlyLater_afterClear (version : Nat) (k : κ) :
    p.ServesOnlyLater (p.afterPersist version (p.adapter.afterClear p.keys.pattern k)) := by
  intro Writes k' hsteps x hx text hreply
  -- Every entry under a key of the collection, except that of its version, was written later.
  have hentries := hmemory.steps
    (P := fun key text => ∀ y, y ≠ .version → key = p.keys.key y → Writes key text)
    (fun _ _ hwritten _ _ _ => hwritten) hsteps
  rw [cache_afterPersist hmemory, (hmemory.clear p.keys.pattern k).2] at hentries
  rw [hmemory.reply_eq] at hreply
  obtain ⟨e, he, rfl⟩ := MemoryCache.exists_of_get hreply
  refine hentries ?_ _ he x hx rfl
  intro e he y hy hkey
  rcases MemoryCache.mem_of_mem_write he with rfl | ⟨hmem, -⟩
  · exact absurd hkey (p.keys.version_ne_key hy)
  · have hkept := (List.mem_filter.mp hmem).2
    rw [hkey, p.keys.isMatch_pattern_key y] at hkept
    cases hkept

end CachePlugin

/-- The pattern of a collection matches all of its keys and none of another collection below the
same prefix. So clearing a collection in memory removes all that was kept for it, leaves its
version in place, and removes nothing that was kept for the other. -/
theorem clear_collection_exact {keyPrefix name other : String} {keys others : CacheKeys}
    (hkeys : CacheKeys.make keyPrefix name = .ok keys)
    (hothers : CacheKeys.make keyPrefix other = .ok others) (hne : name ≠ other) :
    (∀ x, Glob.isMatch keys.pattern (keys.key x) = true ∧
      Glob.isMatch keys.pattern (others.key x) = false) ∧
    ∀ {κ : Type} {p : CachePlugin κ} {cache : κ → MemoryCache} {now : κ → Nat}, p.keys = keys →
      p.adapter.InMemory cache now → ∀ s : CacheState κ,
      ∃ t, p.invalidateAll.runOn s = (.ok ((cache s.adapter).clear keys.pattern).1, t) ∧
        t.version = s.version ∧ p.ServesOnlyLater t.adapter ∧
        p.HoldsVersion s.version.current (now (p.adapter.afterClear keys.pattern s.adapter))
          (cache t.adapter) ∧
        ∀ x, MemoryCache.find? (others.key x)
            (cache (p.adapter.afterClear keys.pattern s.adapter)) =
          MemoryCache.find? (others.key x) (cache s.adapter) := by
  obtain ⟨hkeys', hname⟩ := CacheKeys.of_make hkeys
  obtain ⟨hothers', hother⟩ := CacheKeys.of_make hothers
  have hforeign : ∀ x, Glob.isMatch keys.pattern (others.key x) = false :=
    CacheKeys.isMatch_pattern_of_ne (hkeys'.trans hothers'.symm) (by rwa [hname, hother])
  refine ⟨fun x => ⟨keys.isMatch_pattern_key x, hforeign x⟩, fun {κ p cache now} hp hmemory s => ?_⟩
  subst hp
  obtain ⟨stats, hrun⟩ :=
    p.runOn_invalidateAll_of_cleared hmemory.supportsClear (hmemory.clear _ s.adapter).1
  refine ⟨_, hrun, rfl, p.servesOnlyLater_afterClear hmemory _ _,
    p.holdsVersion_afterPersist hmemory _ _, fun x => ?_⟩
  rw [(hmemory.clear _ _).2, MemoryCache.find?_clear, hforeign]
  rfl

/-! ## Rows and notes -/

namespace CachedStore

def noteKeys : CacheKeys :=
  { rowsCache.keys with collection := "notes", plain_collection := by decide }

/-- A row, whose identifier looks like a pattern, and a note in one cache. -/
def rowAndNote : CacheState TickingCache :=
  .start "rows" false 3 {
    cache := {
      capacity := 100
      entries := [(rowsCache.keys.byId (.text "a:*"), ⟨"{}", 500⟩),
        (noteKeys.byId (.int 7), ⟨"{}", 500⟩)] }
    now := 10 }

theorem clear_collection_exact_rowAndNote :
    (CacheKeys.make "app" "rows" = .ok rowsCache.keys ∧
      CacheKeys.make "app" "notes" = .ok noteKeys ∧ "rows" ≠ "notes" ∧
      rowsCache.adapter.InMemory TickingCache.cache TickingCache.now) ∧
    ∃ t, rowsCache.invalidateAll.runOn rowAndNote = (.ok 1, t) ∧ t.version = ⟨3⟩ ∧
      rowsCache.ServesOnlyLater t.adapter ∧ rowsCache.HoldsVersion 3 11 t.adapter.cache ∧
      MemoryCache.find? (noteKeys.byId (.int 7))
        (rowAndNote.adapter.cache.clear rowsCache.keys.pattern).2 = some ⟨"{}", 500⟩ := by
  have hrows : CacheKeys.make "app" "rows" = .ok rowsCache.keys := rfl
  have hnotes : CacheKeys.make "app" "notes" = .ok noteKeys := rfl
  have hne : "rows" ≠ "notes" := by decide
  have hmemory : rowsCache.adapter.InMemory TickingCache.cache TickingCache.now :=
    TickingCache.adapter_inMemory
  obtain ⟨t, hrun, hversion, hlater, hholds, hforeign⟩ :=
    (clear_collection_exact hrows hnotes hne).2 rfl hmemory rowAndNote
  have hcount : (rowAndNote.adapter.cache.clear rowsCache.keys.pattern).1 = 1 := by
    have hsame : rowsCache.keys.keyPrefix = noteKeys.keyPrefix := rfl
    have hnote : Glob.isMatch rowsCache.keys.pattern (noteKeys.byId (.int 7)) = false :=
      CacheKeys.isMatch_pattern_of_ne hsame (by decide) (.byId (.int 7))
    have hrow : Glob.isMatch rowsCache.keys.pattern (rowsCache.keys.byId (.text "a:*")) = true :=
      rowsCache.keys.isMatch_pattern_key (.byId (.text "a:*"))
    simp [MemoryCache.clear, rowAndNote, CacheState.start, hrow, hnote]
  rw [hcount] at hrun
  exact ⟨⟨hrows, hnotes, hne, hmemory⟩, t, hrun, hversion, hlater, hholds,
    (hforeign (.byId (.int 7))).trans rfl⟩

end CachedStore

end Quire
