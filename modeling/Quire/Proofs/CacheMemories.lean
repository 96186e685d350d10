import Mathlib.Logic.Function.Basic
import Quire.Proofs.CacheCalls

/-!
# What adapters remember

An adapter may fail and may lose what it was given, but it answers with nothing else than the text
that was last written under a key. The adapter of the cache in memory is one of these.
-/
namespace Quire

/-- The text that was last written under each key. -/
abbrev CacheMemory := String → Option String

namespace CacheAdapter

variable {κ : Type}

/-- An adapter that answers only with the last text written under a key. `Holds k m` says that from
the state `k` on no other answers can come than those of the memory `m`, until a text is written. -/
structure Remembers (a : CacheAdapter κ) (Holds : κ → CacheMemory → Prop) : Prop where
  reply : ∀ {k m}, Holds k m → ∀ {key text}, a.reply key k = some text → m key = some text
  get : ∀ {k m}, Holds k m → ∀ key, Holds (a.afterGet key k) m
  set_ok : ∀ {k m}, Holds k m → ∀ {key text ttl}, ((a.set key text ttl).runOn k).1 = .ok () →
    Holds (a.afterSet key text ttl k) (Function.update m key (some text))
  set_error : ∀ {k m}, Holds k m → ∀ {key text ttl f},
    ((a.set key text ttl).runOn k).1 = .error f → Holds (a.afterSet key text ttl k) m
  delete : ∀ {k m}, Holds k m → ∀ key, Holds (a.afterDelete key k) m
  clear : ∀ {k m}, Holds k m → ∀ pattern, Holds (a.afterClear pattern k) m

/-- An adapter whose deletions do not fail. -/
structure RemembersUndeleted (a : CacheAdapter κ) (Holds : κ → CacheMemory → Prop) : Prop
    extends Remembers a Holds where
  delete_key : ∀ {k m}, Holds k m → ∀ key,
    Holds (a.afterDelete key k) (Function.update m key none)

variable {a : CacheAdapter κ} {Holds : κ → CacheMemory → Prop}

/-- Writing under a key either takes place or does not. -/
theorem Remembers.set (h : a.Remembers Holds) {k : κ} {m : CacheMemory} (hk : Holds k m)
    (key text : String) (ttl : Nat) :
    Holds (a.afterSet key text ttl k) m ∨
      Holds (a.afterSet key text ttl k) (Function.update m key (some text)) := by
  cases hset : ((a.set key text ttl).runOn k).1 with
  | error f => exact Or.inl (h.set_error hk hset)
  | ok u => exact Or.inr (h.set_ok hk hset)

end CacheAdapter

/-! ## The cache in memory -/

namespace MemoryCache

variable {key : String} {c : MemoryCache}

theorem mem_of_find? {e : CacheEntry} (h : c.find? key = some e) : (key, e) ∈ c.entries := by
  obtain ⟨before, after, heq, -⟩ := List.lookup_eq_some_iff.mp h
  rw [heq]
  exact List.mem_append_right _ List.mem_cons_self

theorem ne_of_mem_drop {e : String × CacheEntry} (h : e ∈ (c.drop key).entries) :
    e ∈ c.entries ∧ e.1 ≠ key := by
  rw [drop, List.mem_filter, bne_iff_ne] at h
  exact h

theorem exists_of_get {now : Nat} {text : String} (h : (c.get now key).1 = some text) :
    ∃ e, (key, e) ∈ c.entries ∧ e.text = text := by
  rw [MemoryCache.get] at h
  split at h
  · next e he =>
    split at h
    · exact ⟨e, mem_of_find? he, Option.some.inj h⟩
    · cases h
  · cases h

theorem mem_of_mem_get {now : Nat} {e : String × CacheEntry}
    (h : e ∈ (c.get now key).2.entries) : e ∈ c.entries := by
  rw [MemoryCache.get] at h
  split at h
  · split at h
    · exact h
    · exact (ne_of_mem_drop h).1
  · exact h

/-- Making room only drops entries. -/
theorem mem_of_mem_makeRoom {now : Nat} {e : String × CacheEntry}
    (h : e ∈ (c.makeRoom now).entries) : e ∈ c.entries := by
  rw [makeRoom] at h
  split at h
  · exact h
  · dsimp only at h
    split at h
    · exact (List.mem_filter.mp h).1
    · split at h
      · exact (List.mem_filter.mp (ne_of_mem_drop h).1).1
      · exact (List.mem_filter.mp h).1

/-- Under the written key there is only the new entry. -/
theorem mem_of_mem_write {now life : Nat} {text : String} {e : String × CacheEntry}
    (h : e ∈ (c.write now key text life).entries) :
    e = (key, ⟨text, expiryAfter now life⟩) ∨ e ∈ c.entries ∧ e.1 ≠ key := by
  rw [MemoryCache.write, List.mem_append, List.mem_singleton] at h
  refine h.symm.imp_right fun h => ?_
  split at h
  · exact ne_of_mem_drop h
  · next hnone =>
    have hmem := mem_of_mem_makeRoom h
    refine ⟨hmem, fun hkey => hnone ?_⟩
    rw [find?, List.lookup_isSome_iff]
    exact ⟨e, hmem, beq_iff_eq.mpr hkey.symm⟩

end MemoryCache

/-! ## Adapters over the cache in memory -/

/-- An adapter whose calls are the operations of a cache in memory, each at the time that a clock
shows, whatever that is. -/
structure CacheAdapter.InMemory {κ : Type} (a : CacheAdapter κ) (cache : κ → MemoryCache)
    (now : κ → Nat) : Prop where
  get : ∀ key k, ((a.get key).runOn k).1 = .ok ((cache k).get (now k) key).1 ∧
    cache (a.afterGet key k) = ((cache k).get (now k) key).2
  set : ∀ key text ttl k, ((a.set key text ttl).runOn k).1 = .ok () ∧
    cache (a.afterSet key text ttl k) = (cache k).set (now k) key text ttl
  delete : ∀ key k, ((a.delete key).runOn k).1 = .ok ((cache k).delete (now k) key).1 ∧
    cache (a.afterDelete key k) = ((cache k).delete (now k) key).2
  supportsClear : a.supportsClear = true
  clear : ∀ pattern k, ((a.clear pattern).runOn k).1 = .ok ((cache k).clear pattern).1 ∧
    cache (a.afterClear pattern k) = ((cache k).clear pattern).2

namespace MemoryCache

/-- The entries are among those of a memory. -/
def Within (c : MemoryCache) (m : CacheMemory) : Prop := ∀ e ∈ c.entries, m e.1 = some e.2.text

variable {c d : MemoryCache} {m : CacheMemory}

theorem Within.mono (h : c.Within m) (hsub : ∀ e ∈ d.entries, e ∈ c.entries) : d.Within m :=
  fun e he => h e (hsub e he)

end MemoryCache

namespace CacheAdapter.InMemory

variable {κ : Type} {a : CacheAdapter κ} {cache : κ → MemoryCache} {now : κ → Nat}

theorem reply_eq (h : a.InMemory cache now) (key : String) (k : κ) :
    a.reply key k = ((cache k).get (now k) key).1 := by
  rw [reply, (h.get key k).1]

theorem remembersUndeleted (h : a.InMemory cache now) :
    a.RemembersUndeleted fun k => (cache k).Within where
  reply := by
    intro k m hk key text hreply
    rw [h.reply_eq] at hreply
    obtain ⟨e, he, rfl⟩ := MemoryCache.exists_of_get hreply
    exact hk (key, e) he
  get := by
    intro k m hk key
    rw [(h.get key k).2]
    exact hk.mono fun e he => MemoryCache.mem_of_mem_get he
  set_ok := by
    intro k m hk key text ttl _
    rw [(h.set key text ttl k).2]
    intro e he
    rcases MemoryCache.mem_of_mem_write he with rfl | ⟨hmem, hne⟩
    · exact Function.update_self _ _ _
    · rw [Function.update_of_ne hne]
      exact hk e hmem
  set_error := by
    intro k m hk key text ttl f hset
    rw [(h.set key text ttl k).1] at hset
    cases hset
  delete := by
    intro k m hk key
    rw [(h.delete key k).2]
    exact hk.mono fun e he => (MemoryCache.ne_of_mem_drop he).1
  clear := by
    intro k m hk pattern
    rw [(h.clear pattern k).2]
    exact hk.mono fun e he => (List.mem_filter.mp he).1
  delete_key := by
    intro k m hk key
    rw [(h.delete key k).2]
    intro e he
    obtain ⟨hmem, hne⟩ := MemoryCache.ne_of_mem_drop he
    rw [Function.update_of_ne hne]
    exact hk e hmem

end CacheAdapter.InMemory

namespace TickingCache

/-- The entries are among those of a memory. -/
def Holds (s : TickingCache) (m : CacheMemory) : Prop :=
  ∀ e ∈ s.cache.entries, m e.1 = some e.2.text

theorem adapter_inMemory : adapter.InMemory cache now where
  get _ _ := ⟨rfl, rfl⟩
  set _ _ _ _ := ⟨rfl, rfl⟩
  delete _ _ := ⟨rfl, rfl⟩
  supportsClear := rfl
  clear _ _ := ⟨rfl, rfl⟩

theorem remembersUndeleted : adapter.RemembersUndeleted Holds :=
  adapter_inMemory.remembersUndeleted

end TickingCache

end Quire
