import Quire.Proofs.CacheMemories

/-!
# Kept entries

A condition on the texts that an adapter can answer with under the keys of a family. Losses and
texts under other keys keep it; a text under a key of the family has to satisfy it for all members
with that key.
-/
namespace Quire

variable {κ ι : Type}

/-- Every text that the adapter can answer with for a member of a family of keys satisfies a
condition. -/
def KeptUnder (Holds : κ → CacheMemory → Prop) (key : ι → String) (within : ι → Prop)
    (P : ι → String → Prop) (k : κ) : Prop :=
  ∃ m, Holds k m ∧ ∀ i text, within i → m (key i) = some text → P i text

namespace KeptUnder

variable {a : CacheAdapter κ} {Holds : κ → CacheMemory → Prop} {key : ι → String}
  {within : ι → Prop} {P Q : ι → String → Prop} {k : κ}

theorem reply (hadapter : a.Remembers Holds) (h : KeptUnder Holds key within P k) {i : ι}
    (hi : within i) {text : String} (hreply : a.reply (key i) k = some text) : P i text := by
  obtain ⟨m, hm, hkept⟩ := h
  exact hkept i text hi (hadapter.reply hm hreply)

theorem lose {k' : κ} (hk : ∀ m, Holds k m → Holds k' m) (h : KeptUnder Holds key within P k) :
    KeptUnder Holds key within P k' := by
  obtain ⟨m, hm, hkept⟩ := h
  exact ⟨m, hk m hm, hkept⟩

theorem mono (hPQ : ∀ i text, within i → P i text → Q i text)
    (h : KeptUnder Holds key within P k) : KeptUnder Holds key within Q k := by
  obtain ⟨m, hm, hkept⟩ := h
  exact ⟨m, hm, fun i text hi hget => hPQ i text hi (hkept i text hi hget)⟩

theorem of_none {m : CacheMemory} (hm : Holds k m) (hnone : ∀ i, within i → m (key i) = none) :
    KeptUnder Holds key within P k := by
  refine ⟨m, hm, fun i text hi hget => ?_⟩
  rw [hnone i hi] at hget
  cases hget

theorem set_other (hadapter : a.Remembers Holds) {other : String}
    (hother : ∀ i, within i → other ≠ key i) (text : String) (ttl : Nat)
    (h : KeptUnder Holds key within P k) :
    KeptUnder Holds key within P (a.afterSet other text ttl k) := by
  obtain ⟨m, hm, hkept⟩ := h
  rcases hadapter.set hm other text ttl with hset | hset
  · exact ⟨m, hset, hkept⟩
  · refine ⟨_, hset, fun i text' hi hget => ?_⟩
    rw [Function.update_of_ne (hother i hi).symm] at hget
    exact hkept i text' hi hget

theorem set_own (hadapter : a.Remembers Holds) {i : ι} {text : String}
    (hown : ∀ j, within j → key j = key i → P j text) (ttl : Nat)
    (h : KeptUnder Holds key within P k) :
    KeptUnder Holds key within P (a.afterSet (key i) text ttl k) := by
  obtain ⟨m, hm, hkept⟩ := h
  rcases hadapter.set hm (key i) text ttl with hset | hset
  · exact ⟨m, hset, hkept⟩
  · refine ⟨_, hset, fun j text' hj hget => ?_⟩
    by_cases hkey : key j = key i
    · rw [hkey, Function.update_self] at hget
      cases hget
      exact hown j hj hkey
    · rw [Function.update_of_ne hkey] at hget
      exact hkept j text' hj hget

/-- Once the entry of a member is dropped, the condition may change for it. -/
theorem delete_own (hadapter : a.RemembersUndeleted Holds) {i : ι}
    (hothers : ∀ j text, within j → i ≠ j → P j text → Q j text)
    (h : KeptUnder Holds key within P k) :
    KeptUnder Holds key within Q (a.afterDelete (key i) k) := by
  obtain ⟨m, hm, hkept⟩ := h
  refine ⟨_, hadapter.delete_key hm (key i), fun j text hj hget => ?_⟩
  by_cases hkey : key j = key i
  · rw [hkey, Function.update_self] at hget
    cases hget
  · rw [Function.update_of_ne hkey] at hget
    exact hothers j text hj (fun heq => hkey (by rw [heq])) (hkept j text hj hget)

end KeptUnder
end Quire
