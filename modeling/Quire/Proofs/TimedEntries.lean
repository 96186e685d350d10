import Mathlib.Data.List.Induction
import Mathlib.Data.List.Nodup
import Quire.Proofs.ClearedCollections

/-!
# Timed entries

A row of calls of the cache in memory, each at the time that the clock shows then. There are never
more entries than the cache is for. A key is answered with the text that was last written under it
until the time to live of that text has elapsed, unless the key was dropped, cleared or evicted
since. Only the write of a new key into a cache full of live entries evicts; it evicts one entry,
and no other expires earlier.
-/
namespace Quire

/-- A call of the cache in memory. -/
inductive MemoryCall where
  | get (key : String)
  | set (key text : String) (life : Nat)
  | delete (key : String)
  | clear (pattern : String)

namespace MemoryCall

/-- The cache after a call. -/
def after (now : Nat) (c : MemoryCache) : MemoryCall → MemoryCache
  | get key => (c.get now key).2
  | set key text life => c.write now key text life
  | delete key => (c.delete now key).2
  | clear pattern => (c.clear pattern).2

/-- The call writes, deletes or clears a key. -/
def Touches (key : String) : MemoryCall → Prop
  | get _ => False
  | set other _ _ => other = key
  | delete other => other = key
  | clear pattern => Glob.isMatch pattern key = true

/-- The call drops the live entry of a key that it does not touch. -/
def Evicts (now : Nat) (c : MemoryCache) (call : MemoryCall) (key : String) : Prop :=
  ¬call.Touches key ∧ c.contains now key = true ∧ MemoryCache.find? key (call.after now c) = none

/-- A key that is not stored is written into a cache full of live entries, and exactly the entry
of one other key makes room for it, one that expires first. -/
def Displaces (now : Nat) (c : MemoryCache) (call : MemoryCall) (key : String) : Prop :=
  ∃ other text life front e back, call = set other text life ∧ c.find? other = none ∧
    (c.live now).length = c.capacity ∧ c.entries = front ++ (key, e) :: back ∧
    (∀ x ∈ c.entries, e.expiresAt ≤ x.2.expiresAt) ∧
    (call.after now c).entries =
      front ++ back ++ [(other, ⟨text, MemoryCache.expiryAfter now life⟩)]

end MemoryCall

namespace MemoryCache

/-- The cache after a row of calls, each with its time. -/
def run (c : MemoryCache) (calls : List (Nat × MemoryCall)) : MemoryCache :=
  calls.foldl (fun c x => x.2.after x.1 c) c

/-- No call of a row touches a key or evicts it. -/
def Spares (key : String) : MemoryCache → List (Nat × MemoryCall) → Prop
  | _, [] => True
  | c, (now, call) :: calls =>
    ¬call.Touches key ∧ ¬call.Evicts now c key ∧ Spares key (call.after now c) calls

/-- Every key has one entry, and there are not more entries than the cache is for. -/
structure Bounded (c : MemoryCache) : Prop where
  capacity_pos : 0 < c.capacity
  length_le : c.entries.length ≤ c.capacity
  nodup_keys : (c.entries.map Prod.fst).Nodup

variable {c : MemoryCache} {key : String} {now : Nat}

theorem bounded_empty (capacity : Nat) : (empty capacity).Bounded where
  capacity_pos := Nat.lt_of_lt_of_le Nat.zero_lt_one (Nat.le_max_right capacity 1)
  length_le := Nat.zero_le _
  nodup_keys := List.nodup_nil

/-- Dropping entries leaves the cache bounded. -/
theorem Bounded.of_sublist (h : c.Bounded) {entries : List (String × CacheEntry)}
    (hsub : entries.Sublist c.entries) : ({ c with entries } : MemoryCache).Bounded where
  capacity_pos := h.capacity_pos
  length_le := hsub.length_le.trans h.length_le
  nodup_keys := h.nodup_keys.sublist (hsub.map Prod.fst)

theorem Bounded.find?_eq_some_iff (h : c.Bounded) {e : CacheEntry} :
    c.find? key = some e ↔ (key, e) ∈ c.entries := by
  refine ⟨mem_of_find?, fun hmem => ?_⟩
  obtain ⟨front, back, hentries⟩ := List.append_of_mem hmem
  have hnodup := h.nodup_keys
  rw [hentries, List.map_append, List.map_cons, List.nodup_append] at hnodup
  refine List.lookup_eq_some_iff.mpr ⟨front, back, hentries, fun x hx => ?_⟩
  have hne : x.1 ≠ key :=
    hnodup.2.2 x.1 (List.mem_map_of_mem hx) key List.mem_cons_self
  simpa using hne.symm

theorem find?_eq_none_iff : c.find? key = none ↔ key ∉ c.entries.map Prod.fst := by
  rw [find?, List.lookup_eq_none_iff, List.mem_map]
  constructor
  · rintro h ⟨x, hx, rfl⟩
    simpa using h x hx
  · intro h x hx
    rw [bne_iff_ne]
    rintro rfl
    exact h ⟨x, hx, rfl⟩

/-! ## Making room -/

theorem firstToExpire_eq_none {entries : List (String × CacheEntry)}
    (h : firstToExpire entries = none) : entries = [] := by
  cases entries with
  | nil => rfl
  | cons x rest =>
    rw [firstToExpire] at h
    split at h
    · cases h
    · split at h <;> cases h

/-- No entry expires earlier than the one that is chosen. -/
theorem le_of_firstToExpire {entries : List (String × CacheEntry)} {first : String × CacheEntry}
    (h : firstToExpire entries = some first) :
    first ∈ entries ∧ ∀ x ∈ entries, first.2.expiresAt ≤ x.2.expiresAt := by
  induction entries generalizing first with
  | nil => cases h
  | cons x rest ih =>
    rw [firstToExpire] at h
    split at h
    · next hrest =>
      cases h
      rw [firstToExpire_eq_none hrest]
      exact ⟨List.mem_cons_self, fun y hy => by rw [List.mem_singleton.mp hy]⟩
    · next other hother =>
      obtain ⟨hmem, hle⟩ := ih hother
      split at h
      · next hlt =>
        cases h
        exact ⟨List.mem_cons_of_mem _ hmem, List.forall_mem_cons.mpr ⟨hlt.le, hle⟩⟩
      · next hnlt =>
        cases h
        have hfirst := Nat.le_of_not_lt hnlt
        exact ⟨List.mem_cons_self,
          List.forall_mem_cons.mpr ⟨Nat.le_refl _, fun y hy => hfirst.trans (hle y hy)⟩⟩

theorem live_length : (c.live now).length = (c.entries.filter (·.2.isLive now)).length :=
  List.length_map _

theorem Bounded.entries_drop (h : c.Bounded) {e : CacheEntry}
    {front back : List (String × CacheEntry)} (hentries : c.entries = front ++ (key, e) :: back) :
    (c.drop key).entries = front ++ back := by
  have hnodup := h.nodup_keys
  rw [hentries, List.map_append, List.map_cons, List.nodup_middle, List.nodup_cons,
    ← List.map_append] at hnodup
  have hkeep : (front ++ back).filter (·.1 != key) = front ++ back := by
    refine List.filter_eq_self.mpr fun x hx => bne_iff_ne.mpr fun hkey => hnodup.1 ?_
    exact List.mem_map.mpr ⟨x, hx, hkey⟩
  rw [List.filter_append] at hkeep
  change c.entries.filter (·.1 != key) = front ++ back
  rw [hentries, List.filter_append, List.filter_cons_of_neg (by simp), hkeep]

/-- A cache that is full of live entries has no others. -/
theorem Bounded.filter_live_eq (h : c.Bounded) (hlive : (c.live now).length = c.capacity) :
    c.entries.filter (·.2.isLive now) = c.entries := by
  rw [live_length] at hlive
  exact List.filter_sublist.eq_of_length_le (h.length_le.trans hlive.ge)

theorem Bounded.filter_live_lt (h : c.Bounded) (hlive : (c.live now).length ≠ c.capacity) :
    (c.entries.filter (·.2.isLive now)).length < c.capacity := by
  rw [live_length] at hlive
  exact Nat.lt_of_le_of_ne ((List.length_filter_le _ _).trans h.length_le) hlive

/-- In a cache full of live entries room is made by dropping one that expires first. -/
theorem Bounded.makeRoom_of_live (h : c.Bounded) (hlive : (c.live now).length = c.capacity) :
    ∃ front victim e back, c.entries = front ++ (victim, e) :: back ∧
      (∀ x ∈ c.entries, e.expiresAt ≤ x.2.expiresAt) ∧
      (c.makeRoom now).entries = front ++ back := by
  have hall := h.filter_live_eq hlive
  have hfull : ¬c.entries.length < c.capacity := by
    rw [← hall, ← live_length, hlive]
    exact Nat.lt_irrefl _
  rw [makeRoom, if_neg hfull, hall, if_neg hfull]
  cases hfirst : firstToExpire c.entries with
  | none =>
    rw [firstToExpire_eq_none hfirst] at hfull
    exact absurd h.capacity_pos hfull
  | some first =>
    obtain ⟨hmem, hle⟩ := le_of_firstToExpire hfirst
    obtain ⟨front, back, hentries⟩ := List.append_of_mem hmem
    exact ⟨front, first.1, first.2, back, hentries, hle, h.entries_drop hentries⟩

/-- In any other cache it is made by dropping expired entries. -/
theorem Bounded.makeRoom_of_not_live (h : c.Bounded) (hlive : (c.live now).length ≠ c.capacity) :
    (c.makeRoom now).entries.length < c.capacity ∧
      ∀ x ∈ c.entries, x.2.isLive now = true → x ∈ (c.makeRoom now).entries := by
  rw [makeRoom]
  split
  · next hlt => exact ⟨hlt, fun x hx _ => hx⟩
  · rw [if_pos (h.filter_live_lt hlive)]
    exact ⟨h.filter_live_lt hlive, fun x hx hxlive => List.mem_filter.mpr ⟨hx, hxlive⟩⟩

theorem makeRoom_capacity : (c.makeRoom now).capacity = c.capacity := by
  rw [makeRoom]
  split
  · rfl
  · dsimp only
    split
    · rfl
    · split <;> rfl

theorem makeRoom_sublist : (c.makeRoom now).entries.Sublist c.entries := by
  rw [makeRoom]
  split
  · exact List.Sublist.refl _
  · dsimp only
    split
    · exact List.filter_sublist
    · split
      · exact List.filter_sublist.trans List.filter_sublist
      · exact List.filter_sublist

theorem Bounded.length_makeRoom_lt (h : c.Bounded) :
    (c.makeRoom now).entries.length < c.capacity := by
  by_cases hlive : (c.live now).length = c.capacity
  · obtain ⟨front, victim, e, back, hentries, -, hroom⟩ := h.makeRoom_of_live hlive
    have hlength := h.length_le
    rw [hentries, List.length_append, List.length_cons] at hlength
    rw [hroom, List.length_append]
    omega
  · exact (h.makeRoom_of_not_live hlive).1

/-! ## Calls -/

variable {text : String} {life : Nat} {call : MemoryCall}

theorem get_snd (c : MemoryCache) (now : Nat) (key : String) :
    (c.get now key).2 = c ∨
      (c.get now key).2 = c.drop key ∧ c.contains now key = false := by
  rw [MemoryCache.get, contains]
  cases c.find? key with
  | none => exact Or.inl rfl
  | some e =>
    cases hlive : e.isLive now with
    | true => exact Or.inl (by simp [hlive])
    | false => exact Or.inr (by simp [hlive])

theorem get_fst_iff :
    (c.get now key).1 = some text ↔
      ∃ e, c.find? key = some e ∧ now < e.expiresAt ∧ e.text = text := by
  rw [MemoryCache.get]
  cases c.find? key with
  | none => simp
  | some e => by_cases hlive : now < e.expiresAt <;> simp [CacheEntry.isLive, hlive]

theorem contains_iff :
    c.contains now key = true ↔ ∃ e, c.find? key = some e ∧ now < e.expiresAt := by
  rw [contains]
  cases c.find? key <;> simp [CacheEntry.isLive]

theorem entries_write_of_stored (h : c.find? key ≠ none) :
    (c.write now key text life).entries =
      (c.drop key).entries ++ [(key, ⟨text, expiryAfter now life⟩)] := by
  rw [write, if_pos (Option.isSome_iff_ne_none.mpr h)]

theorem entries_write_of_new (h : c.find? key = none) :
    (c.write now key text life).entries =
      (c.makeRoom now).entries ++ [(key, ⟨text, expiryAfter now life⟩)] := by
  rw [write, h]
  rfl

theorem capacity_after : (call.after now c).capacity = c.capacity := by
  cases call with
  | get key =>
    rw [MemoryCall.after]
    rcases c.get_snd now key with h | ⟨h, -⟩ <;> rw [h]
    rfl
  | set key text life =>
    change (if (c.find? key).isSome then c.drop key else c.makeRoom now).capacity = c.capacity
    split
    · rfl
    · exact makeRoom_capacity
  | delete key => rfl
  | clear pattern => rfl

theorem Bounded.write (h : c.Bounded) : (c.write now key text life).Bounded := by
  have hcapacity : ((MemoryCall.set key text life).after now c).capacity = c.capacity :=
    capacity_after
  rw [MemoryCall.after] at hcapacity
  have hroom : ∃ entries : List (String × CacheEntry), entries.Sublist c.entries ∧
      entries.length < c.capacity ∧ key ∉ entries.map Prod.fst ∧
      (c.write now key text life).entries =
        entries ++ [(key, ⟨text, expiryAfter now life⟩)] := by
    cases hstored : c.find? key with
    | none =>
      refine ⟨_, makeRoom_sublist, h.length_makeRoom_lt, fun hmem => ?_,
        entries_write_of_new hstored⟩
      exact find?_eq_none_iff.mp hstored ((makeRoom_sublist.map Prod.fst).subset hmem)
    | some e =>
      obtain ⟨front, back, hentries⟩ := List.append_of_mem (mem_of_find? hstored)
      have hlength := h.length_le
      rw [hentries, List.length_append, List.length_cons] at hlength
      refine ⟨_, List.filter_sublist, ?_, find?_eq_none_iff.mp (find?_drop_self c key),
        entries_write_of_stored (by rw [hstored]; exact Option.some_ne_none e)⟩
      change (c.drop key).entries.length < c.capacity
      rw [h.entries_drop hentries, List.length_append]
      omega
  obtain ⟨entries, hsub, hlt, hnew, hentries⟩ := hroom
  refine ⟨hcapacity ▸ h.capacity_pos, ?_, ?_⟩
  · rw [hentries, hcapacity, List.length_append]
    exact hlt
  · rw [hentries, List.map_append, List.nodup_append]
    refine ⟨h.nodup_keys.sublist (hsub.map Prod.fst), List.nodup_singleton _, ?_⟩
    intro x hx y hy hxy
    obtain rfl : y = key := List.mem_singleton.mp hy
    exact hnew (hxy ▸ hx)

theorem Bounded.after (h : c.Bounded) : (call.after now c).Bounded := by
  cases call with
  | get key =>
    rw [MemoryCall.after]
    rcases c.get_snd now key with hget | ⟨hget, -⟩ <;> rw [hget]
    · exact h
    · exact h.of_sublist List.filter_sublist
  | set key text life => exact h.write
  | delete key => exact h.of_sublist List.filter_sublist
  | clear pattern => exact h.of_sublist List.filter_sublist

/-- An untouched key gets no new entry. -/
theorem mem_of_mem_after (htouches : ¬call.Touches key) {e : CacheEntry}
    (h : (key, e) ∈ (call.after now c).entries) : (key, e) ∈ c.entries := by
  cases call with
  | get other => exact mem_of_mem_get h
  | set other text life =>
    rcases mem_of_mem_write h with heq | ⟨hmem, -⟩
    · exact absurd (congrArg Prod.fst heq).symm htouches
    · exact hmem
  | delete other => exact (ne_of_mem_drop h).1
  | clear pattern => exact (List.mem_filter.mp h).1

theorem Bounded.find?_after (h : c.Bounded) (htouches : ¬call.Touches key) {e : CacheEntry}
    (hafter : find? key (call.after now c) = some e) : c.find? key = some e :=
  h.find?_eq_some_iff.mpr (mem_of_mem_after htouches (h.after.find?_eq_some_iff.mp hafter))

/-! ## Evictions -/

/-- Only the write of a new key into a cache full of live entries evicts. -/
theorem Bounded.evicts_only (h : c.Bounded) (hevicts : call.Evicts now c key) :
    ∃ other text life, call = .set other text life ∧ c.find? other = none ∧
      (c.live now).length = c.capacity := by
  obtain ⟨htouches, hcontains, hgone⟩ := hevicts
  obtain ⟨e, hstored, hlive⟩ := contains_iff.mp hcontains
  have hmem := mem_of_find? hstored
  have hdropped : (key, e) ∉ (call.after now c).entries := fun hkept =>
    find?_eq_none_iff.mp hgone (List.mem_map_of_mem hkept)
  cases call with
  | get other =>
    refine absurd ?_ hdropped
    rw [MemoryCall.after]
    rcases c.get_snd now other with hget | ⟨hget, hexpired⟩ <;> rw [hget]
    · exact hmem
    · refine List.mem_filter.mpr ⟨hmem, bne_iff_ne.mpr ?_⟩
      rintro rfl
      rw [hcontains] at hexpired
      cases hexpired
  | delete other =>
    refine absurd (List.mem_filter.mpr ⟨hmem, ?_⟩) hdropped
    exact bne_iff_ne.mpr (Ne.symm htouches)
  | clear pattern =>
    refine absurd (List.mem_filter.mpr ⟨hmem, ?_⟩) hdropped
    simpa [MemoryCall.Touches] using htouches
  | set other text life =>
    rw [MemoryCall.after] at hdropped
    cases hother : c.find? other with
    | some old =>
      rw [entries_write_of_stored (by rw [hother]; exact Option.some_ne_none old)] at hdropped
      refine absurd (List.mem_append_left _ (List.mem_filter.mpr ⟨hmem, ?_⟩)) hdropped
      exact bne_iff_ne.mpr (Ne.symm htouches)
    | none =>
      refine ⟨other, text, life, rfl, hother, by_contra fun hfull => hdropped ?_⟩
      rw [entries_write_of_new hother]
      refine List.mem_append_left _ ((h.makeRoom_of_not_live hfull).2 _ hmem ?_)
      simpa [CacheEntry.isLive] using hlive

/-- Such a write displaces one entry. -/
theorem Bounded.exists_displaces (h : c.Bounded) {other : String} (hnew : c.find? other = none)
    (hfull : (c.live now).length = c.capacity) (text : String) (life : Nat) :
    ∃ victim, MemoryCall.Displaces now c (.set other text life) victim ∧
      ∀ key, MemoryCall.Evicts now c (.set other text life) key ↔ key = victim := by
  obtain ⟨front, victim, e, back, hentries, hle, hroom⟩ := h.makeRoom_of_live hfull
  have hafter : (c.write now other text life).entries =
      front ++ back ++ [(other, ⟨text, expiryAfter now life⟩)] := by
    rw [entries_write_of_new hnew, hroom]
  refine ⟨victim, ⟨other, text, life, front, e, back, rfl, hnew, hfull, hentries, hle, hafter⟩,
    fun key => ⟨fun hevicts => ?_, ?_⟩⟩
  · obtain ⟨htouches, hcontains, hgone⟩ := hevicts
    obtain ⟨kept, hstored, -⟩ := contains_iff.mp hcontains
    have hmem := mem_of_find? hstored
    have hdropped : (key, kept) ∉ front ++ back := fun hkept => by
      refine find?_eq_none_iff.mp hgone (List.mem_map.mpr ⟨(key, kept), ?_, rfl⟩)
      rw [MemoryCall.after, hafter]
      exact List.mem_append_left _ hkept
    rw [hentries, List.mem_append, List.mem_cons] at hmem
    rw [List.mem_append, not_or] at hdropped
    rcases hmem with hmem | heq | hmem
    · exact absurd hmem hdropped.1
    · exact congrArg Prod.fst heq
    · exact absurd hmem hdropped.2
  · rintro rfl
    have hmem : (key, e) ∈ c.entries := by
      rw [hentries]
      exact List.mem_append_right _ List.mem_cons_self
    have hne : other ≠ key := by
      rintro rfl
      exact find?_eq_none_iff.mp hnew (List.mem_map_of_mem hmem)
    refine ⟨hne, contains_iff.mpr ⟨e, h.find?_eq_some_iff.mpr hmem, ?_⟩,
      find?_eq_none_iff.mpr ?_⟩
    · rw [← h.filter_live_eq hfull] at hmem
      simpa [CacheEntry.isLive] using (List.mem_filter.mp hmem).2
    · have hnodup := h.nodup_keys
      rw [hentries, List.map_append, List.map_cons, List.nodup_middle, List.nodup_cons,
        ← List.map_append] at hnodup
      rw [MemoryCall.after, hafter, List.map_append, List.mem_append, not_or]
      exact ⟨hnodup.1, fun hmem => hne (List.mem_singleton.mp hmem).symm⟩

theorem Bounded.displaces_of_evicts (h : c.Bounded) (hevicts : call.Evicts now c key) :
    call.Displaces now c key := by
  obtain ⟨other, text, life, rfl, hnew, hfull⟩ := h.evicts_only hevicts
  obtain ⟨victim, hdisplaces, honly⟩ := h.exists_displaces hnew hfull text life
  rwa [(honly key).mp hevicts]

/-! ## Rows of calls -/

variable {calls later : List (Nat × MemoryCall)}

theorem run_append (c : MemoryCache) (calls later : List (Nat × MemoryCall)) :
    c.run (calls ++ later) = (c.run calls).run later :=
  List.foldl_append

theorem spares_append :
    Spares key c (calls ++ later) ↔ Spares key c calls ∧ Spares key (c.run calls) later := by
  induction calls generalizing c with
  | nil => simp [Spares, run]
  | cons x calls ih =>
    rw [List.cons_append, Spares, Spares, ih, and_assoc, and_assoc]
    rfl

theorem Bounded.afterAll (h : c.Bounded) : (c.run calls).Bounded := by
  induction calls generalizing c with
  | nil => exact h
  | cons x calls ih => exact ih h.after

theorem capacity_run : (c.run calls).capacity = c.capacity := by
  induction calls generalizing c with
  | nil => rfl
  | cons x calls ih => exact (ih (c := x.2.after x.1 c)).trans capacity_after

/-- What is stored was written by a call after which the key was spared. -/
theorem Bounded.exists_write_of_find? (h : c.Bounded) (hempty : c.entries = []) {e : CacheEntry}
    (hstored : find? key (c.run calls) = some e) :
    ∃ before t life after, calls = before ++ (t, .set key e.text life) :: after ∧
      e.expiresAt = expiryAfter t life ∧
      Spares key (c.run (before ++ [(t, .set key e.text life)])) after := by
  induction calls using List.reverseRecOn generalizing e with
  | nil =>
    have hmem := mem_of_find? hstored
    rw [run, List.foldl_nil, hempty] at hmem
    cases hmem
  | append_singleton calls x ih =>
    obtain ⟨now, call⟩ := x
    rw [run_append] at hstored
    change find? key (call.after now (c.run calls)) = some e at hstored
    by_cases htouches : call.Touches key
    · cases call with
      | get other => cases htouches
      | set other text life =>
        obtain rfl : other = key := htouches
        rw [MemoryCall.after, find?_write_self] at hstored
        cases hstored
        exact ⟨calls, now, life, [], rfl, rfl, trivial⟩
      | delete other =>
        obtain rfl : other = key := htouches
        rw [MemoryCall.after, MemoryCache.delete, find?_drop_self] at hstored
        cases hstored
      | clear pattern =>
        have hmatches : Glob.isMatch pattern key = true := htouches
        rw [MemoryCall.after, find?_clear, if_pos hmatches] at hstored
        cases hstored
    · obtain ⟨before, t, life, after, rfl, hexpires, hspares⟩ :=
        ih (h.afterAll.find?_after htouches hstored)
      refine ⟨before, t, life, after ++ [(now, call)], by simp, hexpires, ?_⟩
      refine spares_append.mpr ⟨hspares, htouches, fun hevicts => ?_, trivial⟩
      rw [← run_append, List.append_assoc, List.singleton_append] at hevicts
      rw [hevicts.2.2] at hstored
      cases hstored

/-- A spared entry stays until it expires. -/
theorem Bounded.find?_run_of_spares (h : c.Bounded) {e : CacheEntry}
    (hstored : c.find? key = some e) (hspares : Spares key c calls)
    (hlive : ∀ x ∈ calls, x.1 < e.expiresAt) : find? key (c.run calls) = some e := by
  induction calls generalizing c with
  | nil => exact hstored
  | cons x calls ih =>
    obtain ⟨htouches, hevicts, hspares⟩ := hspares
    rw [List.forall_mem_cons] at hlive
    refine ih h.after ?_ hspares hlive.2
    cases hafter : find? key (x.2.after x.1 c) with
    | none =>
      exact absurd ⟨htouches, contains_iff.mpr ⟨e, hstored, hlive.1⟩, hafter⟩ hevicts
    | some kept => rw [← h.find?_after htouches hafter, hstored]

/-- The cache in memory is a bounded map of entries that expire. After any row of calls there are
not more entries than the cache is for. At a time that no call was later than, a key is answered
with a text if and only if that was the last one written under it, its time to live has not
elapsed, and the key was not deleted, cleared or evicted since. A call evicts if and only if it
writes a key that is not stored into a cache full of live entries, and it then displaces one. -/
theorem run_empty_bounded_timed (capacity : Nat) (calls : List (Nat × MemoryCall))
    (hfits : ∀ t key text life, (t, MemoryCall.set key text life) ∈ calls → t + life < timeLimit) :
    ((empty capacity).run calls).capacity = max capacity 1 ∧
    ((empty capacity).run calls).entries.length ≤ max capacity 1 ∧
    (∀ now, (∀ x ∈ calls, x.1 ≤ now) → ∀ key text,
      (((empty capacity).run calls).get now key).1 = some text ↔
        ∃ before t life after, calls = before ++ (t, .set key text life) :: after ∧
          now < t + life ∧
          Spares key ((empty capacity).run (before ++ [(t, .set key text life)])) after) ∧
    (∀ now (call : MemoryCall), (∀ key, call.Evicts now ((empty capacity).run calls) key →
        call.Displaces now ((empty capacity).run calls) key) ∧
      ((∃ key, call.Evicts now ((empty capacity).run calls) key) ↔
        ∃ key text life, call = .set key text life ∧
          find? key ((empty capacity).run calls) = none ∧
          (((empty capacity).run calls).live now).length = max capacity 1)) := by
  have hstart := bounded_empty capacity
  have hcapacity : ((empty capacity).run calls).capacity = max capacity 1 := capacity_run
  refine ⟨hcapacity, hcapacity ▸ hstart.afterAll.length_le, fun now hpast key text => ?_,
    fun now call => ⟨fun key => hstart.afterAll.displaces_of_evicts, ?_, ?_⟩⟩
  · rw [get_fst_iff]
    constructor
    · rintro ⟨e, hstored, hlive, rfl⟩
      obtain ⟨before, t, life, after, rfl, hexpires, hspares⟩ :=
        hstart.exists_write_of_find? rfl hstored
      refine ⟨before, t, life, after, rfl, ?_, hspares⟩
      rwa [hexpires, expiryAfter, if_pos (hfits t key e.text life (by simp))] at hlive
    · rintro ⟨before, t, life, after, rfl, hlive, hspares⟩
      have hexpires : expiryAfter t life = t + life :=
        if_pos (hfits t key text life (by simp))
      refine ⟨⟨text, expiryAfter t life⟩, ?_, hexpires ▸ hlive, rfl⟩
      rw [List.append_cons, run_append]
      have hbefore : ((empty capacity).run (before ++ [(t, .set key text life)])).Bounded :=
        hstart.afterAll
      refine hbefore.find?_run_of_spares ?_ hspares fun x hx => ?_
      · rw [run_append]
        exact find?_write_self _ t key text life
      · rw [hexpires]
        exact (hpast x (by simp [hx])).trans_lt hlive
  · rintro ⟨key, hevicts⟩
    rw [← hcapacity]
    exact hstart.afterAll.evicts_only hevicts
  · rintro ⟨key, text, life, rfl, hnew, hfull⟩
    rw [← hcapacity] at hfull
    obtain ⟨victim, -, honly⟩ := hstart.afterAll.exists_displaces hnew hfull text life
    exact ⟨victim, (honly victim).mpr rfl⟩

/-- Two keys in turn, for a cache of one entry. -/
def twoKeys : List (Nat × MemoryCall) := [(0, .set "a" "x" 5), (1, .set "b" "y" 4), (2, .get "a")]

theorem run_empty_bounded_timed_twoKeys :
    (∀ t key text life, (t, MemoryCall.set key text life) ∈ twoKeys → t + life < timeLimit) ∧
    (∀ x ∈ twoKeys, x.1 ≤ 4) ∧ (((empty 1).run twoKeys).get 4 "b").1 = some "y" ∧
    ∃ key, MemoryCall.Evicts 4 ((empty 1).run twoKeys) (.set "a" "z" 1) key := by
  have hlimit : 5 < timeLimit := by decide +kernel
  have hfits : ∀ t key text life, (t, MemoryCall.set key text life) ∈ twoKeys →
      t + life < timeLimit := by
    intro t key text life hmem
    have hlife : t + life = 5 := by
      simp only [twoKeys, List.mem_cons, Prod.mk.injEq, MemoryCall.set.injEq, List.not_mem_nil,
        reduceCtorEq, and_false, or_false] at hmem
      rcases hmem with ⟨rfl, -, -, rfl⟩ | ⟨rfl, -, -, rfl⟩ <;> rfl
    rwa [hlife]
  have hpast : ∀ x ∈ twoKeys, x.1 ≤ 4 := by simp [twoKeys]
  obtain ⟨-, -, hget, hevicts⟩ := run_empty_bounded_timed 1 twoKeys hfits
  refine ⟨hfits, hpast, (hget 4 hpast "b" "y").mpr ?_, (hevicts 4 _).2.mpr ?_⟩
  · refine ⟨[(0, .set "a" "x" 5)], 1, 4, [(2, .get "a")], rfl, by decide, not_false, ?_, trivial⟩
    exact fun h => absurd h.2.2 (by decide +kernel)
  · exact ⟨_, _, _, rfl, by decide +kernel, by decide +kernel⟩

end MemoryCache

end Quire
