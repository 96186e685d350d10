import Quire.Proofs.CachedRuns
import Quire.Proofs.KeptEntries
import Quire.Proofs.ResultTexts

/-!
# Freshness of lists

Whatever operations are made through a cached repository, a list that it returns is the list that
paging gives over the present collection. The invariant is that a kept list under the present
version, or a later one, was computed from the present collection.
-/
namespace Quire

/-- Lists in some modes, and writes of documents with whole numbers, until the version has come to
its end. -/
def Scope.ofModes (modes : ListMode → Prop) : Scope where
  ids _ := True
  modes
  parts := Value.isWhole64
  bulk := True
  versions := ListVersion.HasNext

instance (modes : ListMode → Prop) (version : Nat) :
    Decidable ((Scope.ofModes modes).versions version) :=
  inferInstanceAs (Decidable (ListVersion.HasNext version))

namespace Collection

theorem Sound.plainDocuments {c : Collection} (h : c.Sound Value.isWhole64)
    {settings : PagingSettings} {mode : ListMode} {r : ListResult}
    (hr : c.listed settings mode = .ok r) : PlainDocuments r.docs := by
  intro d hd
  have hd' := h.listed Value.storable_isWhole64 hr d hd
  exact ⟨hd'.every, hd'.ordered⟩

end Collection

/-- A condition on the texts that are kept for lists in some modes, under any version. -/
abbrev ListsKept {κ : Type} (p : CachePlugin κ) (modes : ListMode → Prop)
    (Holds : κ → CacheMemory → Prop) : (Nat × ListMode → String → Prop) → κ → Prop :=
  KeptUnder Holds (fun l => p.keys.list l.1 l.2) fun l => modes l.2

namespace ListsKept

variable {κ : Type} {p : CachePlugin κ} {modes : ListMode → Prop} {Holds : κ → CacheMemory → Prop}
  {P : Nat × ListMode → String → Prop} {k : κ}

/-- A text under a key of another kind is no list. -/
theorem set_other (hadapter : p.adapter.Remembers Holds) {key : String}
    (hkey : ∀ v mode, key ≠ p.keys.list v mode) (text : String) (ttl : Nat)
    (h : ListsKept p modes Holds P k) :
    ListsKept p modes Holds P (p.adapter.afterSet key text ttl k) :=
  KeptUnder.set_other hadapter (fun l _ => hkey l.1 l.2) text ttl h

theorem set_list (hadapter : p.adapter.Remembers Holds)
    (hmodes : ∀ mode other, modes mode → modes other →
      fingerprint mode.toValue = fingerprint other.toValue → mode = other)
    {v : Nat} {mode : ListMode} (hmode : modes mode) {text : String} (htext : P (v, mode) text)
    (ttl : Nat) (h : ListsKept p modes Holds P k) :
    ListsKept p modes Holds P (p.adapter.afterSet (p.keys.list v mode) text ttl k) := by
  refine KeptUnder.set_own hadapter (i := (v, mode)) (fun l hl hkey => ?_) ttl h
  obtain ⟨hversion, hprint⟩ := p.keys.eq_of_list hkey
  have hl' : l = (v, mode) := Prod.ext hversion (hmodes _ _ hl hmode hprint)
  exact hl' ▸ htext

end ListsKept

namespace CachedStore

variable {κ : Type}

/-- Kept lists are fresh: a memory that the adapter does not exceed has lists under the present
version only from the present collection, and none under later versions. -/
structure ListsFresh (p : CachePlugin κ) (settings : PagingSettings) (modes : ListMode → Prop)
    (Holds : κ → CacheMemory → Prop) (x : Snapshot κ) : Prop where
  sound : x.collection.Sound Value.isWhole64
  exists_memory : ∃ m, Holds x.adapter m ∧ ∀ v mode text, x.version ≤ v → modes mode →
    m (p.keys.list v mode) = some text →
      v = x.version ∧ ∃ r, x.collection.listed settings mode = .ok r ∧ text = r.toValue.text

namespace ListsFresh

variable {p : CachePlugin κ} {settings : PagingSettings} {modes : ListMode → Prop}
  {Holds : κ → CacheMemory → Prop} {c : Collection} {v : Nat} {k : κ}

/-- What is required of the text of a list. -/
def Current (settings : PagingSettings) (c : Collection) (v : Nat) (l : Nat × ListMode)
    (text : String) : Prop :=
  v ≤ l.1 → l.1 = v ∧ ∃ r, c.listed settings l.2 = .ok r ∧ text = r.toValue.text

theorem iff_listsKept : ListsFresh p settings modes Holds ⟨c, v, k⟩ ↔
    c.Sound Value.isWhole64 ∧ ListsKept p modes Holds (Current settings c v) k := by
  constructor
  · rintro ⟨hsound, m, hm, hfresh⟩
    exact ⟨hsound, m, hm, fun l text hmode hget hle => hfresh l.1 l.2 text hle hmode hget⟩
  · rintro ⟨hsound, m, hm, hkept⟩
    exact ⟨hsound, m, hm, fun v' mode text hle hmode hget => hkept (v', mode) text hmode hget hle⟩

theorem lose {k' : κ} (hk : ∀ m, Holds k m → Holds k' m)
    (h : ListsFresh p settings modes Holds ⟨c, v, k⟩) :
    ListsFresh p settings modes Holds ⟨c, v, k'⟩ := by
  obtain ⟨hsound, hkept⟩ := iff_listsKept.mp h
  exact iff_listsKept.mpr ⟨hsound, hkept.lose hk⟩

/-- A text under a key of another kind is no list. -/
theorem set_other (hadapter : p.adapter.Remembers Holds) {key : String}
    (hkey : ∀ v mode, key ≠ p.keys.list v mode) (text : String) (ttl : Nat)
    (h : ListsFresh p settings modes Holds ⟨c, v, k⟩) :
    ListsFresh p settings modes Holds ⟨c, v, p.adapter.afterSet key text ttl k⟩ := by
  obtain ⟨hsound, hkept⟩ := iff_listsKept.mp h
  exact iff_listsKept.mpr ⟨hsound, hkept.set_other hadapter hkey text ttl⟩

/-- A list that paging gives now is fresh under the present version. -/
theorem set_list (hadapter : p.adapter.Remembers Holds)
    (hmodes : ∀ mode other, modes mode → modes other →
      fingerprint mode.toValue = fingerprint other.toValue → mode = other)
    {mode : ListMode} (hmode : modes mode) {r : ListResult}
    (hr : c.listed settings mode = .ok r) (ttl : Nat)
    (h : ListsFresh p settings modes Holds ⟨c, v, k⟩) :
    ListsFresh p settings modes Holds
      ⟨c, v, p.adapter.afterSet (p.keys.list v mode) r.toValue.text ttl k⟩ := by
  obtain ⟨hsound, hkept⟩ := iff_listsKept.mp h
  exact iff_listsKept.mpr
    ⟨hsound, hkept.set_list hadapter hmodes hmode (fun _ => ⟨rfl, r, hr, rfl⟩) ttl⟩

/-- Under a later version nothing is kept, so the collection may have changed. -/
theorem advance {c' : Collection} (hsound : c'.Sound Value.isWhole64) {v' : Nat} (hlt : v < v')
    (h : ListsFresh p settings modes Holds ⟨c, v, k⟩) :
    ListsFresh p settings modes Holds ⟨c', v', k⟩ := by
  obtain ⟨m, hm, hfresh⟩ := h.exists_memory
  refine ⟨hsound, m, hm, fun v'' mode text hle hmode hget => ?_⟩
  obtain ⟨rfl, -⟩ := hfresh v'' mode text (hlt.le.trans hle) hmode hget
  exact absurd hle (Nat.not_le_of_lt hlt)

/-- The version may be taken over from elsewhere if it does not fall. -/
theorem resume {v' : Nat} (hle : v ≤ v') (h : ListsFresh p settings modes Holds ⟨c, v, k⟩) :
    ListsFresh p settings modes Holds ⟨c, v', k⟩ := by
  rcases hle.eq_or_lt with rfl | hlt
  · exact h
  · exact h.advance h.sound hlt

theorem raise {c' : Collection} (hsound : c'.Sound Value.isWhole64) (hv : ListVersion.HasNext v)
    (h : ListsFresh p settings modes Holds ⟨c, v, k⟩) :
    ListsFresh p settings modes Holds ⟨c', ListVersion.next v, k⟩ := by
  rw [ListVersion.next_of_hasNext hv]
  exact h.advance hsound (Nat.lt_succ_self v)

/-- Every effect keeps lists fresh. -/
theorem effect (hadapter : p.adapter.Remembers Holds)
    (hmodes : ∀ mode other, modes mode → modes other →
      fingerprint mode.toValue = fingerprint other.toValue → mode = other)
    {x y : Snapshot κ} (hxy : Effect p settings (.ofModes modes) x y)
    (h : ListsFresh p settings modes Holds x) : ListsFresh p settings modes Holds y := by
  have hq : Value.Storable Value.isWhole64 := Value.storable_isWhole64
  cases hxy with
  | look c v k key => exact h.lose fun m hm => hadapter.get hm key
  | keepDocument c v k ttl hid hd =>
    exact h.set_other hadapter (fun v mode => p.keys.byId_ne_list _ v mode) _ _
  | keepQuery c v k f o text ttl =>
    exact h.set_other hadapter (fun v mode => p.keys.byQuery_ne_list f o v mode) _ _
  | keepList c v k ttl hmode hr => exact h.set_list hadapter hmodes hmode hr ttl
  | persist c v k text ttl =>
    exact h.set_other hadapter (fun v mode => p.keys.version_ne_list v mode) _ _
  | drop c v k id => exact h.lose fun m hm => hadapter.delete hm _
  | clear c v k => exact h.lose fun m hm => hadapter.clear hm _
  | resume c v k hle => exact h.resume hle
  | raise c v k hv => exact h.raise h.sound hv
  | insert c v k hv hds => exact h.raise (h.sound.append hds) hv
  | update c v k hv hid hpatch =>
    exact (h.lose fun m hm => hadapter.delete hm _).raise (h.sound.updateOne hq hpatch _) hv
  | updateMany c v k hv f hbulk hpatch => exact h.raise (h.sound.updateMany hq hpatch f) hv
  | delete c v k hv hid =>
    exact (h.lose fun m hm => hadapter.delete hm _).raise (h.sound.deleteOne _) hv
  | deleteMany c v k hv f hbulk => exact h.raise (h.sound.deleteMany f) hv

/-- Where the adapter holds nothing of the collection, lists are fresh when caching starts. -/
theorem attach (hadapter : p.adapter.Remembers Holds) {w : CachedStore κ}
    (hsound : w.collection.Sound Value.isWhole64) {m : CacheMemory} (hm : Holds k m)
    (hnone : ∀ rest, m (p.keys.stem ++ rest) = none) (timestamps publish : Bool) (start : Nat) :
    ListsFresh p settings modes Holds
      (CachedStore.attach p settings timestamps publish start k w).snapshot := by
  rw [snapshot_attach]
  refine ⟨hsound, m, hadapter.get hm _, fun v mode text _ _ hget => ?_⟩
  rw [p.keys.list_eq, hnone] at hget
  cases hget

end ListsFresh

variable {p : CachePlugin κ} {settings : PagingSettings} {timestamps : Bool}
  {modes : ListMode → Prop} {Holds : κ → CacheMemory → Prop}

theorem eq_of_servedList? {mode : ListMode} {q r : ListResult}
    (h : Repository.servedList? mode (some (.list q)) = some r) : r = q := by
  cases q <;> cases mode <;> first | exact (Option.some.inj h).symm | cases h

/-- Where kept lists are fresh, a list is returned as paging gives it. -/
theorem getAll_eq_of_listsFresh (henabled : p.settings.enabled = true)
    (hadapter : p.adapter.Remembers Holds) {w : CachedStore κ}
    (h : ListsFresh p settings modes Holds w.snapshot) {request : ListRequest}
    (hmode : modes request.mode) :
    (((repository p settings timestamps).getAll request).runOn w).1 =
      w.collection.listed settings request.mode := by
  have houtcome := getAll_outcome p settings timestamps henabled request w
  generalize ((repository p settings timestamps).getAll request).runOn w = run at houtcome ⊢
  cases houtcome with
  | bypassed => rfl
  | found => rfl
  | kept _ hresult => exact hresult.symm
  | served hsource hreply hread hpick =>
    obtain ⟨rfl, rfl⟩ := CachePlugin.eq_of_source?_getAll hsource
    obtain ⟨m, hm, hfresh⟩ := h.exists_memory
    obtain ⟨-, r, hr, rfl⟩ := hfresh _ _ _ (Nat.le_refl _) hmode (hadapter.reply hm hreply)
    obtain ⟨q, hq, rfl⟩ := Option.map_eq_some_iff.mp hread
    have hqr : q = r := ListResult.eq_of_ofText? (h.sound.plainDocuments hr) hq
    rw [eq_of_servedList? hpick, hqr]
    exact hr.symm

/-- In every run of a cached repository, a list is returned exactly as paging gives it over the
present collection. -/
theorem getAll_eq_listed (henabled : p.settings.enabled = true)
    (hadapter : p.adapter.Remembers Holds)
    (hmodes : ∀ mode other, modes mode → modes other →
      fingerprint mode.toValue = fingerprint other.toValue → mode = other)
    {start w : CachedStore κ} {k : κ} {m : CacheMemory}
    (hsound : start.collection.Sound Value.isWhole64) (hm : Holds k m)
    (hnone : ∀ rest, m (p.keys.stem ++ rest) = none) {publish : Bool} {version : Nat}
    (hrun : Run p settings timestamps (.ofModes modes) Holds
      (attach p settings timestamps publish version k start) w)
    {request : ListRequest} (hmode : modes request.mode) :
    (((repository p settings timestamps).getAll request).runOn w).1 =
      w.collection.listed settings request.mode := by
  have hfresh : ListsFresh p settings modes Holds w.snapshot :=
    hrun.keeps henabled Value.storable_isWhole64 (fun hxy hx => hx.effect hadapter hmodes hxy)
      (fun hk hx => hx.lose hk) (.attach hadapter hsound hm hnone timestamps publish version)
  exact getAll_eq_of_listsFresh henabled hadapter hfresh hmode

/-- The first page of rows, and the second one. -/
def rowPages (mode : ListMode) : Prop :=
  mode = .offset { limit := some 1 } ∨ mode = .offset { limit := some 1, page := some 2 }

/-- A row and a list of it, all of which the cache loses. -/
def rowsLost : CachedStore TickingCache :=
  let listed := afterOp (.getAll { mode := .offset { limit := some 1 } })
    (afterOp (.create [("id", .int 1), ("n", .int 5)]) noRows)
  { listed with cache := { listed.cache with adapter := .empty 100 } }

/-- Then another row, and lists of both pages. -/
def rowsListed : CachedStore TickingCache :=
  afterOp (.getAll { mode := .offset { limit := some 1, page := some 2 } })
    (afterOp (.create [("id", .int 2), ("n", .int 7)]) rowsLost)

/-- Then caching starts anew. -/
def rowsRestarted : CachedStore TickingCache :=
  attach rowsCache rowsPaging false true 0 rowsListed.cache.adapter rowsListed

/-- The two pages have different fingerprints. -/
theorem eq_of_fingerprint_rowPages (mode other : ListMode) (hmode : rowPages mode)
    (hother : rowPages other) (h : fingerprint mode.toValue = fingerprint other.toValue) :
    mode = other := by
  have hdifferent : fingerprint (ListMode.offset { limit := some 1 }).toValue ≠
      fingerprint (ListMode.offset { limit := some 1, page := some 2 }).toValue := by
    decide +kernel
  rcases hmode with rfl | rfl <;> rcases hother with rfl | rfl
  · rfl
  · exact absurd h hdifferent
  · exact absurd h.symm hdifferent
  · rfl

theorem run_rowsRestarted :
    Run rowsCache rowsPaging false (.ofModes rowPages) TickingCache.Holds noRows
      rowsRestarted := by
  have hfirst : Document.Sound Value.isWhole64 [("id", .int 1), ("n", .int 5)] := by decide +kernel
  have hsecond : Document.Sound Value.isWhole64 [("id", .int 2), ("n", .int 7)] := by
    decide +kernel
  have hcreated : Run rowsCache rowsPaging false (.ofModes rowPages) TickingCache.Holds noRows
      (afterOp (.create [("id", .int 1), ("n", .int 5)]) noRows) :=
    .single (.perform noRows _ hfirst (by decide +kernel))
  have hlisted := hcreated.tail (.perform _ (.getAll { mode := .offset { limit := some 1 } })
    (Or.inl rfl) (by decide +kernel))
  have hlost := hlisted.tail (.lose _ (k := .empty 100) fun _ _ e he => by cases he)
  have hmore := hlost.tail (.perform _ (.create [("id", .int 2), ("n", .int 7)]) hsecond
    (by decide +kernel))
  have hpages := hmore.tail (.perform _
    (.getAll { mode := .offset { limit := some 1, page := some 2 } }) (Or.inr rfl)
    (by decide +kernel))
  exact hpages.tail (.restart rowsListed true 0 (by decide +kernel))

/-- After all this the second page, which the cache still holds. -/
theorem getAll_eq_listed_rowsRestarted :
    (((repository rowsCache rowsPaging false).getAll
        { mode := .offset { limit := some 1, page := some 2 } }).runOn rowsRestarted).1 =
      rowsRestarted.collection.listed rowsPaging (.offset { limit := some 1, page := some 2 }) := by
  have hnothing : TickingCache.Holds (.empty 100) fun _ => none := fun e he => by cases he
  exact getAll_eq_listed rfl TickingCache.remembersUndeleted.toRemembers
    eq_of_fingerprint_rowPages (by decide +kernel) hnothing (fun _ => rfl) run_rowsRestarted
    (Or.inr rfl)

end CachedStore
end Quire
