import Quire.Proofs.CachedRuns
import Quire.Proofs.KeptEntries
import Quire.Proofs.ResultTexts

/-!
# Freshness of documents

A document that a cached repository returns for an identifier is the one that the store finds now.
The key of a document carries no version, so the invariant is that every document kept under the
key of an identifier is the one that the store finds for it, and a write drops the one entry that
it makes stale.
-/
namespace Quire

/-- Reads and writes by some identifiers, with documents of signed whole numbers. Writes to several
documents at once, which drop no entries, are left out. -/
def Scope.ofIds (ids : DocumentId → Prop) : Scope where
  ids
  modes _ := True
  parts := Value.isSigned64
  bulk := False
  versions _ := True

/-- Identifiers that can be told apart by their keys. -/
structure DistinctIds (ids : DocumentId → Prop) : Prop where
  signed : ∀ id, ids id → id.toValue.Signed
  display : ∀ id other, ids id → ids other → id.display = other.display → id = other

namespace CachedStore

variable {κ : Type}

/-- Kept documents are fresh: a memory that the adapter does not exceed has for an identifier only
the text of the document that the store finds now. -/
structure DocumentsFresh (p : CachePlugin κ) (settings : PagingSettings) (ids : DocumentId → Prop)
    (Holds : κ → CacheMemory → Prop) (x : Snapshot κ) : Prop where
  sound : x.collection.Sound Value.isSigned64
  idField_eq : x.collection.idField = settings.idField
  exists_memory : ∃ m, Holds x.adapter m ∧ ∀ id text, ids id → m (p.keys.byId id) = some text →
    ∃ d, x.collection.selectOne { filter := .byId settings.idField id } = some d ∧
      text = (Value.obj d).text

namespace DocumentsFresh

variable {p : CachePlugin κ} {settings : PagingSettings} {ids : DocumentId → Prop}
  {Holds : κ → CacheMemory → Prop} {c : Collection} {v : Nat} {k : κ}

/-- The text is that of the document that the store finds now. -/
def IsFound (settings : PagingSettings) (c : Collection) (id : DocumentId) (text : String) : Prop :=
  ∃ d, c.selectOne { filter := .byId settings.idField id } = some d ∧ text = (Value.obj d).text

theorem kept (h : DocumentsFresh p settings ids Holds ⟨c, v, k⟩) :
    KeptUnder Holds p.keys.byId ids (IsFound settings c) k := h.exists_memory

theorem lose {v' : Nat} {k' : κ} (hk : ∀ m, Holds k m → Holds k' m)
    (h : DocumentsFresh p settings ids Holds ⟨c, v, k⟩) :
    DocumentsFresh p settings ids Holds ⟨c, v', k'⟩ :=
  ⟨h.sound, h.idField_eq, h.kept.lose hk⟩

/-- A text under a key of another kind is no document of an identifier. -/
theorem set_other (hadapter : p.adapter.Remembers Holds) {key : String}
    (hkey : ∀ id, key ≠ p.keys.byId id) (text : String) (ttl : Nat)
    (h : DocumentsFresh p settings ids Holds ⟨c, v, k⟩) :
    DocumentsFresh p settings ids Holds ⟨c, v, p.adapter.afterSet key text ttl k⟩ :=
  ⟨h.sound, h.idField_eq, h.kept.set_other hadapter (fun id _ => hkey id) text ttl⟩

/-- The document that the store finds now is fresh. -/
theorem set_document (hadapter : p.adapter.Remembers Holds) (hids : DistinctIds ids)
    {id : DocumentId} (hid : ids id) {d : Document}
    (hd : c.selectOne { filter := .byId settings.idField id } = some d) (ttl : Nat)
    (h : DocumentsFresh p settings ids Holds ⟨c, v, k⟩) :
    DocumentsFresh p settings ids Holds
      ⟨c, v, p.adapter.afterSet (p.keys.byId id) (Value.obj d).text ttl k⟩ := by
  have hown : ∀ other, ids other → p.keys.byId other = p.keys.byId id →
      IsFound settings c other (Value.obj d).text := by
    intro other hother hkey
    cases hids.display other id hother hid (p.keys.display_eq_of_byId hkey)
    exact ⟨d, hd, rfl⟩
  exact ⟨h.sound, h.idField_eq, h.kept.set_own hadapter hown ttl⟩

/-- New documents come behind those that are there. -/
theorem insert {ds : List Document} (hds : ∀ d ∈ ds, d.Sound Value.isSigned64) {v' : Nat}
    (h : DocumentsFresh p settings ids Holds ⟨c, v, k⟩) :
    DocumentsFresh p settings ids Holds ⟨{ c with docs := c.docs ++ ds }, v', k⟩ := by
  have hkept :
      KeptUnder Holds p.keys.byId ids (IsFound settings { c with docs := c.docs ++ ds }) k := by
    refine h.kept.mono fun id text _ hfound => ?_
    obtain ⟨d, hd, htext⟩ := hfound
    exact ⟨d, Collection.selectOne_append hd ds, htext⟩
  exact ⟨h.sound.append hds, h.idField_eq, hkept⟩

/-- A write to the document of one identifier drops its entry, and finds no other one stale. -/
theorem write (hadapter : p.adapter.RemembersUndeleted Holds) {id : DocumentId} {c' : Collection}
    {v' : Nat} (hsound : c'.Sound Value.isSigned64) (hfield : c'.idField = c.idField)
    (hothers : ∀ other, ids other → id ≠ other →
      c'.selectOne { filter := .byId settings.idField other } =
        c.selectOne { filter := .byId settings.idField other })
    (h : DocumentsFresh p settings ids Holds ⟨c, v, k⟩) :
    DocumentsFresh p settings ids Holds
      ⟨c', v', p.adapter.afterDelete (p.keys.byId id) k⟩ := by
  have hkept : KeptUnder Holds p.keys.byId ids (IsFound settings c') (p.adapter.afterDelete
      (p.keys.byId id) k) := by
    refine h.kept.delete_own hadapter fun other text hother hne hfound => ?_
    rw [IsFound, hothers other hother hne]
    exact hfound
  exact ⟨hsound, hfield.trans h.idField_eq, hkept⟩

/-- Every effect keeps documents fresh. -/
theorem effect (hadapter : p.adapter.RemembersUndeleted Holds) (hids : DistinctIds ids)
    (hdot : '.' ∉ settings.idField.toList) {x y : Snapshot κ}
    (hxy : Effect p settings (.ofIds ids) x y) (h : DocumentsFresh p settings ids Holds x) :
    DocumentsFresh p settings ids Holds y := by
  cases hxy with
  | look c v k key => exact h.lose fun m hm => hadapter.get hm key
  | keepDocument c v k ttl hid hd => exact h.set_document hadapter.toRemembers hids hid hd ttl
  | keepQuery c v k f o text ttl =>
    exact h.set_other hadapter.toRemembers (fun id => p.keys.byQuery_ne_byId f o id) _ _
  | keepList c v k ttl hmode hr =>
    exact h.set_other hadapter.toRemembers (fun id => (p.keys.byId_ne_list id _ _).symm) _ _
  | persist c v k text ttl =>
    exact h.set_other hadapter.toRemembers (fun id => p.keys.version_ne_byId id) _ _
  | drop c v k id => exact h.lose fun m hm => hadapter.delete hm _
  | clear c v k => exact h.lose fun m hm => hadapter.clear hm _
  | resume c v k hle => exact h.lose fun m hm => hm
  | raise c v k hv => exact h.lose fun m hm => hm
  | insert c v k hv hds => exact h.insert hds
  | update c v k hv hid hpatch =>
    refine h.write (c := c) hadapter (h.sound.updateOne Value.storable_isSigned64 hpatch _) rfl
      fun other hother hne => ?_
    exact Collection.selectOne_updateOne_of_ne h.sound h.idField_eq hdot (hids.signed _ hid)
      (hids.signed _ hother) hne hpatch
  | updateMany c v k hv f hbulk hpatch => exact hbulk.elim
  | delete c v k hv hid =>
    refine h.write (c := c) hadapter (h.sound.deleteOne _) rfl fun other hother hne => ?_
    exact Collection.selectOne_deleteOne_of_ne h.sound hdot (hids.signed _ hid)
      (hids.signed _ hother) hne
  | deleteMany c v k hv f hbulk => exact hbulk.elim

/-- Where the adapter holds no document of the identifiers, documents are fresh when caching
starts. -/
theorem attach (hadapter : p.adapter.Remembers Holds) {w : CachedStore κ}
    (hsound : w.collection.Sound Value.isSigned64)
    (hfield : w.collection.idField = settings.idField) {m : CacheMemory} (hm : Holds k m)
    (hnone : ∀ id, ids id → m (p.keys.byId id) = none) (timestamps publish : Bool) (start : Nat) :
    DocumentsFresh p settings ids Holds
      (CachedStore.attach p settings timestamps publish start k w).snapshot := by
  rw [snapshot_attach]
  exact ⟨hsound, hfield, KeptUnder.of_none (hadapter.get hm _) hnone⟩

end DocumentsFresh

variable {p : CachePlugin κ} {settings : PagingSettings} {timestamps : Bool}
  {ids : DocumentId → Prop} {Holds : κ → CacheMemory → Prop}

/-- Where kept documents are fresh, a document is returned as the store finds it. -/
theorem getById_eq_of_documentsFresh (henabled : p.settings.enabled = true)
    (hadapter : p.adapter.Remembers Holds) {w : CachedStore κ}
    (h : DocumentsFresh p settings ids Holds w.snapshot) {id : DocumentId} (hid : ids id)
    (o : ReadOptions) :
    (((repository p settings timestamps).getById id o).runOn w).1 =
      .ok (w.collection.selectOne
        { filter := .byId settings.idField id
          projection := o.projection, populate := o.populate }) := by
  have houtcome := getById_outcome p settings timestamps henabled id o w
  generalize ((repository p settings timestamps).getById id o).runOn w = run at houtcome ⊢
  cases houtcome with
  | bypassed => rfl
  | found => rfl
  | kept _ hresult => exact hresult.symm
  | served hsource hreply hread hpick =>
    obtain ⟨hshaped, rfl, rfl⟩ := CachePlugin.eq_of_source?_getById hsource
    obtain ⟨d, hd, rfl⟩ := h.kept.reply hadapter hid hreply
    obtain ⟨e, he, rfl⟩ := Option.map_eq_some_iff.mp hread
    have hsound : d.Sound Value.isSigned64 := by
      rw [Collection.selectOne_eq_find?] at hd
      exact h.sound d (List.mem_of_find?_eq_some hd)
    have hed : e = d := by
      rw [Document.ofText?_text (Value.Signed.whole hsound.every) hsound.ordered] at he
      split at he
      · exact (Option.some.inj he).symm
      · cases he
    cases hpick
    rw [selectOne_of_not_isShaped hshaped, hed]
    exact congrArg Except.ok hd.symm

/-- In every run of a cached repository, a document is returned exactly as the store finds it by
its identifier. -/
theorem getById_eq_selectOne (henabled : p.settings.enabled = true)
    (hadapter : p.adapter.RemembersUndeleted Holds) (hids : DistinctIds ids)
    (hdot : '.' ∉ settings.idField.toList) {start w : CachedStore κ} {k : κ} {m : CacheMemory}
    (hsound : start.collection.Sound Value.isSigned64)
    (hfield : start.collection.idField = settings.idField) (hm : Holds k m)
    (hnone : ∀ id, ids id → m (p.keys.byId id) = none) {publish : Bool} {version : Nat}
    (hrun : Run p settings timestamps (.ofIds ids) Holds
      (attach p settings timestamps publish version k start) w)
    {id : DocumentId} (hid : ids id) (o : ReadOptions) :
    (((repository p settings timestamps).getById id o).runOn w).1 =
      .ok (w.collection.selectOne
        { filter := .byId settings.idField id
          projection := o.projection, populate := o.populate }) := by
  have hfresh : DocumentsFresh p settings ids Holds w.snapshot :=
    hrun.keeps henabled Value.storable_isSigned64 (fun hxy hx => hx.effect hadapter hids hdot hxy)
      (fun hk hx => hx.lose hk)
      (.attach hadapter.toRemembers hsound hfield hm hnone timestamps publish version)
  exact getById_eq_of_documentsFresh henabled hadapter.toRemembers hfresh hid o

/-- Identifiers of rows. -/
def rowIds (id : DocumentId) : Prop := id = .int 1 ∨ id = .text "a"

/-- A row that is read, changed and read again. -/
def rowChanged : CachedStore TickingCache :=
  afterOp (.getById (.int 1) {}) (afterOp (.update (.int 1) [("n", .int 8)])
    (afterOp (.getById (.int 1) {}) (afterOp (.create [("id", .int 1), ("n", .int 5)]) noRows)))

theorem run_rowChanged :
    Run rowsCache rowsPaging false (.ofIds rowIds) TickingCache.Holds noRows rowChanged := by
  have hrow : Document.Sound Value.isSigned64 [("id", .int 1), ("n", .int 5)] := by decide +kernel
  have hpatch : Document.Sound Value.isSigned64 [("n", .int 8)] := by decide +kernel
  have hid : rowIds (.int 1) := Or.inl rfl
  have hcreated : Run rowsCache rowsPaging false (.ofIds rowIds) TickingCache.Holds noRows
      (afterOp (.create [("id", .int 1), ("n", .int 5)]) noRows) :=
    .single (.perform noRows _ hrow trivial)
  have hread := hcreated.tail (.perform _ (.getById (.int 1) {}) hid trivial)
  have hchanged := hread.tail (.perform _ (.update (.int 1) [("n", .int 8)]) ⟨hid, hpatch⟩ trivial)
  exact hchanged.tail (.perform _ (.getById (.int 1) {}) hid trivial)

/-- The changed row is returned, which the cache holds. -/
theorem getById_eq_selectOne_rowChanged :
    (((repository rowsCache rowsPaging false).getById (.int 1) {}).runOn rowChanged).1 =
      .ok (rowChanged.collection.selectOne { filter := .byId "id" (.int 1) }) := by
  have hids : DistinctIds rowIds := by
    refine ⟨?_, ?_⟩
    · rintro _ (rfl | rfl) <;> rfl
    · rintro _ _ (rfl | rfl) (rfl | rfl) h
      · rfl
      · exact absurd h (by decide)
      · exact absurd h (by decide)
      · rfl
  have hnothing : TickingCache.Holds (.empty 100) fun _ => none := fun e he => by cases he
  exact getById_eq_selectOne rfl TickingCache.remembersUndeleted hids (by decide)
    (by decide +kernel) rfl hnothing (fun _ _ => rfl) run_rowChanged (Or.inl rfl) {}

end CachedStore
end Quire
