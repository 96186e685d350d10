import Quire.Proofs.CachedRuns
import Quire.Proofs.KeptEntries
import Quire.Proofs.ProjectedIdentifiers
import Quire.Proofs.ResultTexts

/-!
# Identities of cached reads

The key of a document holds its identifier as text, so a number shares the key of its numeral.
Among identifiers without such pairs, everything that is kept under the key of an identifier was
found by it. A cached read then returns documents with the identifier that was asked for, unless a
floating-point number was read back from its text as another one.
-/
namespace Quire

/-! ## Identifiers as texts -/

namespace DocumentId

/-- A number and the text of its numeral. -/
inductive Confused : DocumentId → DocumentId → Prop
  | numeral (n : Int) : Confused (.int n) (.text (toString n))

/-- Different identifiers have the same text only if one is a number and the other its numeral. -/
theorem display_eq_iff {id other : DocumentId} :
    id.display = other.display ↔ id = other ∨ Confused id other ∨ Confused other id := by
  constructor
  · intro h
    cases id with
    | int n =>
      cases other with
      | int m => exact Or.inl (congrArg int (toString_int_inj h))
      | text s =>
        have hs : toString n = s := h
        exact Or.inr (Or.inl (hs ▸ .numeral n))
    | text s =>
      cases other with
      | int m =>
        have hs : s = toString m := h
        exact Or.inr (Or.inr (hs ▸ .numeral m))
      | text t => exact Or.inl (congrArg text h)
  · rintro (rfl | h | h)
    · rfl
    · cases h
      rfl
    · cases h
      rfl

/-- In binary64, the number is read back from its text as itself. -/
def Legible : DocumentId → Prop
  | .int n => (Binary64.ofInt n).reread = Binary64.ofInt n
  | .text _ => True

instance : (id : DocumentId) → Decidable id.Legible
  | .int n => inferInstanceAs (Decidable ((Binary64.ofInt n).reread = Binary64.ofInt n))
  | .text _ => inferInstanceAs (Decidable True)

end DocumentId

theorem Binary64.eq_of_compare {x y : Binary64} (h : x.compare y = .eq) : x = y := by
  have hplace : x.place = y.place := Std.LawfulEqOrd.eq_of_compare h
  obtain ⟨sx, rx, hx⟩ := x
  obtain ⟨sy, ry, hy⟩ := y
  cases sx <;> cases sy <;> simp [place] at hplace ⊢ <;> omega

/-- A value equal to a legible identifier is read back as one. -/
theorem DocumentId.Legible.equal_reread {id : DocumentId} (h : id.Legible) {v : Value}
    (hv : v.equal id.toValue = true) : v.reread.equal id.toValue = true := by
  cases id with
  | int n =>
    cases v with
    | float x =>
      have hx : x = Binary64.ofInt n := Binary64.eq_of_compare (eq_of_beq hv)
      have hn : (Binary64.ofInt n).reread = Binary64.ofInt n := h
      rw [Value.reread, hx, hn, ← hx]
      exact hv
    | _ => exact hv
  | text s => cases v <;> exact hv

/-- Not every number is legible: this one is read back as its neighbour. -/
example : ¬ (DocumentId.int 1504214374168460538).Legible := by decide +kernel

theorem CacheKeys.byId_eq_iff (k : CacheKeys) {id other : DocumentId} :
    k.byId id = k.byId other ↔
      id = other ∨ DocumentId.Confused id other ∨ DocumentId.Confused other id := by
  rw [← DocumentId.display_eq_iff]
  exact ⟨k.display_eq_of_byId, fun h => by rw [byId, byId, h]⟩

/-! ## Documents of an identifier -/

section Found

variable {idField : String} {id : DocumentId} {d : Document}

theorem Filter.holds_byId_eq : (Filter.byId idField id).holds d =
    (d.fieldOrNull idField).equal id.toValue := rfl

/-- A document of a legible identifier is one of it still when it is read back. -/
theorem DocumentId.Legible.holds_of_ofText? (h : id.Legible) (hd : d.Sound Value.isSized64)
    (hfound : (Filter.byId idField id).holds d = true) {e : Document}
    (he : Document.ofText? (Value.obj d).text = some e) :
    (Filter.byId idField id).holds e = true := by
  rw [Filter.holds_byId_eq] at hfound ⊢
  rw [Document.fieldOrNull_of_ofText? hd.every hd.ordered he]
  exact h.equal_reread hfound

/-- An identifier without a dot in its name is a field, with nothing below it. -/
theorem Filter.exists_get?_of_holds_byId (hdot : '.' ∉ idField.toList)
    (hfound : (Filter.byId idField id).holds d = true) :
    ∃ v, d.get? idField = some v ∧ v.equal id.toValue = true ∧
      ∀ s path, v.at? (s :: path) = none := by
  rw [holds_byId_eq, Document.fieldOrNull, Document.getPath?_of_undotted hdot] at hfound
  cases hget : d.get? idField with
  | none =>
    rw [hget] at hfound
    cases id <;> cases hfound
  | some v =>
    rw [hget] at hfound
    refine ⟨v, rfl, hfound, fun s path => ?_⟩
    cases v with
    | arr items => cases id <;> cases hfound
    | obj fields => cases id <;> cases hfound
    | _ => rfl

/-- Copying a field leaves a field in place that has nothing below it. -/
theorem Projection.get?_copyField_of_leaf {field : String} {v : Value}
    (hv : d.get? field = some v) (hleaf : ∀ s path, v.at? (s :: path) = none) {out : Document}
    (hout : out.get? field = some v) (name : String) :
    (copyField d out name).get? field = some v := by
  rw [copyField]
  split
  · next w hw =>
    by_cases hhead : (segments name).head? = some field
    · obtain ⟨rest, hpath⟩ := List.head?_eq_some_iff.mp hhead
      rw [Document.getPath?, hpath, Document.at?, Value.at?, hv, Option.bind_some] at hw
      cases rest with
      | nil =>
        cases hw
        rw [Document.setPath, hpath, Document.setAt]
        exact Document.get?_set_self _ _ _
      | cons s rest =>
        rw [hleaf] at hw
        cases hw
    · rw [Document.get?_setPath_of_head? hhead]
      exact hout
  · exact hout

/-- A projection leaves an identifier without a dot in its name in place. -/
theorem Projection.holds_byId_apply (hdot : '.' ∉ idField.toList) (p : Projection)
    (hfound : (Filter.byId idField id).holds d = true) :
    (Filter.byId idField id).holds (p.apply idField d) = true := by
  obtain ⟨v, hv, hequal, hleaf⟩ := Filter.exists_get?_of_holds_byId hdot hfound
  have hfold : ∀ (names : List String) (out : Document), out.get? idField = some v →
      (names.foldl (copyField d) out).get? idField = some v := by
    intro names
    induction names with
    | nil => exact fun _ hout => hout
    | cons name names ih => exact fun out hout => ih _ (get?_copyField_of_leaf hv hleaf hout name)
  rw [apply]
  split
  · exact hfound
  · have hkept := hfold p.fields _ (Document.get?_set_self idField v [])
    rw [Filter.holds_byId_eq, Document.fieldOrNull_of_get? hdot (by rw [hv]; exact hkept)]
    exact hequal

end Found

theorem Collection.sound_of_selectOne {c : Collection} {q : Value → Bool} (hc : c.Sound q)
    {f : Filter} {d : Document} (h : c.selectOne { filter := f } = some d) :
    d.Sound q ∧ f.holds d = true := by
  rw [selectOne_eq_find?] at h
  have hholds := List.find?_some h
  exact ⟨hc d (List.mem_of_find?_eq_some h), hholds⟩

/-- What a request for one document finds is what its projection keeps of the first document. -/
theorem Collection.exists_selectOne_of_projected {c : Collection} {f : Filter}
    {projection : Option Projection} {populate : List String} {e : Document}
    (h : c.selectOne { filter := f, projection, populate } = some e) :
    ∃ d, c.selectOne { filter := f } = some d ∧
      e = (projection.map (·.apply c.idField d)).getD d := by
  cases projection with
  | none => exact ⟨e, h, rfl⟩
  | some p =>
    rw [selectOne, select] at h
    simp only [List.head?_map] at h
    obtain ⟨d, hd, rfl⟩ := Option.map_eq_some_iff.mp h
    exact ⟨d, hd, rfl⟩

/-! ## Runs with all identifiers -/

/-- Identifiers of which no two are a number and its numeral, and that are legible. -/
structure ToldApart (ids : DocumentId → Prop) : Prop where
  unconfused : ∀ id other, ids id → ids other → ¬ DocumentId.Confused id other
  legible : ∀ id, ids id → id.Legible

theorem ToldApart.eq_of_byId {ids : DocumentId → Prop} (h : ToldApart ids) (k : CacheKeys)
    {id other : DocumentId} (hid : ids id) (hother : ids other) (hkey : k.byId id = k.byId other) :
    id = other := by
  rcases k.byId_eq_iff.mp hkey with heq | hconfused | hconfused
  · exact heq
  · exact absurd hconfused (h.unconfused id other hid hother)
  · exact absurd hconfused (h.unconfused other id hother hid)

/-- All operations, with some identifiers and documents of all numbers. -/
def Scope.withIds (ids : DocumentId → Prop) : Scope where
  ids
  modes _ := True
  parts := Value.isSized64
  bulk := True
  versions _ := True

namespace CachedStore

variable {κ : Type}

/-- A text that is read, if at all, as a document of an identifier. -/
def ReadsAs (idField : String) (id : DocumentId) (text : String) : Prop :=
  ∀ d, Document.ofText? text = some d → (Filter.byId idField id).holds d = true

/-- Kept documents are identified: what the adapter can answer with for an identifier is a document
of that identifier. -/
structure DocumentsIdentified (p : CachePlugin κ) (settings : PagingSettings)
    (ids : DocumentId → Prop) (Holds : κ → CacheMemory → Prop) (x : Snapshot κ) : Prop where
  sound : x.collection.Sound Value.isSized64
  idField_eq : x.collection.idField = settings.idField
  kept : KeptUnder Holds p.keys.byId ids (ReadsAs settings.idField) x.adapter

namespace DocumentsIdentified

variable {p : CachePlugin κ} {settings : PagingSettings} {ids : DocumentId → Prop}
  {Holds : κ → CacheMemory → Prop} {c : Collection} {v : Nat} {k : κ}

/-- The document that the store finds for an identifier is one of it. -/
theorem set_document (hadapter : p.adapter.Remembers Holds) (hids : ToldApart ids)
    {id : DocumentId} (hid : ids id) {d : Document}
    (hd : c.selectOne { filter := .byId settings.idField id } = some d) (ttl : Nat)
    (h : DocumentsIdentified p settings ids Holds ⟨c, v, k⟩) :
    DocumentsIdentified p settings ids Holds
      ⟨c, v, p.adapter.afterSet (p.keys.byId id) (Value.obj d).text ttl k⟩ := by
  obtain ⟨hsound, hholds⟩ := Collection.sound_of_selectOne h.sound hd
  have hown : ∀ other, ids other → p.keys.byId other = p.keys.byId id →
      ReadsAs settings.idField other (Value.obj d).text := by
    intro other hother hkey
    cases hids.eq_of_byId p.keys hother hid hkey
    exact fun e he => (hids.legible _ hid).holds_of_ofText? hsound hholds he
  exact ⟨h.sound, h.idField_eq, h.kept.set_own hadapter hown ttl⟩

/-- Every effect keeps documents identified. -/
theorem effect (hadapter : p.adapter.Remembers Holds) (hids : ToldApart ids) {x y : Snapshot κ}
    (hxy : Effect p settings (.withIds ids) x y) (h : DocumentsIdentified p settings ids Holds x) :
    DocumentsIdentified p settings ids Holds y := by
  have hq := Value.storable_isSized64
  cases hxy with
  | look c v k key => exact ⟨h.sound, h.idField_eq, h.kept.lose fun m hm => hadapter.get hm key⟩
  | keepDocument c v k ttl hid hd => exact h.set_document hadapter hids hid hd ttl
  | keepQuery c v k f o text ttl =>
    exact ⟨h.sound, h.idField_eq,
      h.kept.set_other hadapter (fun id _ => p.keys.byQuery_ne_byId f o id) _ _⟩
  | keepList c v k ttl hmode hr =>
    exact ⟨h.sound, h.idField_eq,
      h.kept.set_other hadapter (fun id _ => (p.keys.byId_ne_list id _ _).symm) _ _⟩
  | persist c v k text ttl =>
    exact ⟨h.sound, h.idField_eq,
      h.kept.set_other hadapter (fun id _ => p.keys.version_ne_byId id) _ _⟩
  | drop c v k id => exact ⟨h.sound, h.idField_eq, h.kept.lose fun m hm => hadapter.delete hm _⟩
  | clear c v k => exact ⟨h.sound, h.idField_eq, h.kept.lose fun m hm => hadapter.clear hm _⟩
  | resume c v k hle => exact ⟨h.sound, h.idField_eq, h.kept⟩
  | raise c v k hv => exact ⟨h.sound, h.idField_eq, h.kept⟩
  | insert c v k hv hds => exact ⟨h.sound.append hds, h.idField_eq, h.kept⟩
  | update c v k hv hid hpatch =>
    exact ⟨h.sound.updateOne hq hpatch _, h.idField_eq,
      h.kept.lose fun m hm => hadapter.delete hm _⟩
  | updateMany c v k hv f hbulk hpatch =>
    exact ⟨h.sound.updateMany hq hpatch f, h.idField_eq, h.kept⟩
  | delete c v k hv hid =>
    exact ⟨h.sound.deleteOne _, h.idField_eq, h.kept.lose fun m hm => hadapter.delete hm _⟩
  | deleteMany c v k hv f hbulk => exact ⟨h.sound.deleteMany f, h.idField_eq, h.kept⟩

/-- Where the adapter holds no document of the identifiers, documents are identified when caching
starts. -/
theorem attach (hadapter : p.adapter.Remembers Holds) {w : CachedStore κ}
    (hsound : w.collection.Sound Value.isSized64)
    (hfield : w.collection.idField = settings.idField) {m : CacheMemory} (hm : Holds k m)
    (hnone : ∀ id, ids id → m (p.keys.byId id) = none) (timestamps publish : Bool) (start : Nat) :
    DocumentsIdentified p settings ids Holds
      (CachedStore.attach p settings timestamps publish start k w).snapshot := by
  rw [snapshot_attach]
  exact ⟨hsound, hfield, KeptUnder.of_none (hadapter.get hm _) hnone⟩

end DocumentsIdentified

variable {p : CachePlugin κ} {settings : PagingSettings} {timestamps : Bool}
  {ids : DocumentId → Prop} {Holds : κ → CacheMemory → Prop}

/-- What the store finds for an identifier is a document of it, also under a projection if the name
of the identifier has no dot. -/
theorem holds_byId_of_selectOne {c : Collection} (hfield : c.idField = settings.idField)
    {id : DocumentId} {o : ReadOptions} (ho : o.isShaped = false ∨ '.' ∉ settings.idField.toList)
    {d : Document} (h : c.selectOne
      { filter := .byId settings.idField id
        projection := o.projection, populate := o.populate } = some d) :
    (Filter.byId settings.idField id).holds d = true := by
  rcases ho with hshaped | hdot
  · rw [selectOne_of_not_isShaped hshaped, Collection.selectOne_eq_find?] at h
    have hholds := List.find?_some h
    exact hholds
  · obtain ⟨e, he, rfl⟩ := Collection.exists_selectOne_of_projected h
    rw [Collection.selectOne_eq_find?] at he
    have hholds := List.find?_some he
    cases o.projection with
    | none => exact hholds
    | some projection =>
      rw [Option.map_some, Option.getD_some, hfield]
      exact projection.holds_byId_apply hdot hholds

/-- Where kept documents are identified, so are the returned ones. -/
theorem getById_of_documentsIdentified (henabled : p.settings.enabled = true)
    (hadapter : p.adapter.Remembers Holds) {w w' : CachedStore κ}
    (h : DocumentsIdentified p settings ids Holds w.snapshot) {id : DocumentId} (hid : ids id)
    {o : ReadOptions} (ho : o.isShaped = false ∨ '.' ∉ settings.idField.toList) {d : Document}
    (hread : ((repository p settings timestamps).getById id o).runOn w = (.ok (some d), w')) :
    (d.fieldOrNull settings.idField).equal id.toValue = true := by
  rw [← Filter.holds_byId_eq]
  have houtcome := getById_outcome p settings timestamps henabled id o w
  generalize hresult : Except.ok (w.collection.selectOne
    { filter := .byId settings.idField id
      projection := o.projection, populate := o.populate }) = result at houtcome
  rw [hread] at houtcome
  have hstore : result = .ok (some d) → (Filter.byId settings.idField id).holds d = true := by
    rintro rfl
    exact holds_byId_of_selectOne h.idField_eq ho (Except.ok.inj hresult)
  cases houtcome with
  | bypassed => exact hstore rfl
  | found => exact hstore rfl
  | kept _ hkept => exact hstore hkept
  | served hsource hreply hread hpick =>
    obtain ⟨-, rfl, rfl⟩ := CachePlugin.eq_of_source?_getById hsource
    obtain ⟨e, he, rfl⟩ := Option.map_eq_some_iff.mp hread
    cases hpick
    exact h.kept.reply hadapter hid hreply d he

/-- In every run of a cached repository, a document that is returned for an identifier has this
identifier. Another identifier has the same key only if one of the two is a number and the other
its numeral. -/
theorem getById_identity (henabled : p.settings.enabled = true)
    (hadapter : p.adapter.Remembers Holds) (hids : ToldApart ids) {start w : CachedStore κ} {k : κ}
    {m : CacheMemory} (hsound : start.collection.Sound Value.isSized64)
    (hfield : start.collection.idField = settings.idField) (hm : Holds k m)
    (hnone : ∀ id, ids id → m (p.keys.byId id) = none) {publish : Bool} {version : Nat}
    (hrun : Run p settings timestamps (.withIds ids) Holds
      (attach p settings timestamps publish version k start) w)
    {id : DocumentId} (hid : ids id) :
    (∀ (o : ReadOptions) (d : Document) (w' : CachedStore κ),
      o.isShaped = false ∨ '.' ∉ settings.idField.toList →
      ((repository p settings timestamps).getById id o).runOn w = (.ok (some d), w') →
      (d.fieldOrNull settings.idField).equal id.toValue = true) ∧
    ∀ other, p.keys.byId id = p.keys.byId other ↔
      id = other ∨ DocumentId.Confused id other ∨ DocumentId.Confused other id := by
  have hidentified : DocumentsIdentified p settings ids Holds w.snapshot :=
    hrun.keeps henabled Value.storable_isSized64 (fun hxy hx => hx.effect hadapter hids hxy)
      (fun hk hx => ⟨hx.sound, hx.idField_eq, hx.kept.lose hk⟩)
      (.attach hadapter hsound hfield hm hnone timestamps publish version)
  exact ⟨fun o d w' ho hread =>
    getById_of_documentsIdentified henabled hadapter hidentified hid ho hread,
    fun other => p.keys.byId_eq_iff⟩

/-- Two rows' identifiers, a number and a text. -/
def sevenIds (id : DocumentId) : Prop := id = .int 7 ∨ id = .text "seven"

/-- A row whose identifier is a number, after it has been read. -/
def rowSeven : CachedStore TickingCache :=
  afterOp (.getById (.int 7) {}) (afterOp (.create [("id", .int 7)]) noRows)

theorem run_rowSeven {ids : DocumentId → Prop} (hid : ids (.int 7)) :
    Run rowsCache rowsPaging false (.withIds ids) TickingCache.Holds noRows rowSeven := by
  have hrow : Document.Sound Value.isSized64 [("id", .int 7)] := by decide +kernel
  have hcreated : Run rowsCache rowsPaging false (.withIds ids) TickingCache.Holds noRows
      (afterOp (.create [("id", .int 7)]) noRows) := .single (.perform noRows _ hrow trivial)
  exact hcreated.tail (.perform _ (.getById (.int 7) {}) hid trivial)

/-- The row is returned for its number, under a key that the text has not. -/
theorem getById_identity_rowSeven :
    ∃ d w', ((repository rowsCache rowsPaging false).getById (.int 7) {}).runOn rowSeven =
        (.ok (some d), w') ∧
      (d.fieldOrNull "id").equal (.int 7) = true ∧
      rowsCache.keys.byId (.int 7) ≠ rowsCache.keys.byId (.text "seven") := by
  have hids : ToldApart sevenIds := by
    constructor
    · rintro id other (rfl | rfl) (rfl | rfl) hconfused
      · cases hconfused
      · exact absurd (DocumentId.display_eq_iff.mpr (Or.inr (Or.inl hconfused))) (by decide)
      · cases hconfused
      · cases hconfused
    · rintro id (rfl | rfl)
      · decide +kernel
      · trivial
  have hnothing : TickingCache.Holds (.empty 100) fun _ => none := fun e he => by cases he
  have hidentity := getById_identity rfl TickingCache.remembersUndeleted.toRemembers hids
    (by decide +kernel) rfl hnothing (fun _ _ => rfl) (run_rowSeven (Or.inl rfl)) (Or.inl rfl)
  have hfound : (((repository rowsCache rowsPaging false).getById (.int 7) {}).runOn
      rowSeven).1.toOption.any Option.isSome = true := by decide +kernel
  rcases hread : ((repository rowsCache rowsPaging false).getById (.int 7) {}).runOn rowSeven with
    ⟨e | _ | d, w'⟩
  · simp [hread, Except.toOption] at hfound
  · simp [hread, Except.toOption] at hfound
  · refine ⟨d, w', rfl, hidentity.1 {} d w' (Or.inl rfl) hread, fun hkey => ?_⟩
    exact absurd (rowsCache.keys.display_eq_of_byId hkey) (by decide)

/-! ## Shared keys -/

/-- An unshaped read returns the document that is kept under the key of its identifier, and what
the store finds if none is kept. -/
theorem getById_eq_kept (henabled : p.settings.enabled = true) {o : ReadOptions}
    (hskip : o.skipCache = false) (hshaped : o.isShaped = false) (id : DocumentId)
    (w : CachedStore κ) :
    (((repository p settings timestamps).getById id o).runOn w).1 =
      .ok (((p.adapter.reply (p.keys.byId id) w.cache.adapter).bind Document.ofText?).or
        (w.collection.selectOne { filter := .byId settings.idField id })) := by
  have hsource : p.source? { skipCache := o.skipCache } w.cache.version.current (.getById id o) =
      some (p.keys.byId id, CachePlugin.readDocument?) := by
    rw [CachePlugin.source?, hskip, hshaped]
    rfl
  have hfind : ∀ s, ((repository p settings timestamps).store.findOne
      { filter := (repository p settings timestamps).idFilter id
        projection := o.projection, populate := o.populate }).runOn { w with cache := s } =
      (.ok (w.collection.selectOne { filter := .byId settings.idField id }),
        { w with cache := s }) := by
    intro s
    rw [← selectOne_of_not_isShaped hshaped]
    exact Collection.runOn_findOne_reader collectionPart rfl _
  rw [Repository.getById_eq,
    readThrough_result henabled (CachePlugin.after_getById henabled id o) hfind hsource]
  cases p.adapter.reply (p.keys.byId id) w.cache.adapter with
  | none => rfl
  | some text =>
    have hread : CachePlugin.readDocument? text =
        (Document.ofText? text).map HookResult.document := rfl
    rw [Option.bind_some, Option.bind_some, hread]
    cases Document.ofText? text <;> rfl

/-- Two identifiers with one key are served the same document. -/
theorem getById_of_shared_key (henabled : p.settings.enabled = true) {o : ReadOptions}
    (hskip : o.skipCache = false) (hshaped : o.isShaped = false) {id other : DocumentId}
    (hkey : p.keys.byId id = p.keys.byId other) {w : CachedStore κ} {d : Document}
    (hkept : (p.adapter.reply (p.keys.byId id) w.cache.adapter).bind Document.ofText? = some d) :
    (((repository p settings timestamps).getById other o).runOn w).1 = .ok (some d) := by
  rw [getById_eq_kept henabled hskip hshaped, ← hkey, hkept, Option.some_or]

/-- The row is also returned for the numeral, which is not its identifier. -/
theorem getById_confused_rowSeven :
    Run rowsCache rowsPaging false (.withIds fun _ => True) TickingCache.Holds noRows rowSeven ∧
      DocumentId.int 7 ≠ .text "7" ∧
      rowsCache.keys.byId (.int 7) = rowsCache.keys.byId (.text "7") ∧
      ∃ d, (((repository rowsCache rowsPaging false).getById (.text "7") {}).runOn rowSeven).1 =
          .ok (some d) ∧
        (d.fieldOrNull "id").equal (DocumentId.text "7").toValue = false := by
  have hkey : rowsCache.keys.byId (.int 7) = rowsCache.keys.byId (.text "7") :=
    rowsCache.keys.byId_eq_iff.mpr (Or.inr (Or.inl (.numeral 7)))
  have hkept : ((rowsCache.adapter.reply (rowsCache.keys.byId (.int 7))
      rowSeven.cache.adapter).bind Document.ofText?).any
        (fun d => !(d.fieldOrNull "id").equal (DocumentId.text "7").toValue) = true := by
    decide +kernel
  obtain ⟨d, hd, hother⟩ := (Option.any_eq_true _ _).mp hkept
  rw [Bool.not_eq_true'] at hother
  exact ⟨run_rowSeven trivial, by decide, hkey, d,
    getById_of_shared_key rfl rfl rfl hkey hd, hother⟩

end CachedStore
end Quire
