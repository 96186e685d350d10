import Quire.Proofs.StoredDocuments

/-!
# Listings

The list that paging gives over a collection. It depends on nothing else, and asking for it changes
nothing.
-/
namespace Quire

variable {σ α β : Type} {part : Part σ Collection}

/-- An action that only reads a part of the state, as another action reads it by itself. -/
def Action.Mirrors (part : Part σ Collection) (a : Action σ α) (b : Action Collection α) : Prop :=
  ∀ s, a.runOn s = ((b.runOn (part.get s)).1, s) ∧ (b.runOn (part.get s)).2 = part.get s

namespace Action.Mirrors

theorem bind {a : Action σ α} {b : Action Collection α} {k : α → Action σ β}
    {l : α → Action Collection β} (h : a.Mirrors part b) (hk : ∀ x, (k x).Mirrors part (l x)) :
    (a >>= k).Mirrors part (b >>= l) := by
  intro s
  obtain ⟨hout, hstate⟩ := h s
  rw [runOn_bind, runOn_bind, hout]
  rcases hb : b.runOn (part.get s) with ⟨f | x, t⟩
  · rw [hb] at hstate
    exact ⟨rfl, hstate⟩
  · rw [hb] at hstate
    simp only at hstate
    rw [hstate]
    exact hk x s

theorem map {a : Action σ α} {b : Action Collection α} (h : a.Mirrors part b) (f : α → β) :
    (f <$> a).Mirrors part (f <$> b) := by
  rw [map_eq_pure_bind, map_eq_pure_bind]
  exact h.bind fun _ _ => ⟨rfl, rfl⟩

end Action.Mirrors

/-- A successful chain of two actions is a success of both. -/
theorem Action.exists_of_runOn_bind {a : Action σ α} {k : α → Action σ β} {s u : σ} {y : β}
    (h : (a >>= k).runOn s = (.ok y, u)) :
    ∃ x t, a.runOn s = (.ok x, t) ∧ (k x).runOn t = (.ok y, u) := by
  rw [runOn_bind] at h
  rcases ha : a.runOn s with ⟨f | x, t⟩
  · rw [ha] at h
    cases h
  · rw [ha] at h
    exact ⟨x, t, rfl, h⟩

namespace Pager

variable (part) (settings : PagingSettings)

theorem mirrors_paginate (r : OffsetRequest) :
    ((Pager.mk (Collection.reader part) settings).paginate r).Mirrors part
      ((Pager.mk (Collection.reader Part.whole) settings).paginate r) := by
  refine Action.Mirrors.bind (fun _ => ⟨rfl, rfl⟩) fun sort => ?_
  refine Action.Mirrors.bind (fun _ => ⟨rfl, rfl⟩) fun docs => ?_
  dsimp only
  split
  · exact Action.Mirrors.bind (fun _ => ⟨rfl, rfl⟩) fun _ _ => ⟨rfl, rfl⟩
  · exact Action.Mirrors.bind (fun _ => ⟨rfl, rfl⟩) fun _ _ => ⟨rfl, rfl⟩

theorem mirrors_stream (r : KeysetRequest) :
    ((Pager.mk (Collection.reader part) settings).stream r).Mirrors part
      ((Pager.mk (Collection.reader Part.whole) settings).stream r) := by
  refine Action.Mirrors.bind (fun _ => ⟨rfl, rfl⟩) fun sort => ?_
  refine Action.Mirrors.bind (fun _ => ⟨rfl, rfl⟩) fun filter => ?_
  exact Action.Mirrors.bind (fun _ => ⟨rfl, rfl⟩) fun _ _ => ⟨rfl, rfl⟩

end Pager

/-- The list that paging gives over a collection. -/
def Collection.listed (settings : PagingSettings) (c : Collection) (mode : ListMode) :
    Except Fault ListResult :=
  let pager : Pager Collection := ⟨reader Part.whole, settings⟩
  match mode with
  | .offset r => ((ListResult.offset <$> pager.paginate r).runOn c).1
  | .keyset r => ((ListResult.keyset <$> pager.stream r).runOn c).1

/-- A repository over a part of the state lists the collection there. -/
theorem Repository.runOn_readList (part : Part σ Collection) (ids : Part σ IdSource)
    (r : Repository σ) (hstore : r.store = Collection.store part ids) (mode : ListMode) (s : σ) :
    (r.readList mode).runOn s = ((part.get s).listed r.settings mode, s) := by
  have hpager : r.pager = ⟨Collection.reader part, r.settings⟩ := by
    rw [pager, hstore]
    rfl
  cases mode with
  | offset request =>
    rw [readList, hpager]
    exact ((Pager.mirrors_paginate part r.settings request).map _ s).1
  | keyset request =>
    rw [readList, hpager]
    exact ((Pager.mirrors_stream part r.settings request).map _ s).1

namespace Collection

variable {q : Value → Bool} {c : Collection} {settings : PagingSettings}

theorem Sound.paginate (hq : Value.Storable q) (h : c.Sound q) {r : OffsetRequest}
    {page : OffsetPage} {t : Collection}
    (hr : ((Pager.mk (reader Part.whole) settings).paginate r).runOn c = (.ok page, t)) :
    ∀ d ∈ page.docs, d.Sound q := by
  obtain ⟨sort, s, hsort, hsorted⟩ := Action.exists_of_runOn_bind hr
  obtain ⟨docs, s', hfind, hfound⟩ := Action.exists_of_runOn_bind hsorted
  have hdocs : ∀ d ∈ docs, d.Sound q := by
    cases (Prod.mk.inj hsort).2
    cases eq_select_of_find (Prod.mk.inj hfind).1
    exact h.select hq _
  have hpage : ∃ n, page = .build (docs.take (settings.clampLimit r.limit))
      (PagingSettings.clampPage r.page) (settings.clampLimit r.limit) n
      (settings.deepPageWarning? (PagingSettings.clampPage r.page)) := by
    dsimp only at hfound
    split at hfound
    all_goals
      obtain ⟨total, s'', -, hbuilt⟩ := Action.exists_of_runOn_bind hfound
      cases hbuilt
      exact ⟨total, rfl⟩
  obtain ⟨n, rfl⟩ := hpage
  exact fun d hd => hdocs d (List.mem_of_mem_take hd)

theorem mem_of_mem_keysetPage {sort : SortOrder} {limit : Nat} {found : List Document}
    {page : KeysetPage} (h : settings.keysetPage sort limit found = .ok page) {d : Document}
    (hd : d ∈ page.docs) : d ∈ found := by
  rw [PagingSettings.keysetPage] at h
  split at h
  · cases h
    exact hd
  · dsimp only at h
    split at h
    · cases h
      exact List.mem_of_mem_take hd
    · next last _ =>
      cases hcursor : Cursor.ofDocument last sort settings.idField settings.cursorVersion with
      | error f =>
        rw [hcursor] at h
        cases h
      | ok cursor =>
        rw [hcursor] at h
        cases h
        exact List.mem_of_mem_take hd

theorem Sound.stream (hq : Value.Storable q) (h : c.Sound q) {r : KeysetRequest}
    {page : KeysetPage} {t : Collection}
    (hr : ((Pager.mk (reader Part.whole) settings).stream r).runOn c = (.ok page, t)) :
    ∀ d ∈ page.docs, d.Sound q := by
  obtain ⟨sort, s, hsort, hsorted⟩ := Action.exists_of_runOn_bind hr
  obtain ⟨filter, s', hfilter, hfiltered⟩ := Action.exists_of_runOn_bind hsorted
  obtain ⟨docs, s'', hfind, hfound⟩ := Action.exists_of_runOn_bind hfiltered
  have hpage := (Prod.mk.inj hfound).1
  intro d hd
  have hmem := mem_of_mem_keysetPage hpage hd
  cases (Prod.mk.inj hsort).2
  cases (Prod.mk.inj hfilter).2
  cases eq_select_of_find (Prod.mk.inj hfind).1
  exact h.select hq _ d hmem

/-- The documents of a list are stored documents, or projections of them. -/
theorem Sound.listed (hq : Value.Storable q) (h : c.Sound q) {mode : ListMode} {r : ListResult}
    (hr : c.listed settings mode = .ok r) : ∀ d ∈ r.docs, d.Sound q := by
  cases mode with
  | offset request =>
    obtain ⟨page, t, hpage, hmap⟩ := Action.exists_of_runOn_bind (Prod.ext hr rfl)
    cases hmap
    exact h.paginate hq hpage
  | keyset request =>
    obtain ⟨page, t, hpage, hmap⟩ := Action.exists_of_runOn_bind (Prod.ext hr rfl)
    cases hmap
    exact h.stream hq hpage

end Collection
end Quire
