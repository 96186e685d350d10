import Quire.Proofs.ValueOrder
import Quire.Query.Sort

/-!
# Positions in a sort order

A sort order sees of a document only its position, the values of the sort fields. Positions whose
numbers are whole and signed are strictly ordered, and a list of documents with different
positions has one sorted form: sorting commutes with selecting.
-/
namespace Quire

/-! ## Directions -/

namespace Direction

theorem orient_swap (d : Direction) (o : Ordering) : (d.orient o).swap = d.orient o.swap := by
  cases d <;> rfl

theorem orient_eq_eq_iff (d : Direction) (o : Ordering) : d.orient o = .eq ↔ o = .eq := by
  cases d <;> cases o <;> simp [orient]

/-- A value stands before another one in a direction. -/
theorem orient_trans (d : Direction) {u v w : Value} (hu : u.Signed) (hv : v.Signed)
    (hw : w.Signed) (huv : d.orient (u.compare v) = .lt) (hvw : d.orient (v.compare w) = .lt) :
    d.orient (u.compare w) = .lt := by
  cases d with
  | asc => exact hu.compare_trans hv hw huv hvw
  | desc =>
    simp only [orient, Value.compare_swap] at huv hvw ⊢
    exact hw.compare_trans hv hu hvw huv

end Direction

namespace SortOrder

/-- The values of the sort fields of a document. -/
def position (s : SortOrder) (d : Document) : List Value := s.names.map d.fieldOrNull

/-- The order of two positions: the first field in which they differ decides. -/
def comparePositions : List SortField → List Value → List Value → Ordering
  | f :: fs, v :: vs, w :: ws =>
    match v.compare w with
    | .eq => comparePositions fs vs ws
    | o => f.direction.orient o
  | _, _, _ => .eq

@[simp] theorem length_position (s : SortOrder) (d : Document) :
    (s.position d).length = s.fields.length := by simp [position, names]

theorem compare_eq_comparePositions (s : SortOrder) (a b : Document) :
    s.compare a b = comparePositions s.fields (s.position a) (s.position b) := by
  have h : ∀ fs : List SortField, compareBy a b fs =
      comparePositions fs (fs.map fun f => a.fieldOrNull f.field)
        (fs.map fun f => b.fieldOrNull f.field) := by
    intro fs
    induction fs with
    | nil => rfl
    | cons f fs ih =>
      cases hc : (a.fieldOrNull f.field).compare (b.fieldOrNull f.field) <;>
        simp only [compareBy, List.map_cons, comparePositions, hc, ih]
  simpa [compare, position, names, Function.comp_def] using h s.fields

theorem comparePositions_swap (fs : List SortField) (vs ws : List Value) :
    (comparePositions fs vs ws).swap = comparePositions fs ws vs := by
  induction fs generalizing vs ws with
  | nil => rfl
  | cons f fs ih =>
    cases vs with
    | nil => cases ws <;> rfl
    | cons v vs =>
      cases ws with
      | nil => rfl
      | cons w ws =>
        rw [comparePositions, comparePositions, ← Value.compare_swap v w]
        cases hvw : v.compare w with
        | eq => exact ih vs ws
        | lt => exact f.direction.orient_swap .lt
        | gt => exact f.direction.orient_swap .gt

theorem comparePositions_self (fs : List SortField) (vs : List Value) :
    comparePositions fs vs vs = .eq := by
  induction fs generalizing vs with
  | nil => rfl
  | cons f fs ih =>
    cases vs with
    | nil => rfl
    | cons v vs =>
      rw [comparePositions, Value.compare_self]
      exact ih vs

theorem comparePositions_cons_eq_lt (f : SortField) (fs : List SortField) (v w : Value)
    (vs ws : List Value) :
    comparePositions (f :: fs) (v :: vs) (w :: ws) = .lt ↔
      f.direction.orient (v.compare w) = .lt ∨
        v.compare w = .eq ∧ comparePositions fs vs ws = .lt := by
  rw [comparePositions]
  cases hvw : v.compare w <;> cases f.direction <;> simp [Direction.orient]

theorem comparePositions_trans {fs : List SortField} {us vs ws : List Value}
    (hus : ∀ u ∈ us, u.Signed) (hvs : ∀ v ∈ vs, v.Signed) (hws : ∀ w ∈ ws, w.Signed)
    (huv : comparePositions fs us vs = .lt) (hvw : comparePositions fs vs ws = .lt) :
    comparePositions fs us ws = .lt := by
  induction fs generalizing us vs ws with
  | nil => cases huv
  | cons f fs ih =>
    cases us with
    | nil => cases huv
    | cons u us =>
      cases vs with
      | nil => cases huv
      | cons v vs =>
        cases ws with
        | nil => cases hvw
        | cons w ws =>
          rw [comparePositions_cons_eq_lt] at huv hvw ⊢
          rw [List.forall_mem_cons] at hus hvs hws
          rcases huv with huv | ⟨heq, huv⟩
          · rcases hvw with hvw | ⟨heq, -⟩
            · exact Or.inl (f.direction.orient_trans hus.1 hvs.1 hws.1 huv hvw)
            · exact Or.inl (hvs.1.eq_of_compare hws.1 heq ▸ huv)
          · cases hus.1.eq_of_compare hvs.1 heq
            exact hvw.imp_right fun h => ⟨h.1, ih hus.2 hvs.2 hws.2 huv h.2⟩

theorem eq_of_comparePositions {fs : List SortField} {vs ws : List Value}
    (hvs : ∀ v ∈ vs, v.Signed) (hws : ∀ w ∈ ws, w.Signed) (hv : vs.length = fs.length)
    (hw : ws.length = fs.length) (h : comparePositions fs vs ws = .eq) : vs = ws := by
  induction fs generalizing vs ws with
  | nil => rw [List.length_eq_zero_iff.mp hv, List.length_eq_zero_iff.mp hw]
  | cons f fs ih =>
    cases vs with
    | nil => cases hv
    | cons v vs =>
      cases ws with
      | nil => cases hw
      | cons w ws =>
        rw [List.forall_mem_cons] at hvs hws
        rw [List.length_cons, List.length_cons, Nat.succ.injEq] at hv hw
        rw [comparePositions] at h
        cases hvw : v.compare w with
        | eq =>
          rw [hvw] at h
          rw [hvs.1.eq_of_compare hws.1 hvw, ih hvs.2 hws.2 hv hw h]
        | lt =>
          rw [hvw] at h
          exact absurd ((Direction.orient_eq_eq_iff _ _).mp h) (by simp)
        | gt =>
          rw [hvw] at h
          exact absurd ((Direction.orient_eq_eq_iff _ _).mp h) (by simp)

/-! ## Sorting -/

section Sorting

variable {α : Type} {less : α → α → Bool}

theorem perm_insertBackwards (x : α) (l : List α) :
    (insertBackwards less x l).Perm (x :: l) := by
  induction l with
  | nil => exact .refl _
  | cons y ys ih =>
    rw [insertBackwards]
    split
    · exact (ih.cons y).trans (.swap x y ys)
    · exact .refl _

theorem perm_foldl_insertBackwards (xs sorted : List α) :
    (xs.foldl (fun l x => insertBackwards less x l) sorted).Perm (xs ++ sorted) := by
  induction xs generalizing sorted with
  | nil => exact .refl _
  | cons x xs ih =>
    refine (ih _).trans ?_
    exact ((perm_insertBackwards x sorted).append_left xs).trans List.perm_middle

theorem perm_stableSort (xs : List α) : (stableSort less xs).Perm xs := by
  refine (List.reverse_perm _).trans ?_
  simpa using @perm_foldl_insertBackwards _ less xs []

/-- Inserting keeps a list that runs backwards in order, if the order goes by `less`. -/
theorem pairwise_insertBackwards {R : α → α → Prop} {x : α} {l : List α}
    (hless : ∀ y ∈ l, if less x y then R x y else R y x)
    (htrans : ∀ y ∈ l, ∀ z ∈ l, R y x → R z y → R z x) (h : l.Pairwise fun a b => R b a) :
    (insertBackwards less x l).Pairwise fun a b => R b a := by
  induction l with
  | nil => exact List.pairwise_singleton _ _
  | cons y ys ih =>
    have hys := List.pairwise_cons.mp h
    have hy := hless y List.mem_cons_self
    rw [insertBackwards]
    split at hy
    · next hxy =>
      rw [if_pos hxy]
      refine List.pairwise_cons.mpr ⟨fun z hz => ?_, ih
        (fun w hw => hless w (List.mem_cons_of_mem _ hw))
        (fun w hw z hz => htrans w (List.mem_cons_of_mem _ hw) z (List.mem_cons_of_mem _ hz))
        hys.2⟩
      rcases List.mem_cons.mp ((perm_insertBackwards x ys).mem_iff.mp hz) with rfl | hz
      · exact hy
      · exact hys.1 z hz
    · next hxy =>
      rw [if_neg hxy]
      refine List.pairwise_cons.mpr ⟨fun z hz => ?_, h⟩
      rcases List.mem_cons.mp hz with rfl | hz'
      · exact hy
      · exact htrans y List.mem_cons_self z hz hy (hys.1 z hz')

/-- Sorting puts elements in an order that goes by `less`, ties by their places. -/
theorem pairwise_stableSort {R : α → α → Prop} {xs : List α}
    (hless : xs.Pairwise fun a b => if less b a then R b a else R a b)
    (htrans : ∀ a ∈ xs, ∀ b ∈ xs, ∀ c ∈ xs, R a b → R b c → R a c) :
    (stableSort less xs).Pairwise R := by
  have hfold : ∀ (rest sorted : List α), (∀ x ∈ rest, x ∈ xs) → (∀ x ∈ sorted, x ∈ xs) →
      rest.Pairwise (fun a b => if less b a then R b a else R a b) →
      (∀ a ∈ sorted, ∀ b ∈ rest, if less b a then R b a else R a b) →
      sorted.Pairwise (fun a b => R b a) →
      (rest.foldl (fun l x => insertBackwards less x l) sorted).Pairwise fun a b => R b a := by
    intro rest
    induction rest with
    | nil => exact fun _ _ _ _ _ hsorted => hsorted
    | cons x rest ih =>
      intro sorted hrest hsub hless hcross hsorted
      rw [List.forall_mem_cons] at hrest
      have hsplit := List.pairwise_cons.mp hless
      have hmem : ∀ y, y ∈ insertBackwards less x sorted ↔ y = x ∨ y ∈ sorted := fun y =>
        (perm_insertBackwards x sorted).mem_iff.trans List.mem_cons
      refine ih _ hrest.2 (fun y hy => ?_) hsplit.2 (fun a ha b hb => ?_)
        (pairwise_insertBackwards (fun y hy => hcross y hy x List.mem_cons_self) ?_ hsorted)
      · rcases (hmem y).mp hy with rfl | hy
        · exact hrest.1
        · exact hsub y hy
      · rcases (hmem a).mp ha with rfl | ha
        · exact hsplit.1 b hb
        · exact hcross a ha b (List.mem_cons_of_mem _ hb)
      · exact fun y hy z hz hyx hzy => htrans z (hsub z hz) y (hsub y hy) x hrest.1 hzy hyx
  rw [stableSort, List.pairwise_reverse]
  exact hfold xs [] (fun _ h => h) (by simp) hless (by simp) .nil

/-- Sorting keeps elements that tie in their order. -/
theorem filter_stableSort {p : α → Bool} {xs : List α}
    (htie : ∀ a ∈ xs, ∀ b ∈ xs, p a = true → p b = true → less a b = false) :
    (stableSort less xs).filter p = xs.filter p := by
  have hinsert : ∀ (x : α) (l : List α), (∀ y ∈ l, p x = true → p y = true → less x y = false) →
      (insertBackwards less x l).filter p = (x :: l).filter p := by
    intro x l
    induction l with
    | nil => exact fun _ => rfl
    | cons y ys ih =>
      intro h
      rw [insertBackwards]
      split
      · next hxy =>
        have hnot : ¬ (p x = true ∧ p y = true) := fun hp => by
          rw [h y List.mem_cons_self hp.1 hp.2] at hxy
          cases hxy
        rw [List.filter_cons, ih fun z hz => h z (List.mem_cons_of_mem _ hz)]
        by_cases hx : p x = true <;> by_cases hy : p y = true <;> simp_all
      · rfl
  have hfold : ∀ (rest sorted : List α), (∀ x ∈ rest, x ∈ xs) → (∀ x ∈ sorted, x ∈ xs) →
      (rest.foldl (fun l x => insertBackwards less x l) sorted).filter p =
        (rest.reverse ++ sorted).filter p := by
    intro rest
    induction rest with
    | nil => exact fun _ _ _ => rfl
    | cons x rest ih =>
      intro sorted hrest hsub
      rw [List.forall_mem_cons] at hrest
      have hmem : ∀ y ∈ insertBackwards less x sorted, y ∈ xs := fun y hy => by
        rcases List.mem_cons.mp ((perm_insertBackwards x sorted).mem_iff.mp hy) with rfl | hy
        · exact hrest.1
        · exact hsub y hy
      rw [List.foldl_cons, ih _ hrest.2 hmem, List.filter_append,
        hinsert x sorted fun y hy => htie x hrest.1 y (hsub y hy), ← List.filter_append,
        List.reverse_cons, List.append_assoc, List.singleton_append]
  rw [stableSort, List.filter_reverse, hfold xs [] (fun _ h => h) (by simp), List.append_nil,
    ← List.filter_reverse, List.reverse_reverse]

end Sorting

/-- A sort order tells documents apart: their positions are different, and comparable. -/
structure Separates (s : SortOrder) (docs : List Document) : Prop where
  signed : ∀ d ∈ docs, ∀ v ∈ s.position d, v.Signed
  distinct : docs.Pairwise fun a b => s.position a ≠ s.position b

variable {s : SortOrder} {docs : List Document}

theorem Separates.filter (h : s.Separates docs) (p : Document → Bool) :
    s.Separates (docs.filter p) :=
  ⟨fun d hd => h.signed d (List.mem_of_mem_filter hd), h.distinct.filter p⟩

theorem Separates.compare_trans (h : s.Separates docs) {a b c : Document} (ha : a ∈ docs)
    (hb : b ∈ docs) (hc : c ∈ docs) (hab : s.compare a b = .lt) (hbc : s.compare b c = .lt) :
    s.compare a c = .lt := by
  rw [compare_eq_comparePositions] at hab hbc ⊢
  exact comparePositions_trans (h.signed a ha) (h.signed b hb) (h.signed c hc) hab hbc

theorem compare_swap (s : SortOrder) (a b : Document) : (s.compare a b).swap = s.compare b a := by
  rw [compare_eq_comparePositions, compare_eq_comparePositions, comparePositions_swap]

theorem compare_self (s : SortOrder) (d : Document) : s.compare d d = .eq := by
  rw [compare_eq_comparePositions, comparePositions_self]

theorem compare_eq_gt_iff (s : SortOrder) (a b : Document) :
    s.compare a b = .gt ↔ s.compare b a = .lt := by
  rw [← compare_swap s b a, Ordering.swap_eq_gt]

theorem Separates.compare_lt_or_lt (h : s.Separates docs) {a b : Document} (ha : a ∈ docs)
    (hb : b ∈ docs) (hne : s.position a ≠ s.position b) :
    s.compare a b = .lt ∨ s.compare b a = .lt := by
  cases hc : s.compare a b with
  | lt => exact Or.inl rfl
  | gt => exact Or.inr ((compare_eq_gt_iff s a b).mp hc)
  | eq =>
    rw [compare_eq_comparePositions] at hc
    exact absurd (eq_of_comparePositions (h.signed a ha) (h.signed b hb) (length_position s a)
      (length_position s b) hc) hne

theorem sort_perm (s : SortOrder) (docs : List Document) : (s.sort docs).Perm docs :=
  perm_stableSort docs

theorem Separates.pairwise_sort (h : s.Separates docs) :
    (s.sort docs).Pairwise fun a b => s.compare a b = .lt := by
  refine pairwise_stableSort (h.distinct.imp_of_mem fun {a b} ha hb hne => ?_)
    fun a ha b hb c hc => h.compare_trans ha hb hc
  rcases h.compare_lt_or_lt ha hb hne with hab | hba
  · rw [← compare_swap, hab, if_neg (by simp)]
  · rw [hba, if_pos (by simp)]

/-- Documents in strict order are the sorted form of whatever they are a permutation of. -/
theorem Separates.sort_eq (h : s.Separates docs) {l : List Document}
    (hl : l.Pairwise fun a b => s.compare a b = .lt) (hperm : l.Perm docs) :
    s.sort docs = l := by
  refine List.Perm.eq_of_pairwise (fun a b _ _ hab hba => ?_) h.pairwise_sort hl
    ((sort_perm s docs).trans hperm.symm)
  rw [← compare_swap s b a, hba] at hab
  cases hab

theorem Separates.sort_filter (h : s.Separates docs) (p : Document → Bool) :
    s.sort (docs.filter p) = (s.sort docs).filter p :=
  (h.filter p).sort_eq (h.pairwise_sort.filter p) ((sort_perm s docs).filter p)

end SortOrder
end Quire
