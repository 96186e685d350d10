import Quire.Proofs.OrderLaws
import Quire.Proofs.Positions
import Quire.Store

/-!
# Sorts that go through

A sort goes through where the documents are few and where their comparisons are a total order, and
it is a request's sort that decides whether the request can be answered. Under a total order the
documents come in that order, ties as they were. Ranks represent a total order and nothing else, it
stays one on fewer documents, and values whose numbers binary64 does not blur always have one.
-/
namespace Quire

namespace SortOrder

variable {s : SortOrder} {docs : List Document}

/-! ## Total orders -/

/-- The comparisons of documents do not contradict each other. -/
def TotalOn (s : SortOrder) (docs : List Document) : Prop :=
  ∀ a ∈ docs, ∀ b ∈ docs, ∀ c ∈ docs, (s.compare a b).isLE = true →
    (s.compare b c).isLE = true → (s.compare a c).isLE = true

theorem TotalOn.mono (h : s.TotalOn docs) {part : List Document} (hpart : ∀ d ∈ part, d ∈ docs) :
    s.TotalOn part :=
  fun a ha b hb c hc => h a (hpart a ha) b (hpart b hb) c (hpart c hc)

theorem TotalOn.filter (h : s.TotalOn docs) (p : Document → Bool) : s.TotalOn (docs.filter p) :=
  h.mono fun _ => List.mem_of_mem_filter

theorem isLE_compare_iff (s : SortOrder) (a b : Document) :
    (s.compare a b).isLE = true ↔ s.compare b a ≠ .lt := by
  rw [← compare_swap s b a]
  cases s.compare b a <;> simp

theorem compare_eq_eq_iff (s : SortOrder) (a b : Document) :
    s.compare a b = .eq ↔ (s.compare a b).isLE = true ∧ (s.compare b a).isLE = true := by
  rw [← compare_swap s a b]
  cases s.compare a b <;> simp

theorem TotalOn.lt_of_lt_of_isLE (h : s.TotalOn docs) {a b c : Document} (ha : a ∈ docs)
    (hb : b ∈ docs) (hc : c ∈ docs) (hab : s.compare a b = .lt)
    (hbc : (s.compare b c).isLE = true) : s.compare a c = .lt := by
  by_contra hac
  have hca : (s.compare c a).isLE = true := (isLE_compare_iff s c a).mpr hac
  exact (isLE_compare_iff s b a).mp (h b hb c hc a ha hbc hca) hab

/-! ## Ranks -/

/-- A document that comes before another one has the smaller rank: what comes before the first one
comes before the second one too, and so does the first one itself. -/
theorem TotalOn.rank_lt (h : s.TotalOn docs) {a b : Document} (ha : a ∈ docs) (hb : b ∈ docs)
    (hab : s.compare a b = .lt) : s.rank docs a < s.rank docs b := by
  have hle : ∀ d ∈ docs, s.compare d a = .lt → s.compare d b = .lt := fun d hd hda =>
    h.lt_of_lt_of_isLE hd ha hb hda (by rw [hab]; rfl)
  obtain ⟨front, back, rfl⟩ := List.append_of_mem ha
  have hfront : front.countP (fun d => s.compare d a == .lt) ≤
      front.countP fun d => s.compare d b == .lt :=
    List.countP_mono_left fun d hd => by simpa using hle d (by simp [hd])
  have hback : back.countP (fun d => s.compare d a == .lt) ≤
      back.countP fun d => s.compare d b == .lt :=
    List.countP_mono_left fun d hd => by simpa using hle d (by simp [hd])
  simp only [rank, List.countP_append, List.countP_cons, compare_self, hab]
  simp
  omega

/-- Documents that tie have the same rank. -/
theorem TotalOn.rank_eq (h : s.TotalOn docs) {a b : Document} (ha : a ∈ docs) (hb : b ∈ docs)
    (hab : s.compare a b = .eq) : s.rank docs a = s.rank docs b := by
  obtain ⟨hle, hge⟩ := (compare_eq_eq_iff s a b).mp hab
  refine List.countP_congr fun d hd => ?_
  simp only [beq_iff_eq]
  exact ⟨fun hda => h.lt_of_lt_of_isLE hd ha hb hda hle,
    fun hdb => h.lt_of_lt_of_isLE hd hb ha hdb hge⟩

theorem TotalOn.compare_rank (h : s.TotalOn docs) {a b : Document} (ha : a ∈ docs) (hb : b ∈ docs) :
    s.compare a b = Ord.compare (s.rank docs a) (s.rank docs b) := by
  cases hab : s.compare a b with
  | lt => exact (Nat.compare_eq_lt.mpr (h.rank_lt ha hb hab)).symm
  | eq => exact (Nat.compare_eq_eq.mpr (h.rank_eq ha hb hab)).symm
  | gt =>
    exact (Nat.compare_eq_gt.mpr (h.rank_lt hb ha ((compare_eq_gt_iff s a b).mp hab))).symm

theorem agreesOn_iff_forall :
    s.agreesOn docs = true ↔ ∀ a ∈ docs, ∀ b ∈ docs,
      s.compare a b = Ord.compare (s.rank docs a) (s.rank docs b) := by
  simp [agreesOn, List.all_eq_true]

/-- Documents compare as their ranks do exactly if the comparisons are a total order. -/
theorem agreesOn_iff : s.agreesOn docs = true ↔ s.TotalOn docs := by
  rw [agreesOn_iff_forall]
  refine ⟨fun h a ha b hb c hc hab hbc => ?_, fun h a ha b hb => h.compare_rank ha hb⟩
  rw [h a ha b hb, Nat.isLE_compare] at hab
  rw [h b hb c hc, Nat.isLE_compare] at hbc
  rw [h a ha c hc, Nat.isLE_compare]
  exact hab.trans hbc

/-! ## Sorting under a total order -/

theorem canSort_iff :
    s.canSort docs = true ↔ docs.length ≤ insertionLimit ∨ s.TotalOn docs := by
  rw [canSort, Bool.or_eq_true, decide_eq_true_iff, agreesOn_iff]

theorem TotalOn.canSort (h : s.TotalOn docs) : s.canSort docs = true := canSort_iff.mpr (Or.inr h)

/-- Fewer documents can be sorted where more of them can. -/
theorem canSort_filter (h : s.canSort docs = true) (p : Document → Bool) :
    s.canSort (docs.filter p) = true := by
  rw [canSort_iff] at h ⊢
  exact h.imp (fun hfew => (List.length_filter_le _ _).trans hfew) fun htotal => htotal.filter p

/-- Under a total order, a sort returns the documents in that order, and ties as they were. -/
theorem TotalOn.sorted_eq (h : s.TotalOn docs) :
    s.sorted docs = .ok (s.sort docs) ∧ (s.sort docs).Perm docs ∧
      ((s.sort docs).Pairwise fun a b => (s.compare a b).isLE = true) ∧
      ∀ a ∈ docs, ((s.sort docs).filter fun d => s.compare a d == .eq) =
        docs.filter fun d => s.compare a d == .eq := by
  refine ⟨if_pos h.canSort, sort_perm s docs, pairwise_stableSort ?_ h, fun a ha => ?_⟩
  · refine List.pairwise_of_forall fun a b => ?_
    split
    · next hba => rw [beq_iff_eq.mp hba]; rfl
    · next hba => exact (isLE_compare_iff s a b).mpr fun h => hba (beq_iff_eq.mpr h)
  · refine filter_stableSort fun b hb c hc hab hac => ?_
    rw [beq_iff_eq] at hab hac
    have hba := ((compare_eq_eq_iff s a b).mp hab).2
    have hac' := (compare_eq_eq_iff s a c).mp hac
    have hcb := h c hc a ha b hb hac'.2 ((compare_eq_eq_iff s a b).mp hab).1
    exact beq_eq_false_iff_ne.mpr ((isLE_compare_iff s c b).mp hcb)

/-! ## Orders that are total -/

theorem tied_orient (d : Direction) {u v w : Value}
    (h : ∀ x ∈ [u, v, w], ∀ y ∈ [u, v, w], ∀ z ∈ [u, v, w],
      Value.Tied (x.compare y) (y.compare z) (z.compare x)) :
    Value.Tied (d.orient (u.compare v)) (d.orient (v.compare w)) (d.orient (w.compare u)) := by
  cases d with
  | asc => exact h u (by simp) v (by simp) w (by simp)
  | desc =>
    -- Downwards the ring is run through in the other direction.
    simp only [Direction.orient, Value.compare_swap]
    intro hvu hwv huw
    obtain ⟨h1, h2, h3⟩ := h v (by simp) u (by simp) w (by simp) hvu huw hwv
    exact ⟨h1, h3, h2⟩

theorem compareBy_cons (a b : Document) (f : SortField) (fs : List SortField) :
    compareBy a b (f :: fs) =
      (f.direction.orient ((a.fieldOrNull f.field).compare (b.fieldOrNull f.field))).then
        (compareBy a b fs) := by
  rw [compareBy]
  cases (a.fieldOrNull f.field).compare (b.fieldOrNull f.field) <;> cases f.direction <;> rfl

/-- Three documents with values that do not contradict each other are not before one another in a
ring. -/
theorem tied_compareBy {p : Value → Bool} (hp : Value.Separates p) {a b c : Document}
    {fs : List SortField}
    (h : ∀ d ∈ [a, b, c], ∀ f ∈ fs, (d.fieldOrNull f.field).every p = true) :
    Value.Tied (compareBy a b fs) (compareBy b c fs) (compareBy c a fs) := by
  induction fs with
  | nil => exact fun _ _ _ => ⟨rfl, rfl, rfl⟩
  | cons f fs ih =>
    have hvalues : ∀ v ∈ [a.fieldOrNull f.field, b.fieldOrNull f.field, c.fieldOrNull f.field],
        v.every p = true := by
      intro v hv
      simp only [List.mem_cons, List.not_mem_nil, or_false] at hv
      rcases hv with rfl | rfl | rfl
      · exact h a (by simp) f List.mem_cons_self
      · exact h b (by simp) f List.mem_cons_self
      · exact h c (by simp) f List.mem_cons_self
    simp only [compareBy_cons]
    exact (tied_orient f.direction fun x hx y hy z hz =>
      hp.tied (hvalues x hx) (hvalues y hy) (hvalues z hz)).then
        (ih fun d hd g hg => h d hd g (List.mem_cons_of_mem _ hg))

/-- Documents are in a total order if no third number ties with two different whole numbers among
their sort values. -/
theorem totalOn_of_every {p : Value → Bool} (hp : Value.Separates p)
    (h : ∀ d ∈ docs, ∀ v ∈ s.position d, v.every p = true) : s.TotalOn docs := by
  intro a ha b hb c hc hab hbc
  by_contra hac
  have hca : (s.compare c a).isLE = true := by
    rw [isLE_compare_iff]
    intro h
    rw [h] at hac
    exact hac rfl
  have hvalues : ∀ d ∈ [a, b, c], ∀ f ∈ s.fields, (d.fieldOrNull f.field).every p = true := by
    intro d hd f hf
    have hmem : d ∈ docs := by
      simp only [List.mem_cons, List.not_mem_nil, or_false] at hd
      rcases hd with rfl | rfl | rfl <;> assumption
    exact h d hmem _ (List.mem_map_of_mem (List.mem_map_of_mem hf))
  obtain ⟨-, -, htie⟩ := tied_compareBy hp hvalues hab hbc hca
  have htie' : s.compare c a = .eq := htie
  rw [← compare_swap, htie'] at hac
  exact hac rfl

theorem totalOn_of_signed (h : ∀ d ∈ docs, ∀ v ∈ s.position d, v.Signed) : s.TotalOn docs := by
  refine totalOn_of_every (p := Value.isSigned64) (fun x y z hx hy hz _ _ hxz hyz => ?_) h
  have hxz' := Value.Signed.eq_of_compare (a := .int x) hx hz (beq_iff_eq.mp hxz)
  have hyz' := Value.Signed.eq_of_compare (a := .int y) hy hz (beq_iff_eq.mp hyz)
  exact Value.int.inj (hxz'.trans hyz'.symm)

end SortOrder

/-! ## Requests that can be answered -/

namespace Collection

variable (c : Collection)

theorem canSort_iff (f : Filter) (s : SortOrder) :
    c.canSort f s = true ↔ c.count f ≤ SortOrder.insertionLimit ∨
      s.TotalOn (c.docs.filter fun d => f.holds d) := SortOrder.canSort_iff

/-- A narrower filter leaves the documents sortable. -/
theorem canSort_of_imp {f narrow : Filter} {s : SortOrder}
    (hfilter : ∀ d, narrow.holds d = true → f.holds d = true) (h : c.canSort f s = true) :
    c.canSort narrow s = true := by
  have hdocs : (c.docs.filter fun d => narrow.holds d) =
      (c.docs.filter fun d => f.holds d).filter fun d => narrow.holds d := by
    rw [List.filter_filter]
    refine List.filter_congr fun d _ => ?_
    rw [Bool.eq_iff_iff, Bool.and_eq_true]
    exact ⟨fun hd => ⟨hd, hfilter d hd⟩, And.left⟩
  rw [canSort, hdocs]
  exact SortOrder.canSort_filter h _

variable {c}

/-- A request can be answered exactly if few documents match or their comparisons are a total
order. -/
theorem find_isOk_iff (q : FindQuery) :
    (∃ rows, c.find q = .ok rows) ↔ c.count q.filter ≤ SortOrder.insertionLimit ∨
      q.sort.TotalOn (c.docs.filter fun d => q.filter.holds d) := by
  rw [← canSort_iff, find]
  split
  · next h => exact iff_of_true ⟨_, rfl⟩ h
  · next h => exact iff_of_false (by rintro ⟨_, hrows⟩; cases hrows) h

end Collection
end Quire
