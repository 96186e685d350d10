import Quire.Proofs.NumberedPages

/-!
# Combined filters

The combinators drop, flatten and unwrap their operands, and still mean what their names say: a
conjunction holds where all of its operands do, a disjunction where one of them does. A filter that
is visibly without condition holds everywhere, so that a page may take the number of all documents
for its total; it is the same page as with a counted one.
-/
namespace Quire

/-! ## Lists of filters -/

namespace Filter

theorem holdsAll_iff (d : Document) (fs : List Filter) :
    holdsAll d fs = true ↔ ∀ f ∈ fs, f.holds d = true := by
  induction fs with
  | nil => simp [holdsAll]
  | cons f fs ih => simp [holdsAll, ih]

theorem holdsAny_iff (d : Document) (fs : List Filter) :
    holdsAny d fs = true ↔ ∃ f ∈ fs, f.holds d = true := by
  induction fs with
  | nil => simp [holdsAny]
  | cons f fs ih => simp [holdsAny, ih]

theorem holds_conjunction_iff (d : Document) (fs : List Filter) :
    (conjunction fs).holds d = true ↔ ∀ f ∈ fs, f.holds d = true := by
  rw [holds_conjunction, holdsAll_iff]

theorem holds_disjunction_iff (d : Document) (fs : List Filter) :
    (disjunction fs).holds d = true ↔ ∃ f ∈ fs, f.holds d = true := by
  rw [holds_disjunction, holdsAny_iff]

theorem holds_andAlso_iff (d : Document) (f g : Filter) :
    (f.andAlso g).holds d = true ↔ f.holds d = true ∧ g.holds d = true := by
  rw [holds_andAlso, Bool.and_eq_true]

end Filter

/-! ## Totals -/

variable {σ : Type} (part : Part σ Collection)

theorem Collection.estimate_eq_count {f : Filter} (h : f.isEmpty = true) :
    (reader part).estimate = (reader part).count f :=
  congrArg Action.ofRead (funext fun s => congrArg Except.ok ((part.get s).count_of_isEmpty h).symm)

/-- A page with an estimated total is the page with a counted one. -/
theorem Pager.paginate_eq_counted (settings : PagingSettings) (r : OffsetRequest) :
    (Pager.mk (Collection.reader part) settings).paginate r =
      (Pager.mk (Collection.reader part) { settings with estimatedCount := false }).paginate
        { r with estimatedCount := false } := by
  have htotal : ∀ (estimated : Bool) (page : Nat → Action σ OffsetPage),
      (if r.filter.isEmpty && estimated then (Collection.reader part).estimate >>= page
        else (Collection.reader part).count r.filter >>= page) =
          (Collection.reader part).count r.filter >>= page := by
    intro estimated page
    split
    · next h => rw [Collection.estimate_eq_count part (Bool.and_eq_true_iff.mp h).1]
    · rfl
  simp only [paginate, htotal]
  rfl

/-- The combinators mean what their names say for all operands, and a filter that is visibly
without condition holds everywhere, so that an estimated total is the counted one. -/
theorem combined_filters_hold_iff (fs : List Filter) (f g : Filter) :
    (∀ d, (Filter.conjunction fs).holds d = true ↔ ∀ part ∈ fs, part.holds d = true) ∧
    (∀ d, (Filter.disjunction fs).holds d = true ↔ ∃ part ∈ fs, part.holds d = true) ∧
    (∀ d, (f.andAlso g).holds d = true ↔ f.holds d = true ∧ g.holds d = true) ∧
    (f.isEmpty = true → (∀ d, f.holds d = true) ∧
      (Collection.reader part).estimate = (Collection.reader part).count f) ∧
    ∀ settings r, (Pager.mk (Collection.reader part) settings).paginate r =
      (Pager.mk (Collection.reader part) { settings with estimatedCount := false }).paginate
        { r with estimatedCount := false } :=
  ⟨fun d => Filter.holds_conjunction_iff d fs, fun d => Filter.holds_disjunction_iff d fs,
    fun d => Filter.holds_andAlso_iff d f g,
    fun h => ⟨fun d => f.holds_of_isEmpty d h, Collection.estimate_eq_count part h⟩,
    Pager.paginate_eq_counted part⟩

/-- Conjunctions of nothing within conjunctions, beside the filter without condition. -/
def hollow : Filter := .and [.all, .and [], .and [.all, .and []]]

theorem combined_filters_hold_iff_hollow :
    hollow.isEmpty = true ∧ (∀ d, hollow.holds d = true) ∧
      (Collection.reader Part.whole).estimate = (Collection.reader Part.whole).count hollow := by
  have hempty : hollow.isEmpty = true := rfl
  exact ⟨hempty, (combined_filters_hold_iff Part.whole [hollow] hollow .all).2.2.2.1 hempty⟩

end Quire
