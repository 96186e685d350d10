import Mathlib.Data.List.TakeWhile
import Quire.Keyset
import Quire.Proofs.Positions

/-!
# Keyset orders and the rows after a position

The combinators of filters mean what their names say. A keyset order names the identifier once, at
its end, and the filter that it builds for a position holds of a document exactly when the base
filter does and the document stands strictly after the position.
-/
namespace Quire

/-! ## Combinators -/

namespace Filter

theorem holdsAll_append (d : Document) (fs gs : List Filter) :
    holdsAll d (fs ++ gs) = (holdsAll d fs && holdsAll d gs) := by
  induction fs with
  | nil => rfl
  | cons f fs ih => rw [List.cons_append, holdsAll, holdsAll, ih, Bool.and_assoc]

theorem holdsAll_conjuncts (d : Document) (fs : List Filter) :
    holdsAll d (conjuncts fs) = holdsAll d fs := by
  induction fs with
  | nil => rfl
  | cons f fs ih =>
    cases f with
    | all => rw [conjuncts, ih, holdsAll, holds, Bool.true_and]
    | and parts => rw [conjuncts, holdsAll_append, ih, holdsAll, holds]
    | _ => rw [conjuncts, holdsAll, holdsAll, ih] <;> simp

theorem holds_conjunction (d : Document) (fs : List Filter) :
    holds d (conjunction fs) = holdsAll d fs := by
  rw [← holdsAll_conjuncts, conjunction]
  split
  · next h => rw [h, holds, holdsAll]
  · next f h => rw [h, holdsAll, holdsAll, Bool.and_true]
  · rw [holds]

theorem holdsAny_eq_true_of_isAll (d : Document) {fs : List Filter} (h : fs.any isAll = true) :
    holdsAny d fs = true := by
  induction fs with
  | nil => cases h
  | cons f fs ih =>
    rw [List.any_cons, Bool.or_eq_true] at h
    rw [holdsAny, Bool.or_eq_true]
    refine h.imp (fun hf => ?_) ih
    cases f with
    | all => rfl
    | _ => cases hf

theorem holds_disjunction (d : Document) (fs : List Filter) :
    holds d (disjunction fs) = holdsAny d fs := by
  unfold disjunction
  split
  · next h => rw [holds, holdsAny_eq_true_of_isAll d h]
  · split
    · rw [holdsAny, holdsAny, Bool.or_false]
    · rw [holds]

theorem holds_andAlso (d : Document) (f g : Filter) :
    holds d (f.andAlso g) = (holds d f && holds d g) := by
  rw [andAlso, holds_conjunction, holdsAll, holdsAll, holdsAll, Bool.and_true]

mutual
/-- A filter that is visibly without condition holds of every document. -/
theorem holds_of_isEmpty (d : Document) : ∀ {f : Filter}, f.isEmpty = true → holds d f = true
  | .all, _ => rfl
  | .and parts, h => by
    rw [isEmpty] at h
    rw [holds]
    exact holdsAll_of_areEmpty d h

/-- All of them hold where all are visibly without condition. -/
theorem holdsAll_of_areEmpty (d : Document) :
    ∀ {fs : List Filter}, areEmpty fs = true → holdsAll d fs = true
  | [], _ => rfl
  | f :: fs, h => by
    rw [areEmpty, Bool.and_eq_true] at h
    rw [holdsAll, holds_of_isEmpty d h.1, holdsAll_of_areEmpty d h.2, Bool.true_and]
end

end Filter

namespace SortOrder

/-! ## The rows after a position -/

theorem holds_beyond (d : Document) (f : SortField) (v : Value) :
    (beyond f v).holds d = (f.direction.orient ((d.fieldOrNull f.field).compare v) == .gt) := by
  rw [beyond]
  cases f.direction <;> cases h : (d.fieldOrNull f.field).compare v <;>
    simp [Filter.holds, Relation.holds, Direction.orient, h]

theorem comparePositions_cons_eq_gt (f : SortField) (fs : List SortField) (v w : Value)
    (vs ws : List Value) :
    (comparePositions (f :: fs) (v :: vs) (w :: ws) == .gt) =
      (f.direction.orient (v.compare w) == .gt ||
        (v.compare w == .eq && comparePositions fs vs ws == .gt)) := by
  rw [comparePositions]
  cases hvw : v.compare w <;> cases f.direction <;> simp [Direction.orient]

/-- One of the alternatives holds exactly when what came before holds and the document lies beyond
the values in the order of their fields. -/
theorem holdsAny_afterBranches (d : Document) (before : List Filter) (fs : List SortField)
    (vs : List Value) :
    Filter.holdsAny d (afterBranches before (fs.zip vs)) =
      (Filter.holdsAll d before &&
        comparePositions fs (fs.map fun f => d.fieldOrNull f.field) vs == .gt) := by
  induction fs generalizing before vs with
  | nil => simp [afterBranches, Filter.holdsAny, comparePositions]
  | cons f fs ih =>
    cases vs with
    | nil => simp [afterBranches, Filter.holdsAny, comparePositions]
    | cons v vs =>
      rw [List.zip_cons_cons, afterBranches, Filter.holdsAny, ih, List.map_cons,
        comparePositions_cons_eq_gt, Filter.holds_conjunction, Filter.holdsAll_append,
        Filter.holdsAll_append, Filter.holdsAll, Filter.holdsAll, Filter.holdsAll, Filter.holdsAll,
        holds_beyond, Filter.holds, Relation.holds]
      simp only [Bool.and_true, Bool.and_assoc]
      exact (Bool.and_or_distrib_left _ _ _).symm

theorem holds_after {s : SortOrder} {base f : Filter} {values : List Value} {id : Value}
    {idField : String} (h : s.after base values id idField = .ok f) (d : Document) :
    f.holds d = (base.holds d &&
      comparePositions s.fields (s.position d) (values ++ [id]) == .gt) := by
  rw [after] at h
  split at h
  · cases h
  split at h
  · cases h
  cases h
  rw [Filter.holds_andAlso, Filter.holds_disjunction, holdsAny_afterBranches, Filter.holdsAll,
    Bool.true_and, position, names, List.map_map]
  rfl

theorem holds_of_after {s : SortOrder} {base f : Filter} {values : List Value} {id : Value}
    {idField : String} (h : s.after base values id idField = .ok f) {d : Document}
    (hd : f.holds d = true) : base.holds d = true := by
  rw [holds_after h, Bool.and_eq_true] at hd
  exact hd.1

/-! ## Keyset orders -/

/-- A sort order names the identifier once, at its end. -/
def EndsWith (s : SortOrder) (idField : String) : Prop :=
  ∃ (init : List SortField) (direction : Direction),
    s.fields = init ++ [⟨idField, direction⟩] ∧ ∀ f ∈ init, f.field ≠ idField

theorem endsWith_endWith (idField : String) (fields : List SortField) :
    EndsWith ⟨endWith idField fields⟩ idField := by
  rw [EndsWith, endWith]
  split
  · next h =>
    obtain ⟨f, hf⟩ : ∃ f, fields.find? (·.field == idField) = some f :=
      Option.isSome_iff_exists.mp (by simpa using h)
    have hname : f.field = idField := by simpa using List.find?_some hf
    have hlast : (fields.find? (·.field == idField)).toList = [⟨idField, f.direction⟩] := by
      rw [hf, ← hname]
      rfl
    refine ⟨_, f.direction, by rw [hlast], fun g hg => ?_⟩
    simpa using List.mem_takeWhile_imp hg
  · next h => exact ⟨fields, _, rfl, by simpa using h⟩

theorem endsWith_forKeyset {s n : SortOrder} {idField : String}
    (h : s.forKeyset idField = .ok n) : n.EndsWith idField := by
  rw [forKeyset] at h
  split at h
  · cases h
  · cases hf : distinctFields [] s.fields with
    | error e => rw [hf] at h; cases h
    | ok fields =>
      rw [hf] at h
      cases h
      exact endsWith_endWith idField fields

theorem ne_empty_of_forKeyset {s n : SortOrder} {idField : String}
    (h : s.forKeyset idField = .ok n) : s.isEmpty = false := by
  rw [forKeyset] at h
  split at h
  · cases h
  · next hs => simpa using hs

namespace EndsWith

variable {s : SortOrder} {idField : String}

theorem getLast? (h : s.EndsWith idField) :
    s.fields.getLast?.map (·.field) = some idField := by
  obtain ⟨init, direction, hfields, -⟩ := h
  rw [hfields, List.getLast?_concat]
  rfl

theorem names_eq (h : s.EndsWith idField) :
    s.names = s.names.filter (· != idField) ++ [idField] := by
  obtain ⟨init, direction, hfields, hinit⟩ := h
  have hkeep : (init.map (·.field)).filter (· != idField) = init.map (·.field) := by
    rw [List.filter_eq_self]
    simpa using hinit
  simp [names, hfields, hkeep]

theorem length_names_filter (h : s.EndsWith idField) :
    (s.names.filter (· != idField)).length + 1 = s.fields.length := by
  have hlen := congrArg List.length h.names_eq
  simpa [names] using hlen.symm

theorem fields_ne_nil (h : s.EndsWith idField) : s.fields ≠ [] := by
  obtain ⟨init, direction, hfields, -⟩ := h
  rw [hfields]
  exact List.concat_ne_nil _ _

theorem primary?_isSome (h : s.EndsWith idField) : ∃ name, s.primary? = some name := by
  obtain ⟨f, fs, hfields⟩ := List.exists_cons_of_ne_nil h.fields_ne_nil
  rw [primary?, hfields]
  exact ⟨_, rfl⟩

/-- The filter after a position is built wherever the number of values is right. -/
theorem after_isOk (h : s.EndsWith idField) (base : Filter) {values : List Value} (id : Value)
    (hlen : values.length + 1 = s.fields.length) :
    ∃ f, s.after base values id idField = .ok f := by
  rw [after, if_neg (by simpa using h.getLast?), if_neg (by simpa using hlen)]
  exact ⟨_, rfl⟩

end EndsWith

end SortOrder
end Quire
