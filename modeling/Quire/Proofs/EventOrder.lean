import Mathlib.Data.List.Basic

/-!
# The order of events

Events are logged in their order, so that one of them came before another if the two stand in this
order in the log. A log only grows at its end.
-/
namespace Quire.Log

variable {α : Type} {log : List α} {a b e : α}

/-- One event comes before another in a log. -/
def Before (log : List α) (a b : α) : Prop := [a, b].Sublist log

theorem Before.left_mem (h : Before log a b) : a ∈ log := h.subset List.mem_cons_self

theorem Before.right_mem (h : Before log a b) : b ∈ log := h.subset (by simp)

/-- What comes before an event in a longer log came before it, or the event is the new one. -/
theorem before_concat : Before (log ++ [e]) a b ↔ Before log a b ∨ a ∈ log ∧ b = e := by
  constructor
  · intro h
    obtain ⟨front, back, heq, hfront, hback⟩ := List.sublist_append_iff.mp h
    rcases List.sublist_singleton.mp hback with rfl | rfl
    · rw [List.append_nil] at heq
      rw [← heq] at hfront
      exact Or.inl hfront
    · have hends : [a] ++ [b] = front ++ [e] := heq
      obtain ⟨rfl, hlast⟩ := List.append_inj' hends rfl
      exact Or.inr ⟨hfront.subset List.mem_cons_self, (List.cons.inj hlast).1⟩
  · rintro (h | ⟨ha, rfl⟩)
    · exact h.trans (List.sublist_append_left _ _)
    · exact (List.singleton_sublist.mpr ha).append (List.Sublist.refl [b])

/-- The new event comes after all that have been logged. -/
theorem before_last (ha : a ∈ log) (e : α) : Before (log ++ [e]) a e :=
  before_concat.mpr (Or.inr ⟨ha, rfl⟩)

theorem Before.mono {longer : List α} (hlog : log <+: longer) (h : Before log a b) :
    Before longer a b := h.trans hlog.sublist

theorem Before.concat (h : Before log a b) (e : α) : Before (log ++ [e]) a b :=
  h.mono (List.prefix_append _ _)

theorem Before.of_concat (h : Before (log ++ [e]) a b) (hne : b ≠ e) : Before log a b :=
  (before_concat.mp h).resolve_right fun hlast => hne hlast.2

/-- Of two different events one comes before the other. -/
theorem before_or_before (ha : a ∈ log) (hb : b ∈ log) (hne : a ≠ b) :
    Before log a b ∨ Before log b a := by
  obtain ⟨front, back, rfl⟩ := List.append_of_mem ha
  rcases List.mem_append.mp hb with hfront | hback
  · exact Or.inr ((List.singleton_sublist.mpr hfront).append
      (List.singleton_sublist.mpr List.mem_cons_self))
  · have hback : b ∈ back := (List.mem_cons.mp hback).resolve_left hne.symm
    exact Or.inl (((List.singleton_sublist.mpr hback).cons_cons a).trans
      (List.sublist_append_right _ _))

end Quire.Log
