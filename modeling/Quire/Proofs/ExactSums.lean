import Mathlib.Algebra.BigOperators.Group.List.Basic
import Mathlib.Data.List.Infix
import Quire.Proofs.OrderLaws
import Quire.Store.Group

/-!
# Exact sums

The numbers of a group are added from the first document to the last, and the sum stays whole only
as long as every partial sum is in the signed range; from there on it is one of binary64. So a sum
in range can come out exact in one order of the documents and not in another one. There is always
an order in which it is exact. It is exact in every order where both the positive and the negative
numbers alone have sums in range, and where they have not, the order decides.
-/
namespace Quire

open Value

/-! ## Partial sums -/

theorem Value.inSigned64_iff {n : Int} :
    inSigned64 n = true ↔ -(twoPow 63 : Int) ≤ n ∧ n < twoPow 63 := by simp [inSigned64]

section Partial

variable {α : Type} {weight : α → Int}

/-- Adding weights to a start one after another never leaves the signed range. -/
def StaysSigned (weight : α → Int) (start : Int) (xs : List α) : Prop :=
  ∀ p, p <+: xs → inSigned64 (start + (p.map weight).sum) = true

theorem staysSigned_nil (start : Int) :
    StaysSigned weight start [] ↔ inSigned64 start = true := by simp [StaysSigned]

theorem staysSigned_cons (start : Int) (x : α) (xs : List α) :
    StaysSigned weight start (x :: xs) ↔
      inSigned64 start = true ∧ StaysSigned weight (start + weight x) xs := by
  constructor
  · intro h
    refine ⟨by simpa using h [] List.nil_prefix, fun p hp => ?_⟩
    simpa [add_assoc] using h (x :: p) (List.cons_prefix_cons.mpr ⟨rfl, hp⟩)
  · rintro ⟨hstart, h⟩ p hp
    rcases List.prefix_cons_iff.mp hp with rfl | ⟨q, rfl, hq⟩
    · simpa using hstart
    · simpa [add_assoc] using h q hq

/-- The positive weights of a list bound the sum of every part of it from above, the negative ones
from below. -/
theorem sum_sublist_bounds (weight : α → Int) {p xs : List α} (h : p.Sublist xs) :
    ((xs.filter (weight · < 0)).map weight).sum ≤ (p.map weight).sum ∧
      (p.map weight).sum ≤ ((xs.filter (0 < weight ·)).map weight).sum := by
  induction h with
  | slnil => simp
  | cons x h ih =>
    by_cases hnegative : weight x < 0 <;> by_cases hpositive : 0 < weight x <;>
      simp [hnegative, hpositive] <;> omega
  | cons_cons x h ih =>
    by_cases hnegative : weight x < 0 <;> by_cases hpositive : 0 < weight x <;>
      simp [hnegative, hpositive] <;> omega

/-- Where the start and the whole sum are in range, some weight can be added first: otherwise all of
them would go beyond the range on the side of the start, and so would their sum. -/
theorem exists_next {start : Int} {xs : List α} (hne : xs ≠ [])
    (hweights : ∀ x ∈ xs, inSigned64 (weight x) = true) (hstart : inSigned64 start = true)
    (hsum : inSigned64 (start + (xs.map weight).sum) = true) :
    ∃ x ∈ xs, inSigned64 (start + weight x) = true := by
  simp only [inSigned64_iff] at hweights hstart hsum ⊢
  by_contra! hbeyond
  obtain ⟨y, ys, rfl⟩ := List.exists_cons_of_ne_nil hne
  have hbounds := sum_sublist_bounds weight (List.Sublist.refl ys)
  rw [List.map_cons, List.sum_cons] at hsum
  have hfar : ∀ x ∈ y :: ys, (-(twoPow 63 : Int) ≤ weight x ∧ weight x < twoPow 63) ∧
      (-(twoPow 63 : Int) ≤ start + weight x → (twoPow 63 : Int) ≤ start + weight x) :=
    fun x hx => ⟨hweights x hx, hbeyond x hx⟩
  have hy := hfar y List.mem_cons_self
  by_cases hsign : 0 ≤ start
  · have hnone : ys.filter (weight · < 0) = [] := List.filter_eq_nil_iff.mpr fun x hx => by
      have hx := hfar x (List.mem_cons_of_mem _ hx)
      rw [decide_eq_true_eq]
      omega
    rw [hnone, List.map_nil, List.sum_nil] at hbounds
    omega
  · have hnone : ys.filter (0 < weight ·) = [] := List.filter_eq_nil_iff.mpr fun x hx => by
      have hx := hfar x (List.mem_cons_of_mem _ hx)
      rw [decide_eq_true_eq]
      omega
    rw [hnone, List.map_nil, List.sum_nil] at hbounds
    omega

/-- Some order of the weights keeps all partial sums in range. -/
theorem exists_perm_staysSigned {start : Int} {xs : List α}
    (hweights : ∀ x ∈ xs, inSigned64 (weight x) = true) (hstart : inSigned64 start = true)
    (hsum : inSigned64 (start + (xs.map weight).sum) = true) :
    ∃ ys, ys.Perm xs ∧ StaysSigned weight start ys := by
  induction hn : xs.length generalizing start xs with
  | zero =>
    rw [List.length_eq_zero_iff] at hn
    exact ⟨[], hn ▸ .refl _, (staysSigned_nil start).mpr hstart⟩
  | succ n ih =>
    have hne : xs ≠ [] := by
      rintro rfl
      cases hn
    obtain ⟨x, hx, hnext⟩ := exists_next hne hweights hstart hsum
    obtain ⟨before, after, rfl⟩ := List.append_of_mem hx
    have hmiddle : (before ++ x :: after).Perm (x :: (before ++ after)) := List.perm_middle
    have hrest : (((before ++ x :: after).map weight)).sum =
        weight x + ((before ++ after).map weight).sum := by
      rw [(hmiddle.map weight).sum_eq, List.map_cons, List.sum_cons]
    rw [hrest, ← add_assoc] at hsum
    have hlength : (before ++ after).length = n := by
      have := hmiddle.length_eq
      rw [List.length_cons] at this
      omega
    obtain ⟨ys, hperm, hstays⟩ := ih (fun y hy => hweights y
      (hmiddle.mem_iff.mpr (List.mem_cons_of_mem _ hy))) hnext hsum hlength
    exact ⟨x :: ys, (hperm.cons x).trans hmiddle.symm,
      (staysSigned_cons start x ys).mpr ⟨hstart, hstays⟩⟩

/-- All orders keep the partial sums in range exactly if the positive and the negative weights
alone do. -/
theorem forall_perm_staysSigned_iff {xs : List α} :
    (∀ ys, ys.Perm xs → StaysSigned weight 0 ys) ↔
      inSigned64 ((xs.filter (0 < weight ·)).map weight).sum = true ∧
      inSigned64 ((xs.filter (weight · < 0)).map weight).sum = true := by
  constructor
  · intro h
    have hfirst : ∀ p : α → Bool, inSigned64 ((xs.filter p).map weight).sum = true := by
      intro p
      have := h _ (List.filter_append_perm p xs) (xs.filter p) (List.prefix_append _ _)
      rwa [zero_add] at this
    exact ⟨hfirst _, hfirst _⟩
  · rintro ⟨hpositive, hnegative⟩ ys hperm p hp
    have hbounds := sum_sublist_bounds weight hp.sublist
    rw [((hperm.filter _).map weight).sum_eq, ((hperm.filter _).map weight).sum_eq] at hbounds
    rw [inSigned64_iff] at hpositive hnegative ⊢
    omega

end Partial

/-! ## Sums over documents -/

/-- The whole number under a field, as far as it counts in a sum. -/
def summand (field : String) (d : Document) : Int := (d.fieldOrNull field).signed64?.getD 0

/-- The mathematical sum of the whole numbers under a field. -/
def wholeTotal (field : String) (docs : List Document) : Int := (docs.map (summand field)).sum

/-- Whether the numbers under a field are all whole and signed. -/
def AddsWhole (field : String) (docs : List Document) : Prop :=
  ∀ d ∈ docs, isNumber (d.fieldOrNull field) = true →
    (d.fieldOrNull field).signed64?.isSome = true

instance (field : String) (docs : List Document) : Decidable (AddsWhole field docs) :=
  inferInstanceAs (Decidable (∀ d ∈ docs, _ → _))

theorem inSigned64_summand (field : String) (d : Document) :
    inSigned64 (summand field d) = true := by
  rw [summand]
  cases h : (d.fieldOrNull field).signed64? with
  | none => rfl
  | some n => exact (signed64?_eq_some h).2

theorem signed64?_of_not_isNumber {v : Value} (h : isNumber v ≠ true) : v.signed64? = none := by
  cases v with
  | int n => exact absurd rfl h
  | _ => rfl

/-- The numbers of the present values are the numbers of all values. -/
theorem filter_isNumber_presentValues (field : String) (docs : List Document) :
    (presentValues field docs).filter isNumber =
      (docs.map (·.fieldOrNull field)).filter isNumber := by
  rw [presentValues, List.filter_filter]
  refine List.filter_congr fun v _ => ?_
  cases v <;> rfl

/-- Adding stays whole exactly as long as the partial sums stay in range. -/
theorem wholeSum?_eq_some_iff {field : String} {docs : List Document}
    (hwhole : AddsWhole field docs) {start : Int} (hstart : inSigned64 start = true) (n : Int) :
    wholeSum? start ((docs.map (·.fieldOrNull field)).filter isNumber) = some n ↔
      StaysSigned (summand field) start docs ∧ n = start + wholeTotal field docs := by
  induction docs generalizing start with
  | nil => simp [wholeSum?, staysSigned_nil, wholeTotal, hstart, eq_comm]
  | cons d docs ih =>
    rw [AddsWhole, List.forall_mem_cons] at hwhole
    have htotal : wholeTotal field (d :: docs) = summand field d + wholeTotal field docs := by
      rw [wholeTotal, List.map_cons, List.sum_cons, wholeTotal]
    rw [staysSigned_cons, and_iff_right hstart, htotal, ← add_assoc, List.map_cons]
    by_cases hnumber : isNumber (d.fieldOrNull field) = true
    · obtain ⟨m, hm⟩ := Option.isSome_iff_exists.mp (hwhole.1 hnumber)
      have hsummand : summand field d = m := by rw [summand, hm, Option.getD_some]
      rw [List.filter_cons_of_pos hnumber, wholeSum?, hm, hsummand]
      by_cases hrange : inSigned64 (start + m) = true
      · simp only [hrange, if_true]
        exact ih hwhole.2 hrange
      · have hleaves : ¬ StaysSigned (summand field) (start + m) docs := fun h =>
          hrange (by simpa using h [] List.nil_prefix)
        simp [hrange, hleaves]
    · have hsummand : summand field d = 0 := by
        rw [summand, signed64?_of_not_isNumber hnumber, Option.getD_none]
      rw [List.filter_cons_of_neg hnumber, hsummand, add_zero]
      exact ih hwhole.2 hstart

theorem Value.ofFloat?_ne_int (x : Option Binary64) (n : Int) : ofFloat? x ≠ .int n := by
  cases x <;> simp [ofFloat?]

/-- A sum is whole exactly if all its partial sums are in range, and then it is exact. -/
theorem valueOn_sum_eq_int_iff {field : String} {docs : List Document}
    (hwhole : AddsWhole field docs) (n : Int) :
    (Accumulator.sum field).valueOn docs = .int n ↔
      StaysSigned (summand field) 0 docs ∧ n = wholeTotal field docs := by
  have hsum := wholeSum?_eq_some_iff hwhole (show inSigned64 0 = true from rfl) n
  rw [zero_add] at hsum
  rw [← hsum, Accumulator.valueOn, sumOf, filter_isNumber_presentValues]
  cases wholeSum? 0 ((docs.map (·.fieldOrNull field)).filter isNumber) with
  | some m => simp
  | none => simp [Value.ofFloat?_ne_int]

/-- A sum in range: an integer in the order of the documents exactly if all partial sums are in
range, exact in some order, and the same in all orders exactly if the positive and the negative
numbers alone have sums in range. -/
theorem valueOn_sum_of_whole {field : String} {docs : List Document} (hwhole : AddsWhole field docs)
    (hfits : inSigned64 (wholeTotal field docs) = true) :
    (∀ n, (Accumulator.sum field).valueOn docs = .int n ↔
      StaysSigned (summand field) 0 docs ∧ n = wholeTotal field docs) ∧
    (∃ other, other.Perm docs ∧
      (Accumulator.sum field).valueOn other = .int (wholeTotal field docs)) ∧
    ((∀ other, other.Perm docs →
        (Accumulator.sum field).valueOn other = (Accumulator.sum field).valueOn docs) ↔
      inSigned64 (wholeTotal field (docs.filter fun d => 0 < summand field d)) = true ∧
      inSigned64 (wholeTotal field (docs.filter fun d => summand field d < 0)) = true) := by
  have hexact : ∀ {other}, other.Perm docs →
      ((Accumulator.sum field).valueOn other = .int (wholeTotal field docs) ↔
        StaysSigned (summand field) 0 other) := by
    intro other hperm
    have hother : AddsWhole field other := fun d hd => hwhole d (hperm.mem_iff.mp hd)
    have htotal : wholeTotal field docs = wholeTotal field other :=
      ((hperm.map _).sum_eq).symm
    rw [valueOn_sum_eq_int_iff hother, and_iff_left htotal]
  have hrange : inSigned64 (0 + (docs.map (summand field)).sum) = true := by
    rwa [zero_add]
  obtain ⟨best, hbest, hstays⟩ :=
    exists_perm_staysSigned (fun d _ => inSigned64_summand field d) rfl hrange
  have hbestSum := (hexact hbest).mpr hstays
  refine ⟨valueOn_sum_eq_int_iff hwhole, ⟨best, hbest, hbestSum⟩, ?_⟩
  rw [wholeTotal, wholeTotal, ← forall_perm_staysSigned_iff]
  constructor
  · intro h other hperm
    exact (hexact hperm).mp ((h other hperm).trans ((h best hbest).symm.trans hbestSum))
  · intro h other hperm
    exact ((hexact hperm).mpr (h other hperm)).trans
      ((hexact (.refl docs)).mpr (h docs (.refl _))).symm

/-- Three numbers with a sum in range, of which the first two together are beyond it, and a text. -/
def nearLimit : List Document :=
  [[("n", .int 9223372036854775807)], [("n", .int 1)], [("n", .int (-1))], [("n", .str "none")]]

/-- The same documents, the negative number before the positive one. -/
def nearLimitReordered : List Document :=
  [[("n", .int 9223372036854775807)], [("n", .int (-1))], [("n", .int 1)], [("n", .str "none")]]

theorem valueOn_sum_of_whole_nearLimit :
    (∃ other, other.Perm nearLimit ∧
      (Accumulator.sum "n").valueOn other = .int 9223372036854775807) ∧
    ¬ ∀ other, other.Perm nearLimit →
      (Accumulator.sum "n").valueOn other = (Accumulator.sum "n").valueOn nearLimit := by
  have hwhole : AddsWhole "n" nearLimit := by decide
  obtain ⟨-, hsome, hall⟩ := valueOn_sum_of_whole hwhole (by decide)
  exact ⟨hsome, fun h => absurd (hall.mp h).1 (by decide)⟩

/-- An integer sum in range comes out as a rounded number, and in another order as the integer. -/
theorem sum_rounded_nearLimit :
    AddsWhole "n" nearLimit ∧ wholeTotal "n" nearLimit = 9223372036854775807 ∧
      nearLimitReordered.Perm nearLimit ∧
      (Accumulator.sum "n").valueOn nearLimit = .float (.ofInt 9223372036854775808) ∧
      (Accumulator.sum "n").valueOn nearLimitReordered = .int 9223372036854775807 := by
  have hrounded : floatSum? [.ofInt 9223372036854775807, .ofInt 1, .ofInt (-1)] =
      some (.ofInt 9223372036854775808) := by decide +kernel
  refine ⟨by decide, by decide, .cons _ (.swap _ _ _), ?_, rfl⟩
  have hnumbers : (presentValues "n" nearLimit).filter isNumber =
      [.int 9223372036854775807, .int 1, .int (-1)] := rfl
  have hbeyond : wholeSum? 0 [.int 9223372036854775807, .int 1, .int (-1)] = none := rfl
  rw [Accumulator.valueOn, sumOf, hnumbers, hbeyond]
  exact congrArg Value.ofFloat? hrounded

end Quire
