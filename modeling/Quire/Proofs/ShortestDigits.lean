import Mathlib.Algebra.Order.Field.Power
import Mathlib.Algebra.Order.Ring.Rat
import Mathlib.Tactic.FieldSimp
import Mathlib.Tactic.Positivity
import Quire.Number.Shortest
import Quire.Proofs.Decimal
import Quire.Proofs.Rounding

/-!
# Where the shortest digits lie

The search for the shortest decimal of a magnitude ends at a grid of at most eighteen digits. What
it finds there is positive and does not lie beyond the magnitude's interval.
-/
namespace Quire.Binary64

open Text (decimal decimalDigits)

theorem one_pos : 0 < one := twoPow_pos 1074

/-! ## The leading power -/

theorem length_decimal (n : Nat) : (decimal n).length = (decimalDigits n).length := by
  rw [Text.decimal_eq_map, List.length_map]

theorem exists_length_decimal {n : Nat} (h : n ≠ 0) :
    ∃ l, (decimal n).length = l + 1 ∧ tenPow l ≤ n ∧ n < tenPow (l + 1) := by
  obtain ⟨hlow, hhigh⟩ := Text.tenPow_le_of_digits h
  obtain ⟨d, ds, heq, -⟩ := Text.exists_decimalDigits_eq_cons n
  refine ⟨ds.length, ?_, ?_, ?_⟩
  · simp [length_decimal, heq]
  · simpa [heq] using hlow
  · simpa [heq] using hhigh

theorem cast_tenPow (n : Nat) : ((tenPow n : Nat) : ℚ) = 10 ^ n := by
  have hpow : tenPow n = 10 ^ n := rfl
  rw [hpow]
  push_cast
  rfl

theorem leadingPower_of_le {num den : Nat} (hden : 0 < den) (hle : den ≤ num) :
    (10 : ℚ) ^ leadingPower num den * den ≤ num ∧
      (num : ℚ) < 10 ^ (leadingPower num den + 1) * den := by
  have hquot : num / den ≠ 0 := (Nat.div_pos hle hden).ne'
  obtain ⟨l, hlength, hlow, hhigh⟩ := exists_length_decimal hquot
  have hpower : leadingPower num den = (l : Int) := by
    rw [leadingPower, if_pos hle, hlength]
    omega
  have hnext : (l : Int) + 1 = ((l + 1 : Nat) : Int) := by omega
  rw [hpower, hnext, zpow_natCast, zpow_natCast, ← cast_tenPow, ← cast_tenPow]
  constructor
  · exact_mod_cast (Nat.le_div_iff_mul_le hden).mp hlow
  · exact_mod_cast (Nat.div_lt_iff_lt_mul hden).mp hhigh

/-- Below one the digits of the reciprocal count, and a power of ten is its own leading power. -/
theorem leadingPower_of_lt {num den : Nat} (hnum : 0 < num) (hlt : num < den) :
    (10 : ℚ) ^ leadingPower num den * den ≤ num ∧
      (num : ℚ) < 10 ^ (leadingPower num den + 1) * den := by
  have hquot : den / num ≠ 0 := (Nat.div_pos hlt.le hnum).ne'
  obtain ⟨l, hlength, hlow, hhigh⟩ := exists_length_decimal hquot
  have hlow' : tenPow l * num ≤ den := (Nat.le_div_iff_mul_le hnum).mp hlow
  have hhigh' : den < tenPow (l + 1) * num := (Nat.div_lt_iff_lt_mul hnum).mp hhigh
  have hten : (0 : ℚ) < 10 ^ l := by positivity
  unfold leadingPower
  simp only [if_neg (Nat.not_le.mpr hlt), hlength, Nat.add_sub_cancel]
  by_cases hexact : num * tenPow l = den
  · have hpower : -(((l + 1 : Nat) : Int) - 1) = -(l : Int) := by omega
    have hden' : (den : ℚ) = num * 10 ^ l := by
      rw [← hexact, Nat.cast_mul, cast_tenPow]
    have hnum' : (0 : ℚ) < num := by exact_mod_cast hnum
    rw [if_pos hexact, hpower, zpow_add₀ (by norm_num), zpow_neg, zpow_natCast, zpow_one, hden']
    constructor
    · apply le_of_eq
      field_simp
    · field_simp
      linarith
  · have hpower : -((l + 1 : Nat) : Int) + 1 = -(l : Int) := by omega
    have hstrict : num * tenPow l < den := by
      rw [Nat.mul_comm] at hlow'
      exact lt_of_le_of_ne hlow' hexact
    rw [if_neg hexact, hpower, zpow_neg, zpow_neg, zpow_natCast, zpow_natCast]
    constructor
    · rw [inv_mul_le_iff₀ (by positivity), ← cast_tenPow]
      exact_mod_cast hhigh'.le
    · rw [lt_inv_mul_iff₀ hten, mul_comm, ← cast_tenPow]
      exact_mod_cast hstrict

/-- The leading power of ten is the largest that does not exceed the quotient. -/
theorem leadingPower_spec {num den : Nat} (hnum : 0 < num) (hden : 0 < den) :
    (10 : ℚ) ^ leadingPower num den * den ≤ num ∧
      (num : ℚ) < 10 ^ (leadingPower num den + 1) * den := by
  by_cases hle : den ≤ num
  · exact leadingPower_of_le hden hle
  · exact leadingPower_of_lt hnum (Nat.not_le.mp hle)

/-! ## Points of a grid -/

namespace Basin

variable {b : Basin} {tie : Tie} {up down c : Nat}

theorem le_of_holds {num den : Nat} (h : b.holds num den = true) : num ≤ b.high * den := by
  unfold holds at h
  split at h
  · simp only [Bool.and_eq_true, decide_eq_true_eq] at h
    exact h.2
  · simp only [Bool.and_eq_true, decide_eq_true_eq] at h
    exact h.2.le

theorem pick_eq_or_eq (tie : Tie) (c : Nat) : tie.pick c = c ∨ tie.pick c = c + 1 := by
  cases tie with
  | toEven =>
    simp only [Tie.pick]
    omega
  | up => exact Or.inr rfl

/-- A point that is found is one of the two neighbours of the middle, and lies in the interval. -/
theorem eq_or_eq_of_gridPoint? (h : b.gridPoint? tie up down = some c) :
    (c = b.mid * down / up ∨ c = b.mid * down / up + 1) ∧ b.holds (c * up) down = true := by
  unfold gridPoint? at h
  generalize b.mid * down / up = k at h ⊢
  by_cases hk : b.holds (k * up) down = true
  · by_cases hk' : b.holds ((k + 1) * up) down = true
    · simp only [hk, hk', Bool.and_self, if_true, Option.some.injEq] at h
      have hc : c = k ∨ c = k + 1 := by
        rw [← h]
        split_ifs
        · exact Or.inl rfl
        · exact Or.inr rfl
        · exact pick_eq_or_eq tie k
      refine ⟨hc, ?_⟩
      rcases hc with rfl | rfl
      · exact hk
      · exact hk'
    · simp only [hk, hk', Bool.and_false, Bool.false_eq_true, if_false, if_true,
        Option.some.injEq] at h
      exact ⟨Or.inl h.symm, h ▸ hk⟩
  · by_cases hk' : b.holds ((k + 1) * up) down = true
    · simp only [hk, hk', Bool.and_true, Bool.false_eq_true, if_false, if_true,
        Option.some.injEq] at h
      exact ⟨Or.inr h.symm, h ▸ hk'⟩
    · simp [hk, hk'] at h

/-- Such a point is not beyond the end, and within a step of the middle. -/
theorem of_gridPoint? (hup : 0 < up) (h : b.gridPoint? tie up down = some c) :
    c * up ≤ b.high * down ∧ b.mid * down < (c + 1) * up ∧ c * up ≤ b.mid * down + up := by
  obtain ⟨hc, hin⟩ := eq_or_eq_of_gridPoint? h
  have hbelow : b.mid * down / up * up ≤ b.mid * down := Nat.div_mul_le_self _ _
  have habove : b.mid * down < (b.mid * down / up + 1) * up := by
    rw [Nat.mul_comm _ up]
    exact Nat.lt_mul_div_succ _ hup
  refine ⟨le_of_holds hin, ?_, ?_⟩
  · rcases hc with rfl | rfl
    · exact habove
    · calc b.mid * down < (b.mid * down / up + 1) * up := habove
        _ ≤ (b.mid * down / up + 1 + 1) * up := Nat.mul_le_mul_right _ (Nat.le_succ _)
  · rcases hc with rfl | rfl
    · omega
    · rw [Nat.add_mul, Nat.one_mul]
      omega

/-- A grid finer than the upper half of the interval has a point in it. -/
theorem isSome_gridPoint? (hup : 0 < up) (hlow : b.low ≤ b.mid)
    (hgap : b.mid * down + up < b.high * down) : (b.gridPoint? tie up down).isSome = true := by
  have hbelow : b.mid * down / up * up ≤ b.mid * down := Nat.div_mul_le_self _ _
  have habove : b.mid * down < (b.mid * down / up + 1) * up := by
    rw [Nat.mul_comm _ up]
    exact Nat.lt_mul_div_succ _ hup
  have hstart : b.low * down ≤ b.mid * down := Nat.mul_le_mul_right _ hlow
  have hin : b.holds ((b.mid * down / up + 1) * up) down = true := by
    unfold holds
    rw [Nat.add_mul, Nat.one_mul] at habove ⊢
    split
    · simp only [Bool.and_eq_true, decide_eq_true_eq]
      omega
    · simp only [Bool.and_eq_true, decide_eq_true_eq]
      omega
  unfold gridPoint?
  by_cases hk : b.holds (b.mid * down / up * up) down = true
  · simp [hk, hin]
  · simp [hk, hin]

/-- The point of the grid of a power of ten. -/
def gridAt? (b : Basin) (tie : Tie) (step : Int) : Option Nat :=
  if step < 0 then b.gridPoint? tie (2 * one) (tenPow step.natAbs)
  else b.gridPoint? tie (2 * one * tenPow step.natAbs) 1

/-- The step of that grid as a quotient. -/
theorem exists_gridAt?_eq (b : Basin) (tie : Tie) (step : Int) :
    ∃ up down : Nat, 0 < up ∧ 0 < down ∧ b.gridAt? tie step = b.gridPoint? tie up down ∧
      (up : ℚ) = 10 ^ step * (2 * one) * down := by
  have hone := one_pos
  by_cases hstep : step < 0
  · refine ⟨2 * one, tenPow step.natAbs, by omega, tenPow_pos _, by rw [gridAt?, if_pos hstep], ?_⟩
    obtain ⟨n, rfl⟩ : ∃ n : Nat, step = -n := ⟨step.natAbs, by omega⟩
    have hpos : (0 : ℚ) < 10 ^ n := by positivity
    rw [Int.natAbs_neg, Int.natAbs_natCast, cast_tenPow, zpow_neg, zpow_natCast]
    field_simp
    push_cast
    ring
  · refine ⟨2 * one * tenPow step.natAbs, 1, Nat.mul_pos (by omega) (tenPow_pos _), by decide,
      by rw [gridAt?, if_neg hstep], ?_⟩
    obtain ⟨n, rfl⟩ : ∃ n : Nat, step = n := ⟨step.natAbs, by omega⟩
    rw [Int.natAbs_natCast, zpow_natCast]
    push_cast
    rw [cast_tenPow]
    ring

theorem of_gridAt? {step : Int} (h : b.gridAt? tie step = some c) :
    (c : ℚ) * (10 ^ step * (2 * one)) ≤ b.high ∧
      (b.mid : ℚ) < (c + 1) * (10 ^ step * (2 * one)) ∧
      (c : ℚ) * (10 ^ step * (2 * one)) ≤ b.mid + 10 ^ step * (2 * one) := by
  obtain ⟨up, down, hup, hdown, heq, hstep⟩ := exists_gridAt?_eq b tie step
  rw [heq] at h
  obtain ⟨hhigh, hbelow, habove⟩ := of_gridPoint? hup h
  have hdown' : (0 : ℚ) < down := by exact_mod_cast hdown
  have hhigh' : (c : ℚ) * up ≤ b.high * down := by exact_mod_cast hhigh
  have hbelow' : (b.mid : ℚ) * down < (c + 1) * up := by exact_mod_cast hbelow
  have habove' : (c : ℚ) * up ≤ b.mid * down + up := by exact_mod_cast habove
  rw [hstep] at hhigh' hbelow' habove'
  refine ⟨le_of_mul_le_mul_right ?_ hdown', lt_of_mul_lt_mul_right ?_ hdown'.le,
    le_of_mul_le_mul_right ?_ hdown'⟩
  · linarith
  · linarith
  · linarith

theorem isSome_gridAt? {step : Int} (hlow : b.low ≤ b.mid)
    (hgap : (b.mid : ℚ) + 10 ^ step * (2 * one) < b.high) :
    (b.gridAt? tie step).isSome = true := by
  obtain ⟨up, down, hup, hdown, heq, hstep⟩ := exists_gridAt?_eq b tie step
  have hdown' : (0 : ℚ) < down := by exact_mod_cast hdown
  have hgap' : (b.mid : ℚ) * down + up < b.high * down := by
    rw [hstep]
    nlinarith
  rw [heq]
  exact isSome_gridPoint? hup hlow (by exact_mod_cast hgap')

/-! ## The search -/

theorem shortest_succ (b : Basin) (tie : Tie) (power : Int) (fuel n : Nat) :
    b.shortest tie power (fuel + 1) n =
      match b.gridAt? tie (power - n) with
      | some c => (c, power - n)
      | none => b.shortest tie power fuel (n + 1) := rfl

/-- The search returns a point of one of the grids up to the first that is known to have one. -/
theorem of_shortest {power : Int} {fuel n m : Nat} (hnm : n ≤ m) (hfuel : m < n + fuel)
    (hsome : (b.gridAt? tie (power - m)).isSome = true) :
    ∃ j, j ≤ m ∧ (b.shortest tie power fuel n).2 = power - j ∧
      b.gridAt? tie (power - j) = some (b.shortest tie power fuel n).1 := by
  induction fuel generalizing n with
  | zero => omega
  | succ fuel ih =>
    rw [shortest_succ]
    cases hfound : b.gridAt? tie (power - n) with
    | some c => exact ⟨n, hnm, rfl, hfound⟩
    | none =>
      have hne : n ≠ m := by
        intro heq
        rw [heq] at hfound
        simp [hfound] at hsome
      exact ih (by omega) (by omega)

end Basin

/-! ## Magnitudes -/

theorem low_le_mid (rank : Nat) : (basin rank).low ≤ (basin rank).mid := by
  have hmono : unitsOfRank (rank - 1) ≤ unitsOfRank rank :=
    unitsOfRank_strictMono.monotone (Nat.sub_le _ _)
  simp only [basin]
  omega

theorem units_pos {rank : Nat} (hrank : rank ≠ 0) : 0 < unitsOfRank rank := by
  have hlt : unitsOfRank 0 < unitsOfRank rank := unitsOfRank_strictMono (Nat.pos_of_ne_zero hrank)
  exact Nat.pos_of_ne_zero (Nat.ne_zero_of_lt hlt)

theorem zpow_sub_mul (power : Int) (j : Nat) : (10 : ℚ) ^ (power - j) * 10 ^ j = 10 ^ power := by
  rw [← zpow_natCast, ← zpow_add₀ (by norm_num), Int.sub_add_cancel]

variable {rank : Nat} {power : Int} {tie : Tie}

/-- The grid of the eighteenth digit has a point: the next magnitude is farther away than
`2 ^ -53` of the magnitude. -/
theorem isSome_gridAt?_basin (hlow : (10 : ℚ) ^ power * one ≤ unitsOfRank rank) :
    ((basin rank).gridAt? tie (power - (17 : Nat))).isSome = true := by
  apply Basin.isSome_gridAt? (low_le_mid rank)
  have hmono : unitsOfRank rank ≤ unitsOfRank (rank + 1) :=
    unitsOfRank_strictMono.monotone (Nat.le_succ rank)
  have hgap : (unitsOfRank rank : ℚ) <
      9007199254740992 * (unitsOfRank (rank + 1) - unitsOfRank rank) := by
    have hlt := unitsOfRank_lt rank
    have htwo : twoPow 53 = 9007199254740992 := by decide
    rw [htwo] at hlt
    rw [← Nat.cast_sub hmono]
    exact_mod_cast hlt
  have hstep : (10 : ℚ) ^ (power - (17 : Nat)) * one * 10 ^ 17 ≤ unitsOfRank rank := by
    rw [mul_right_comm, zpow_sub_mul power 17]
    exact hlow
  have hmono' : (unitsOfRank rank : ℚ) ≤ unitsOfRank (rank + 1) := by exact_mod_cast hmono
  rw [mul_left_comm]
  generalize (10 : ℚ) ^ (power - (17 : Nat)) * one = y at hstep ⊢
  simp only [basin, Nat.cast_mul, Nat.cast_add, Nat.cast_ofNat]
  linarith

/-- A point of the grid of a digit is positive, has at most one digit more, and does not lie
beyond the end of the interval. -/
theorem of_gridAt?_basin (hlow : (10 : ℚ) ^ power * one ≤ unitsOfRank rank)
    (hhigh : (unitsOfRank rank : ℚ) < 10 ^ (power + 1) * one) {j c : Nat}
    (h : (basin rank).gridAt? tie (power - j) = some c) :
    1 ≤ c ∧ c ≤ tenPow (j + 1) ∧
      (c : ℚ) * (10 ^ (power - j) * (2 * one)) ≤ unitsOfRank rank + unitsOfRank (rank + 1) := by
  obtain ⟨hend, hbelow, habove⟩ := Basin.of_gridAt? h
  have hscale := zpow_sub_mul power j
  have hone : (0 : ℚ) < one := by exact_mod_cast one_pos
  have hstep : (0 : ℚ) < 10 ^ (power - j) := by positivity
  have hunit : (0 : ℚ) < 10 ^ (power - j) * (2 * one) := mul_pos hstep (by linarith)
  have hmid : ((basin rank).mid : ℚ) = 2 * unitsOfRank rank := by simp [basin]
  have hend' : ((basin rank).high : ℚ) = unitsOfRank rank + unitsOfRank (rank + 1) := by
    simp [basin]
  rw [hmid] at hbelow habove
  rw [hend'] at hend
  refine ⟨?_, ?_, hend⟩
  · have hlower : (10 : ℚ) ^ j * (10 ^ (power - j) * (2 * one)) <
        (c + 1) * (10 ^ (power - j) * (2 * one)) := by
      calc (10 : ℚ) ^ j * (10 ^ (power - j) * (2 * one)) = 2 * (10 ^ power * one) := by
            rw [← hscale]
            ring
        _ ≤ 2 * unitsOfRank rank := by linarith
        _ < _ := hbelow
    have hj : (10 : ℚ) ^ j < c + 1 := lt_of_mul_lt_mul_right hlower hunit.le
    have hone' : (1 : ℚ) ≤ 10 ^ j := one_le_pow₀ (by norm_num)
    have hc : (0 : ℚ) < c := by linarith
    exact_mod_cast hc
  · have hupper : (c : ℚ) * (10 ^ (power - j) * (2 * one)) <
        (10 ^ (j + 1) + 1) * (10 ^ (power - j) * (2 * one)) := by
      calc (c : ℚ) * (10 ^ (power - j) * (2 * one))
          ≤ 2 * unitsOfRank rank + 10 ^ (power - j) * (2 * one) := habove
        _ < 2 * (10 ^ (power + 1) * one) + 10 ^ (power - j) * (2 * one) := by linarith
        _ = (10 ^ (j + 1) + 1) * (10 ^ (power - j) * (2 * one)) := by
          rw [zpow_add₀ (by norm_num), zpow_one, ← hscale]
          ring
    have hc : (c : ℚ) < 10 ^ (j + 1) + 1 := lt_of_mul_lt_mul_right hupper hunit.le
    have hc' : c < 10 ^ (j + 1) + 1 := by exact_mod_cast hc
    exact Nat.le_of_lt_succ hc'

/-- The shortest decimal of a magnitude is positive, has at most nineteen digits and does not lie
beyond the middle between the magnitude and the next one. -/
theorem shortest_spec (hrank : rank ≠ 0) (tie : Tie) {c : Nat} {step : Int}
    (h : (basin rank).shortest tie (leadingPower (unitsOfRank rank) one) 18 0 = (c, step)) :
    1 ≤ c ∧ c ≤ tenPow 18 ∧
      (c : ℚ) * (10 ^ step * (2 * one)) ≤ unitsOfRank rank + unitsOfRank (rank + 1) := by
  obtain ⟨hlow, hhigh⟩ := leadingPower_spec (units_pos hrank) one_pos
  generalize leadingPower (unitsOfRank rank) one = power at h hlow hhigh
  obtain ⟨j, hj, hstep, hfound⟩ := Basin.of_shortest (Nat.zero_le 17)
    (by decide : 17 < 0 + 18) (isSome_gridAt?_basin hlow)
  rw [h] at hstep hfound
  simp only at hstep hfound
  subst hstep
  obtain ⟨hone, hmost, hend⟩ := of_gridAt?_basin hlow hhigh hfound
  exact ⟨hone, hmost.trans (tenPow_le_tenPow (by omega)), hend⟩

end Quire.Binary64
