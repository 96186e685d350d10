import Mathlib.Data.Nat.Log
import Mathlib.Tactic.Linarith
import Mathlib.Tactic.Ring
import Quire.Number.Binary64

/-!
# Rounding as a monotone map

Rounding a quotient to the nearest integer is told by the integers it does not exceed, so it keeps
the order of quotients. So does the rank of the nearest magnitude, where a larger quotient may also
lie in a later binade, and so does the place of the number nearest to an integer. A magnitude of
the format is its own nearest magnitude.
-/
namespace Quire

theorem twoPow_pos (n : Nat) : 0 < twoPow n := Nat.two_pow_pos n

theorem twoPow_add (m n : Nat) : twoPow (m + n) = twoPow m * twoPow n := Nat.pow_add 2 m n

namespace Binary64

/-! ## Quotients -/

/-- A quotient rounds to at most `m` when it lies below the half after `m`, and at the half itself
when `m` is even. -/
theorem roundQuotient_le_iff {num den : Nat} (hden : 0 < den) (m : Nat) :
    roundQuotient num den ≤ m ↔
      2 * num < (2 * m + 1) * den ∨ (2 * num = (2 * m + 1) * den ∧ m % 2 = 0) := by
  have hdiv : den * (num / den) + num % den = num := Nat.div_add_mod num den
  have hmod : num % den < den := Nat.mod_lt num hden
  have hround : roundQuotient num den = num / den ∨ roundQuotient num den = num / den + 1 := by
    unfold roundQuotient
    dsimp only
    split
    · exact Or.inl rfl
    · split
      · have := Nat.mod_two_eq_zero_or_one (num / den)
        omega
      · exact Or.inr rfl
  rcases Nat.lt_trichotomy m (num / den) with hlt | heq | hgt
  · have hgap : (m + 1) * den ≤ den * (num / den) := by
      rw [Nat.mul_comm den]
      exact Nat.mul_le_mul_right den hlt
    have hsplit : (2 * m + 1) * den + den = 2 * ((m + 1) * den) := by ring
    constructor
    · omega
    · omega
  · subst heq
    have hsplit : (2 * (num / den) + 1) * den = 2 * (den * (num / den)) + den := by ring
    unfold roundQuotient
    dsimp only
    split
    · omega
    · split
      · have := Nat.mod_two_eq_zero_or_one (num / den)
        omega
      · omega
  · have hgap : den * (num / den) + den ≤ m * den := by
      calc den * (num / den) + den = (num / den + 1) * den := by ring
        _ ≤ m * den := Nat.mul_le_mul_right den hgt
    have hsplit : (2 * m + 1) * den = 2 * (m * den) + den := by ring
    constructor
    · intro _
      exact Or.inl (by omega)
    · intro _
      omega

/-- A larger quotient does not round lower. -/
theorem roundQuotient_mono {num den num' den' : Nat} (hden : 0 < den) (hden' : 0 < den')
    (h : num * den' ≤ num' * den) : roundQuotient num den ≤ roundQuotient num' den' := by
  rw [roundQuotient_le_iff hden]
  have hself := (roundQuotient_le_iff hden' _).mp (le_refl (roundQuotient num' den'))
  generalize roundQuotient num' den' = m at hself ⊢
  have hscale : 2 * num * den' ≤ 2 * num' * den := by nlinarith
  rcases hself with hlt | ⟨heq, heven⟩
  · refine Or.inl (lt_of_mul_lt_mul_right ?_ (Nat.zero_le den'))
    calc 2 * num * den' ≤ 2 * num' * den := hscale
      _ < (2 * m + 1) * den' * den := Nat.mul_lt_mul_of_pos_right hlt hden
      _ = (2 * m + 1) * den * den' := by ring
  · have hle : 2 * num * den' ≤ (2 * m + 1) * den * den' := by
      calc 2 * num * den' ≤ 2 * num' * den := hscale
        _ = (2 * m + 1) * den * den' := by rw [heq]; ring
    rcases Nat.lt_or_eq_of_le (le_of_mul_le_mul_right hle hden') with hlt | heq
    · exact Or.inl hlt
    · exact Or.inr ⟨heq, heven⟩

/-- A whole quotient is its own rounding. -/
theorem roundQuotient_mul (m : Nat) {den : Nat} (hden : 0 < den) :
    roundQuotient (m * den) den = m := by
  have hmod : m * den % den = 0 := Nat.mul_mod_left m den
  have hdiv : m * den / den = m := Nat.mul_div_cancel m hden
  simp only [roundQuotient, hmod, hdiv]
  rw [if_pos (by omega)]

theorem roundQuotient_le {num den m : Nat} (hden : 0 < den) (h : num ≤ m * den) :
    roundQuotient num den ≤ m := by
  have hmono : roundQuotient num den ≤ roundQuotient (m * den) den :=
    roundQuotient_mono hden hden (Nat.mul_le_mul_right den h)
  rwa [roundQuotient_mul m hden] at hmono

theorem le_roundQuotient {num den m : Nat} (hden : 0 < den) (h : m * den ≤ num) :
    m ≤ roundQuotient num den := by
  have hmono : roundQuotient (m * den) den ≤ roundQuotient num den :=
    roundQuotient_mono hden hden (Nat.mul_le_mul_right den h)
  rwa [roundQuotient_mul m hden] at hmono

/-! ## Ranks -/

/-- The binade of a quotient of magnitudes: how far its leading bit lies above the 52nd. -/
def binade (num den : Nat) : Nat := (num / den).log2 - 52

theorem nearestRank_eq (num den : Nat) :
    nearestRank num den =
      binade num den * twoPow 52 + roundQuotient num (den * twoPow (binade num den)) := rfl

/-- The binade's units count a quotient of it with at most 53 bits. -/
theorem lt_of_binade {num den : Nat} (hden : 0 < den) :
    num < twoPow 53 * (den * twoPow (binade num den)) := by
  have hlog : num / den < twoPow (53 + binade num den) := by
    calc num / den < 2 ^ ((num / den).log2 + 1) := Nat.lt_log2_self
      _ ≤ 2 ^ (53 + binade num den) := by
        apply Nat.pow_le_pow_right (by decide)
        unfold binade
        omega
  calc num < twoPow (53 + binade num den) * den := (Nat.div_lt_iff_lt_mul hden).mp hlog
    _ = twoPow 53 * (den * twoPow (binade num den)) := by rw [twoPow_add]; ring

/-- Past the first binade they count it with no fewer. -/
theorem le_of_binade {num den : Nat} (hden : 0 < den) (hpos : 0 < binade num den) :
    twoPow 52 * (den * twoPow (binade num den)) ≤ num := by
  have hne : num / den ≠ 0 := by
    intro hzero
    simp [binade, hzero] at hpos
  have hlog : twoPow (52 + binade num den) ≤ num / den := by
    calc twoPow (52 + binade num den) = 2 ^ (num / den).log2 := by
          have : 52 + binade num den = (num / den).log2 := by unfold binade at hpos ⊢; omega
          rw [this]
          rfl
      _ ≤ num / den := Nat.log2_self_le hne
  calc twoPow 52 * (den * twoPow (binade num den))
      = twoPow (52 + binade num den) * den := by rw [twoPow_add]; ring
    _ ≤ num := (Nat.le_div_iff_mul_le hden).mp hlog

theorem binade_mono {num den num' den' : Nat} (hden : 0 < den) (hden' : 0 < den')
    (h : num * den' ≤ num' * den) : binade num den ≤ binade num' den' := by
  have hquot : num / den ≤ num' / den' := by
    rw [Nat.le_div_iff_mul_le hden']
    refine le_of_mul_le_mul_right ?_ hden
    calc num / den * den' * den = num / den * den * den' := by ring
      _ ≤ num * den' := Nat.mul_le_mul_right den' (Nat.div_mul_le_self num den)
      _ ≤ num' * den := h
  have hlog : (num / den).log2 ≤ (num' / den').log2 := by
    rw [Nat.log2_eq_log_two, Nat.log2_eq_log_two]
    exact Nat.log_mono_right hquot
  unfold binade
  omega

/-- A larger quotient has no lower nearest magnitude. -/
theorem nearestRank_mono {num den num' den' : Nat} (hden : 0 < den) (hden' : 0 < den')
    (h : num * den' ≤ num' * den) : nearestRank num den ≤ nearestRank num' den' := by
  rw [nearestRank_eq, nearestRank_eq]
  rcases Nat.lt_or_eq_of_le (binade_mono hden hden' h) with hlt | heq
  · have hlow : roundQuotient num (den * twoPow (binade num den)) ≤ twoPow 53 :=
      roundQuotient_le (Nat.mul_pos hden (twoPow_pos _)) (lt_of_binade hden).le
    have hhigh : twoPow 52 ≤ roundQuotient num' (den' * twoPow (binade num' den')) :=
      le_roundQuotient (Nat.mul_pos hden' (twoPow_pos _)) (le_of_binade hden' (by omega))
    have htwo : twoPow 53 = 2 * twoPow 52 := twoPow_succ 52
    have hstep : (binade num den + 1) * twoPow 52 ≤ binade num' den' * twoPow 52 :=
      Nat.mul_le_mul_right _ hlt
    rw [Nat.add_mul, Nat.one_mul] at hstep
    omega
  · rw [← heq]
    apply Nat.add_le_add_left
    refine roundQuotient_mono (Nat.mul_pos hden (twoPow_pos _))
      (Nat.mul_pos hden' (twoPow_pos _)) ?_
    calc num * (den' * twoPow (binade num den)) = num * den' * twoPow (binade num den) := by ring
      _ ≤ num' * den * twoPow (binade num den) := Nat.mul_le_mul_right _ h
      _ = num' * (den * twoPow (binade num den)) := by ring

/-! ## Magnitudes -/

theorem unitsOfRank_of_lt {rank : Nat} (h : rank < twoPow 52) : unitsOfRank rank = rank := by
  rw [unitsOfRank, if_pos h]

theorem unitsOfRank_of_le {rank : Nat} (h : twoPow 52 ≤ rank) :
    unitsOfRank rank = (twoPow 52 + rank % twoPow 52) * twoPow (rank / twoPow 52 - 1) := by
  rw [unitsOfRank, if_neg (Nat.not_lt.mpr h)]

/-- From one magnitude to the next it is one unit of the binade. -/
theorem unitsOfRank_succ (rank : Nat) :
    unitsOfRank (rank + 1) = unitsOfRank rank + twoPow (rank / twoPow 52 - 1) := by
  have hpos : 0 < twoPow 52 := twoPow_pos 52
  rcases Nat.lt_or_ge (rank + 1) (twoPow 52) with hlt | hge
  · have hdiv : rank / twoPow 52 = 0 := Nat.div_eq_of_lt (by omega)
    rw [unitsOfRank_of_lt hlt, unitsOfRank_of_lt (by omega), hdiv]
    rfl
  rcases Nat.lt_or_ge rank (twoPow 52) with hlt | hle
  · have heq : rank + 1 = twoPow 52 := by omega
    have hdiv : rank / twoPow 52 = 0 := Nat.div_eq_of_lt hlt
    rw [unitsOfRank_of_lt hlt, hdiv, heq, unitsOfRank_of_le (le_refl _), Nat.mod_self,
      Nat.div_self hpos]
    have hunit : twoPow 0 = 1 := rfl
    simp only [Nat.sub_self, Nat.zero_sub, hunit]
    omega
  · obtain ⟨e, he⟩ : ∃ e, rank / twoPow 52 = e + 1 :=
      ⟨rank / twoPow 52 - 1, by have := Nat.div_pos hle hpos; omega⟩
    have hsplit : twoPow 52 * (e + 1) + rank % twoPow 52 = rank := he ▸ Nat.div_add_mod rank _
    have hmod : rank % twoPow 52 < twoPow 52 := Nat.mod_lt _ hpos
    rw [unitsOfRank_of_le hle, unitsOfRank_of_le hge, he]
    generalize rank % twoPow 52 = m at hsplit hmod ⊢
    rcases Nat.lt_or_ge (m + 1) (twoPow 52) with hm | hm
    · have hnext : rank + 1 = m + 1 + twoPow 52 * (e + 1) := by omega
      rw [hnext, Nat.add_mul_mod_self_left, Nat.add_mul_div_left _ _ hpos, Nat.mod_eq_of_lt hm,
        Nat.div_eq_of_lt hm]
      simp only [Nat.zero_add, Nat.add_sub_cancel]
      ring
    · have hnext : rank + 1 = 0 + twoPow 52 * (e + 2) := by
        rw [Nat.mul_add] at hsplit ⊢
        omega
      have hfull : m = twoPow 52 - 1 := by omega
      rw [hnext, Nat.add_mul_mod_self_left, Nat.add_mul_div_left _ _ hpos, Nat.zero_mod,
        Nat.zero_div, hfull]
      have hstep : twoPow (0 + (e + 2) - 1) = 2 * twoPow e := by
        have hexp : 0 + (e + 2) - 1 = e + 1 := by omega
        rw [hexp, twoPow_succ]
      rw [hstep, Nat.add_sub_cancel]
      generalize twoPow 52 = t at hpos ⊢
      obtain ⟨u, rfl⟩ : ∃ u, t = u + 1 := ⟨t - 1, by omega⟩
      rw [Nat.add_sub_cancel]
      ring

theorem unitsOfRank_strictMono : StrictMono unitsOfRank := by
  apply strictMono_nat_of_lt_succ
  intro rank
  rw [unitsOfRank_succ]
  exact Nat.lt_add_of_pos_right (twoPow_pos _)

/-- Neighbouring magnitudes are close: less than `2 ^ 53` of their distances reach zero. -/
theorem unitsOfRank_lt (rank : Nat) :
    unitsOfRank rank < twoPow 53 * (unitsOfRank (rank + 1) - unitsOfRank rank) := by
  have htwo : twoPow 53 = 2 * twoPow 52 := twoPow_succ 52
  have hmod : rank % twoPow 52 < twoPow 52 := Nat.mod_lt _ (twoPow_pos 52)
  rw [unitsOfRank_succ, Nat.add_sub_cancel_left]
  rcases Nat.lt_or_ge rank (twoPow 52) with hlt | hle
  · rw [unitsOfRank_of_lt hlt, Nat.div_eq_of_lt hlt]
    calc rank < twoPow 52 := hlt
      _ ≤ twoPow 53 * twoPow (0 - 1) := by decide
  · rw [unitsOfRank_of_le hle]
    exact Nat.mul_lt_mul_of_pos_right (by omega) (twoPow_pos _)

/-- The binade of a magnitude is in its rank. -/
theorem binade_unitsOfRank (rank : Nat) {den : Nat} (hden : 0 < den) :
    binade (unitsOfRank rank * den) den = rank / twoPow 52 - 1 := by
  have htwo : twoPow 53 = 2 * twoPow 52 := twoPow_succ 52
  rw [binade, Nat.mul_div_cancel _ hden]
  rcases Nat.lt_or_ge rank (twoPow 52) with hlt | hle
  · rw [unitsOfRank_of_lt hlt, Nat.div_eq_of_lt hlt]
    have hlog : rank.log2 ≤ 52 := by
      by_cases hzero : rank = 0
      · simp [hzero]
      · exact Nat.le_of_lt_succ ((Nat.log2_lt hzero).mpr (lt_of_lt_of_le hlt (by decide)))
    omega
  · have hmod : rank % twoPow 52 < twoPow 52 := Nat.mod_lt _ (twoPow_pos 52)
    have hlog : (unitsOfRank rank).log2 = 52 + (rank / twoPow 52 - 1) := by
      have hpos : 0 < twoPow (rank / twoPow 52 - 1) := twoPow_pos _
      rw [unitsOfRank_of_le hle]
      have hne : (twoPow 52 + rank % twoPow 52) * twoPow (rank / twoPow 52 - 1) ≠ 0 := by
        have := twoPow_pos 52
        exact (Nat.mul_pos (by omega) hpos).ne'
      rw [Nat.log2_eq_iff hne]
      constructor
      · calc 2 ^ (52 + (rank / twoPow 52 - 1))
            = twoPow 52 * twoPow (rank / twoPow 52 - 1) := twoPow_add _ _
          _ ≤ _ := Nat.mul_le_mul_right _ (Nat.le_add_right _ _)
      · calc (twoPow 52 + rank % twoPow 52) * twoPow (rank / twoPow 52 - 1)
            < twoPow 53 * twoPow (rank / twoPow 52 - 1) :=
              Nat.mul_lt_mul_of_pos_right (by omega) hpos
          _ = twoPow (53 + (rank / twoPow 52 - 1)) := (twoPow_add _ _).symm
          _ = 2 ^ (52 + (rank / twoPow 52 - 1) + 1) := by
            rw [Nat.add_right_comm]
            rfl
    rw [hlog]
    omega

/-- A magnitude of the format is its own nearest magnitude. -/
theorem nearestRank_unitsOfRank (rank : Nat) {den : Nat} (hden : 0 < den) :
    nearestRank (unitsOfRank rank * den) den = rank := by
  rw [nearestRank_eq, binade_unitsOfRank rank hden]
  rcases Nat.lt_or_ge rank (twoPow 52) with hlt | hle
  · have hone : den * twoPow 0 = den := Nat.mul_one den
    rw [unitsOfRank_of_lt hlt, Nat.div_eq_of_lt hlt]
    simp only [Nat.zero_sub, hone, Nat.zero_mul, Nat.zero_add]
    exact roundQuotient_mul rank hden
  · have hdiv : 1 ≤ rank / twoPow 52 := Nat.div_pos hle (twoPow_pos 52)
    have hsplit : twoPow 52 * (rank / twoPow 52) + rank % twoPow 52 = rank :=
      Nat.div_add_mod rank _
    have hscale : unitsOfRank rank * den =
        (twoPow 52 + rank % twoPow 52) * (den * twoPow (rank / twoPow 52 - 1)) := by
      rw [unitsOfRank_of_le hle]
      ring
    rw [hscale, roundQuotient_mul _ (Nat.mul_pos hden (twoPow_pos _))]
    obtain ⟨e, he⟩ : ∃ e, rank / twoPow 52 = e + 1 := ⟨rank / twoPow 52 - 1, by omega⟩
    rw [he, Nat.mul_add, Nat.mul_one, Nat.mul_comm] at hsplit
    rw [he, Nat.add_sub_cancel]
    omega

theorem nearestRank_le {num den rank : Nat} (hden : 0 < den) (h : num ≤ unitsOfRank rank * den) :
    nearestRank num den ≤ rank := by
  calc nearestRank num den ≤ nearestRank (unitsOfRank rank * den) den :=
        nearestRank_mono hden hden (Nat.mul_le_mul_right den h)
    _ = rank := nearestRank_unitsOfRank rank hden

/-! ## Integers -/

theorem negative_ofInt (n : Int) : (ofInt n).negative = decide (n < 0) := by
  unfold ofInt nearest?
  by_cases h : nearestRank (n.natAbs * one) 1 < rankLimit <;> simp [h, largest]

theorem rank_ofInt (n : Int) :
    (ofInt n).rank = min (nearestRank (n.natAbs * one) 1) (rankLimit - 1) := by
  unfold ofInt nearest?
  by_cases h : nearestRank (n.natAbs * one) 1 < rankLimit
  · have hle : nearestRank (n.natAbs * one) 1 ≤ rankLimit - 1 := Nat.le_pred_of_lt h
    simp [h, hle]
  · have hle : rankLimit - 1 ≤ nearestRank (n.natAbs * one) 1 := by omega
    simp [h, hle, largest]

theorem rank_ofInt_mono {m n : Int} (h : m.natAbs ≤ n.natAbs) :
    (ofInt m).rank ≤ (ofInt n).rank := by
  have hnear : nearestRank (m.natAbs * one) 1 ≤ nearestRank (n.natAbs * one) 1 := by
    apply nearestRank_mono (by decide) (by decide)
    rw [Nat.mul_one, Nat.mul_one]
    exact Nat.mul_le_mul_right one h
  rw [rank_ofInt, rank_ofInt]
  omega

/-- A larger integer has no earlier nearest number. -/
theorem place_ofInt_mono {m n : Int} (h : m ≤ n) : (ofInt m).place ≤ (ofInt n).place := by
  unfold place
  by_cases hm : m < 0
  · by_cases hn : n < 0
    · have hrank : (ofInt n).rank ≤ (ofInt m).rank := rank_ofInt_mono (by omega)
      simp only [negative_ofInt, hm, hn, decide_true, if_true]
      omega
    · simp [negative_ofInt, hm, hn]
      omega
  · have hn : ¬ n < 0 := by omega
    have hrank : (ofInt m).rank ≤ (ofInt n).rank := rank_ofInt_mono (by omega)
    simpa [negative_ofInt, hm, hn] using hrank

end Binary64
end Quire
