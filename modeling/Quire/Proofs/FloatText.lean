import Mathlib.Data.List.DropRight
import Quire.Json.Printer
import Quire.Proofs.Numerals
import Quire.Proofs.ShortestDigits

/-!
# The text of a binary64 number

The text of a number is that of a proper numeral, and the numeral has a value again: its digits are
few, and what the shortest decimal exceeds the number by is not enough to leave the format.
-/
namespace Quire

open Text (decimal decimalDigits natOfDigits)

/-! ## Significant digits -/

namespace Text

/-- The digits of a number without the zeros at its end. -/
def significantDigits (n : Nat) : List Nat := (decimalDigits n).rdropWhile (· == 0)

theorem exists_decimalDigits_eq_cons_ne_zero {n : Nat} (h : n ≠ 0) :
    ∃ d ds, decimalDigits n = d :: ds ∧ d ≠ 0 := by
  obtain ⟨d, ds, heq, hzero⟩ := exists_decimalDigits_eq_cons n
  refine ⟨d, ds, heq, ?_⟩
  by_cases hds : ds = []
  · have hvalue := natOfDigits_decimalDigits n
    rw [heq, hds] at hvalue
    simp [natOfDigits] at hvalue
    omega
  · exact hzero hds

theorem exists_significantDigits {n : Nat} (h : n ≠ 0) :
    ∃ d ds t, significantDigits n = d :: ds ∧ d ≠ 0 ∧
      decimalDigits n = d :: ds ++ List.replicate t 0 := by
  obtain ⟨d, ds, heq, hzero⟩ := exists_decimalDigits_eq_cons_ne_zero h
  have hsplit : significantDigits n ++ (decimalDigits n).rtakeWhile (· == 0) = decimalDigits n :=
    List.rdropWhile_append_rtakeWhile
  have hzeros : (decimalDigits n).rtakeWhile (· == 0) =
      List.replicate ((decimalDigits n).rtakeWhile (· == 0)).length 0 := by
    rw [List.eq_replicate_iff]
    refine ⟨rfl, fun e he => ?_⟩
    simpa using List.mem_rtakeWhile_imp he
  rw [hzeros] at hsplit
  generalize ((decimalDigits n).rtakeWhile (· == 0)).length = t at hsplit
  rcases hsignificant : significantDigits n with _ | ⟨e, es⟩
  · rw [hsignificant, List.nil_append, heq] at hsplit
    have hd : d ∈ List.replicate t 0 := by
      rw [hsplit]
      exact List.mem_cons_self
    exact absurd (List.eq_of_mem_replicate hd) hzero
  · refine ⟨e, es, t, rfl, ?_, ?_⟩
    · rw [hsignificant, heq, List.cons_append, List.cons.injEq] at hsplit
      rw [hsplit.1]
      exact hzero
    · rw [← hsignificant, hsplit]

theorem significantDigits_lt (n : Nat) : ∀ d ∈ significantDigits n, d < 10 := by
  intro d hd
  have hsub : significantDigits n <+: decimalDigits n := List.rdropWhile_prefix _ _
  exact decimalDigits_lt n d (hsub.subset hd)

theorem dropWhile_map_digitChar {ds : List Nat} (h : ∀ d ∈ ds, d < 10) :
    (ds.map Nat.digitChar).dropWhile (· == '0') = (ds.dropWhile (· == 0)).map Nat.digitChar := by
  induction ds with
  | nil => rfl
  | cons d ds ih =>
    rw [List.forall_mem_cons] at h
    have hdigit : ∀ d < 10, (d.digitChar == '0') = (d == 0) := by decide
    simp only [List.map_cons, List.dropWhile_cons, hdigit d h.1]
    by_cases hd : d = 0
    · simp [hd, ih h.2]
    · simp [hd]

/-- The characters that remain are those of the significant digits. -/
theorem significantDigits_map (n : Nat) :
    ((decimal n).reverse.dropWhile (· == '0')).reverse =
      (significantDigits n).map Nat.digitChar := by
  have hlt : ∀ d ∈ (decimalDigits n).reverse, d < 10 := by
    simpa using decimalDigits_lt n
  rw [decimal_eq_map, ← List.map_reverse, dropWhile_map_digitChar hlt, ← List.map_reverse]
  rfl

end Text

/-! ## Numerals of digits -/

namespace Numeral

/-- The numeral of some digits of which the first stands at a power of ten. -/
def ofDigits (negative : Bool) (ds : List Nat) (exponent : Int) : Numeral :=
  if Value.floatFormat.least ≤ exponent ∧ exponent ≤ Value.floatFormat.most then
    if exponent < 0 then
      ⟨negative, [0], List.replicate (exponent.natAbs - 1) 0 ++ ds, none⟩
    else if ds.length ≤ exponent.natAbs + 1 then
      ⟨negative, ds ++ List.replicate (exponent.natAbs + 1 - ds.length) 0, [0], none⟩
    else ⟨negative, ds.take (exponent.natAbs + 1), ds.drop (exponent.natAbs + 1), none⟩
  else ⟨negative, ds.take 1, ds.drop 1, some (exponent < 0, decimalDigits exponent.natAbs)⟩

variable {negative : Bool} {d : Nat} {ds : List Nat} {exponent : Int}

theorem negative_ofDigits : (ofDigits negative ds exponent).negative = negative := by
  unfold ofDigits
  split_ifs <;> rfl

theorem proper_ofDigits (hd : d ≠ 0) (hlt : ∀ e ∈ d :: ds, e < 10) :
    (ofDigits negative (d :: ds) exponent).Proper := by
  have hexponent : ∀ e ∈ (some (decide (exponent < 0), decimalDigits exponent.natAbs)),
      e.2 ≠ [] ∧ ∀ d ∈ e.2, d < 10 := by
    intro e he
    cases he
    obtain ⟨f, fs, heq, -⟩ := Text.exists_decimalDigits_eq_cons exponent.natAbs
    exact ⟨by simp [heq], Text.decimalDigits_lt _⟩
  unfold ofDigits
  split_ifs
  · refine ⟨⟨0, [], rfl, by simp⟩, by simp, fun e he => ?_, by simp⟩
    rcases List.mem_append.mp he with he | he
    · rw [List.eq_of_mem_replicate he]
      decide
    · exact hlt e he
  · refine ⟨⟨d, _, rfl, fun _ => hd⟩, fun e he => ?_, by simp, by simp⟩
    rcases List.mem_append.mp he with he | he
    · exact hlt e he
    · rw [List.eq_of_mem_replicate he]
      decide
  · refine ⟨⟨d, _, List.take_succ_cons, fun _ => hd⟩, fun e he => ?_, fun e he => ?_, by simp⟩
    · exact hlt e (List.mem_of_mem_take he)
    · exact hlt e (List.mem_of_mem_drop he)
  · refine ⟨⟨d, _, List.take_succ_cons, fun _ => hd⟩, fun e he => ?_, fun e he => ?_, hexponent⟩
    · exact hlt e (List.mem_of_mem_take he)
    · exact hlt e (List.mem_of_mem_drop he)

theorem contains_point {ds : List Nat} (h : ∀ d ∈ ds, d < 10) :
    (ds.map Nat.digitChar).contains '.' = false := by
  rw [List.contains_eq_mem, decide_eq_false_iff_not, List.mem_map]
  rintro ⟨d, hd, hpoint⟩
  exact Text.digitChar_ne (h d hd) rfl hpoint

theorem fractionChars_of_ne_nil {ds : List Nat} (h : ds ≠ []) :
    fractionChars ds = '.' :: ds.map Nat.digitChar := by
  cases ds with
  | nil => exact absurd rfl h
  | cons d ds => rfl

/-- A decimal in positional notation, with a point in any case. -/
theorem positional_eq {x : Binary64.Decimal} (hdigits : x.digits = (d :: ds).map Nat.digitChar)
    (hlt : ∀ e ∈ d :: ds, e < 10)
    (hrange : Value.floatFormat.least ≤ x.exponent ∧ x.exponent ≤ Value.floatFormat.most) :
    (if x.positional.contains '.' then x.positional else x.positional ++ ['.', '0']) =
      (ofDigits negative (d :: ds) x.exponent).unsignedChars := by
  have hzero : ∀ n, List.replicate n '0' = (List.replicate n 0).map Nat.digitChar := by
    simp
  unfold ofDigits Binary64.Decimal.positional
  rw [if_pos hrange, hdigits]
  by_cases hneg : x.exponent < 0
  · have hne : List.replicate (x.exponent.natAbs - 1) 0 ++ d :: ds ≠ [] := by simp
    simp only [hneg, if_true, unsignedChars, exponentChars, fractionChars_of_ne_nil hne]
    simp [Nat.digitChar]
  · simp only [hneg, if_false]
    by_cases hlen : (d :: ds).length ≤ x.exponent.natAbs + 1
    · have hwhole : ((d :: ds).map Nat.digitChar ++ List.replicate
            (x.exponent.natAbs + 1 - ((d :: ds).map Nat.digitChar).length) '0') =
          (d :: ds ++ List.replicate (x.exponent.natAbs + 1 - (d :: ds).length) 0).map
            Nat.digitChar := by
        rw [List.map_append, ← hzero, List.length_map]
      have hpoint : ((d :: ds ++ List.replicate
          (x.exponent.natAbs + 1 - (d :: ds).length) 0).map Nat.digitChar).contains '.' =
            false := by
        apply contains_point
        intro e he
        rcases List.mem_append.mp he with he | he
        · exact hlt e he
        · rw [List.eq_of_mem_replicate he]
          decide
      have hlen' : ((d :: ds).map Nat.digitChar).length ≤ x.exponent.natAbs + 1 := by
        rwa [List.length_map]
      rw [if_pos hlen', if_pos hlen, hwhole, hpoint]
      rfl
    · have hne : (d :: ds).drop (x.exponent.natAbs + 1) ≠ [] := by
        rw [Ne, List.drop_eq_nil_iff]
        omega
      have hlen' : ¬ ((d :: ds).map Nat.digitChar).length ≤ x.exponent.natAbs + 1 := by
        rwa [List.length_map]
      have hpoint : (((d :: ds).map Nat.digitChar).take (x.exponent.natAbs + 1) ++
          '.' :: ((d :: ds).map Nat.digitChar).drop (x.exponent.natAbs + 1)).contains '.' =
            true := by simp
      rw [if_neg hlen', if_neg hlen, hpoint]
      simp only [unsignedChars, exponentChars, fractionChars_of_ne_nil hne, List.map_take,
        List.map_drop, List.append_nil, if_true]

/-- A decimal in scientific notation. -/
theorem scientific_eq {x : Binary64.Decimal} (hdigits : x.digits = (d :: ds).map Nat.digitChar)
    (hrange : ¬ (Value.floatFormat.least ≤ x.exponent ∧ x.exponent ≤ Value.floatFormat.most)) :
    x.scientific = (ofDigits negative (d :: ds) x.exponent).unsignedChars := by
  unfold ofDigits Binary64.Decimal.scientific
  rw [if_neg hrange, hdigits, Text.decimal_eq_map]
  rcases ds with _ | ⟨e, es⟩
  · by_cases hneg : x.exponent < 0
    · simp [unsignedChars, exponentChars, fractionChars, hneg]
    · simp [unsignedChars, exponentChars, fractionChars, hneg]
  · by_cases hneg : x.exponent < 0
    · simp [unsignedChars, exponentChars, fractionChars, hneg]
    · simp [unsignedChars, exponentChars, fractionChars, hneg]

/-- The significand is that of the digits, where zeros may follow up to the point. -/
theorem significand_ofDigits_lt (hlt : ∀ e ∈ d :: ds, e < 10)
    (hfits : natOfDigits 10 (d :: ds) < significandLimit) :
    (ofDigits negative (d :: ds) exponent).significand < significandLimit := by
  unfold ofDigits
  split_ifs with hrange hneg hlen
  · have hzeros : [0] ++ (List.replicate (exponent.natAbs - 1) 0 ++ d :: ds) =
        List.replicate (exponent.natAbs - 1 + 1) 0 ++ d :: ds := by
      simp [List.replicate_succ]
    rw [significand, hzeros, Text.natOfDigits_zeros_append]
    exact hfits
  · have hmost : exponent.natAbs ≤ 15 := by
      have hle := hrange.2
      simp only [Value.floatFormat] at hle
      omega
    have hdigits :
        ∀ e ∈ d :: ds ++ List.replicate (exponent.natAbs + 1 - (d :: ds).length) 0 ++ [0],
          e < 10 := by
      intro e he
      simp only [List.mem_append, List.mem_replicate, List.mem_singleton] at he
      rcases he with (he | ⟨-, rfl⟩) | rfl
      · exact hlt e he
      · decide
      · decide
    calc natOfDigits 10
          (d :: ds ++ List.replicate (exponent.natAbs + 1 - (d :: ds).length) 0 ++ [0])
        < tenPow (d :: ds ++ List.replicate (exponent.natAbs + 1 - (d :: ds).length) 0 ++
            [0]).length := Text.natOfDigits_lt hdigits
      _ ≤ tenPow 17 := by
        apply tenPow_le_tenPow
        simp only [List.length_append, List.length_replicate, List.length_singleton]
        omega
      _ ≤ significandLimit := by decide
  · rw [significand, List.take_append_drop]
    exact hfits
  · rw [significand, List.take_append_drop]
    exact hfits

/-- Only with an exponent is the power of the last digit positive. -/
theorem power_ofDigits (hpos : 0 < (ofDigits negative (d :: ds) exponent).power) :
    (ofDigits negative (d :: ds) exponent).significand = natOfDigits 10 (d :: ds) ∧
      (ofDigits negative (d :: ds) exponent).power = exponent - ds.length := by
  unfold ofDigits at hpos ⊢
  split_ifs at hpos ⊢ with hrange hneg hlen
  · simp only [power] at hpos
    omega
  · simp only [power] at hpos
    omega
  · simp only [power] at hpos
    omega
  · have hdigits := Text.natOfDigits_decimalDigits exponent.natAbs
    constructor
    · rw [significand, List.take_append_drop]
    · by_cases hneg : exponent < 0
      · simp only [power, hneg, decide_true, hdigits, List.drop_succ_cons, List.drop_zero]
        omega
      · simp only [power, hneg, decide_false, hdigits, List.drop_succ_cons, List.drop_zero]
        omega

theorem form_ofDigits (negative : Bool) (d : Nat) (ds : List Nat) (exponent : Int) :
    (ofDigits negative (d :: ds) exponent).fraction ≠ [] ∨
      (ofDigits negative (d :: ds) exponent).exponent ≠ none := by
  unfold ofDigits
  split_ifs with hrange hneg hlen
  · simp
  · simp
  · left
    rw [Ne, List.drop_eq_nil_iff]
    exact hlen
  · simp

theorem exponent_ofDigits {es : List Nat}
    (h : (ofDigits negative (d :: ds) exponent).exponent = some (false, es)) :
    (natOfDigits 10 es : Int) = exponent := by
  unfold ofDigits at h
  split_ifs at h
  simp only [Option.some.injEq, Prod.mk.injEq, decide_eq_false_iff_not] at h
  rw [← h.2, Text.natOfDigits_decimalDigits]
  omega

/-- The numeral of few digits has a value if the number that it writes is not too large. -/
theorem exists_value?_ofDigits (hlt : ∀ e ∈ d :: ds, e < 10)
    (hfits : natOfDigits 10 (d :: ds) < significandLimit) (hexponent : exponent < twoPow 31)
    (hscale : 0 < exponent - ds.length → (exponent - ds.length).natAbs ≤ 308 ∧
      natOfDigits 10 (d :: ds) * tenPow (exponent - ds.length).natAbs ≤ lastMiddle) :
    ∃ x, (ofDigits negative (d :: ds) exponent).value? = some (.float x) := by
  have hsignificand : (ofDigits negative (d :: ds) exponent).significand < significandLimit :=
    significand_ofDigits_lt hlt hfits
  apply exists_value? (form_ofDigits negative d ds exponent) hsignificand
  · intro es hes
    have heq := exponent_ofDigits hes
    omega
  · apply exists_toFloat? _ hsignificand
    intro hpos
    obtain ⟨heq, hpower⟩ := power_ofDigits hpos
    rw [heq, hpower]
    rw [hpower] at hpos
    exact hscale hpos

end Numeral

/-! ## Numbers -/

namespace Binary64

open Numeral

/-- The point where the search for the shortest decimal ends, with the power of ten of its last
digit. -/
def shortestPoint (x : Binary64) : Nat × Int :=
  (basin x.rank).shortest Value.floatFormat.tie (leadingPower x.units one) 18 0

/-- The power of ten of its first digit. -/
def shortestExponent (x : Binary64) : Int :=
  x.shortestPoint.2 + (decimalDigits x.shortestPoint.1).length - 1

/-- The numeral of a number. -/
def numeral (x : Binary64) : Numeral :=
  if x.rank = 0 then ⟨x.negative, [0], [0], none⟩
  else .ofDigits x.negative (Text.significantDigits x.shortestPoint.1) x.shortestExponent

theorem shortest_eq (x : Binary64) :
    x.shortest Value.floatFormat.tie =
      { digits := (Text.significantDigits x.shortestPoint.1).map Nat.digitChar
        exponent := x.shortestExponent } := by
  unfold shortest
  simp only [Text.significantDigits_map, length_decimal]
  rfl

variable {x : Binary64}

theorem shortestPoint_spec (h : x.rank ≠ 0) :
    1 ≤ x.shortestPoint.1 ∧ x.shortestPoint.1 ≤ tenPow 18 ∧
      (x.shortestPoint.1 : ℚ) * (10 ^ x.shortestPoint.2 * (2 * one)) ≤
        unitsOfRank x.rank + unitsOfRank (x.rank + 1) := by
  apply shortest_spec h Value.floatFormat.tie
  rw [shortestPoint, units]

theorem exists_shortestDigits (h : x.rank ≠ 0) :
    ∃ d ds t, Text.significantDigits x.shortestPoint.1 = d :: ds ∧ d ≠ 0 ∧
      (∀ e ∈ d :: ds, e < 10) ∧
      decimalDigits x.shortestPoint.1 = d :: ds ++ List.replicate t 0 := by
  have hpos := (shortestPoint_spec h).1
  obtain ⟨d, ds, t, hdigits, hd, heq⟩ := Text.exists_significantDigits (n := x.shortestPoint.1)
    (by omega)
  exact ⟨d, ds, t, hdigits, hd, hdigits ▸ Text.significantDigits_lt _, heq⟩

/-- The text of a number is that of its numeral. -/
theorem chars_numeral (x : Binary64) : Value.floatFormat.chars x = x.numeral.chars := by
  have hbody : (if x.rank = 0 then ['0', '.', '0']
      else
        let d := x.shortest Value.floatFormat.tie
        if Value.floatFormat.least ≤ d.exponent ∧ d.exponent ≤ Value.floatFormat.most then
          let cs := d.positional
          if cs.contains '.' then cs else cs ++ ['.', '0']
        else d.scientific) = x.numeral.unsignedChars := by
    unfold numeral
    by_cases hrank : x.rank = 0
    · rw [if_pos hrank, if_pos hrank]
      rfl
    · obtain ⟨d, ds, t, hdigits, -, hlt, -⟩ := exists_shortestDigits hrank
      rw [if_neg hrank, if_neg hrank, shortest_eq, hdigits]
      dsimp only
      by_cases hrange : Value.floatFormat.least ≤ x.shortestExponent ∧
          x.shortestExponent ≤ Value.floatFormat.most
      · rw [if_pos hrange]
        exact positional_eq rfl hlt hrange
      · rw [if_neg hrange]
        exact scientific_eq rfl hrange
  have hnegative : x.numeral.negative = x.negative := by
    unfold numeral
    split_ifs
    · rfl
    · exact negative_ofDigits
  rw [FloatFormat.chars, Numeral.chars, hnegative]
  dsimp only
  rw [hbody]

theorem proper_numeral (x : Binary64) : x.numeral.Proper := by
  unfold numeral
  by_cases hrank : x.rank = 0
  · rw [if_pos hrank]
    exact ⟨⟨0, [], rfl, by simp⟩, by simp, by simp, by simp⟩
  · obtain ⟨d, ds, t, hdigits, hd, hlt, -⟩ := exists_shortestDigits hrank
    rw [if_neg hrank, hdigits]
    exact proper_ofDigits hd hlt

/-- The shortest decimal of a number below the largest does not exceed the last middle. -/
theorem shortestPoint_le (hrank : x.rank ≠ 0) (hlast : x.rank < rankLimit - 1) :
    (x.shortestPoint.1 : ℚ) * 10 ^ x.shortestPoint.2 * (2 * one) ≤
      ((unitsOfRank (rankLimit - 2) + unitsOfRank (rankLimit - 1) : Nat) : ℚ) := by
  obtain ⟨-, -, hle⟩ := shortestPoint_spec hrank
  have hlow : unitsOfRank x.rank ≤ unitsOfRank (rankLimit - 2) :=
    unitsOfRank_strictMono.monotone (by omega)
  have hhigh : unitsOfRank (x.rank + 1) ≤ unitsOfRank (rankLimit - 1) :=
    unitsOfRank_strictMono.monotone (by omega)
  calc (x.shortestPoint.1 : ℚ) * 10 ^ x.shortestPoint.2 * (2 * one)
      = (x.shortestPoint.1 : ℚ) * (10 ^ x.shortestPoint.2 * (2 * one)) := by ring
    _ ≤ unitsOfRank x.rank + unitsOfRank (x.rank + 1) := hle
    _ ≤ ((unitsOfRank (rankLimit - 2) + unitsOfRank (rankLimit - 1) : Nat) : ℚ) := by
      exact_mod_cast Nat.add_le_add hlow hhigh

/-- Scaled by the power of its last digit, the shortest decimal of such a number stays in the
format, and the power is small. -/
theorem shortestDigits_le (hrank : x.rank ≠ 0) (hlast : x.rank < rankLimit - 1) {ds : List Nat}
    {t k : Nat} (hdigits : natOfDigits 10 ds * tenPow t = x.shortestPoint.1)
    (hk : x.shortestPoint.2 + t = k) :
    k ≤ 308 ∧ natOfDigits 10 ds * tenPow k ≤ lastMiddle := by
  have hle := shortestPoint_le hrank hlast
  have hone : 1 ≤ x.shortestPoint.1 := (shortestPoint_spec hrank).1
  have hscaled : (natOfDigits 10 ds * tenPow k * (2 * one) : ℕ) ≤
      unitsOfRank (rankLimit - 2) + unitsOfRank (rankLimit - 1) := by
    have hpower : (10 : ℚ) ^ t * 10 ^ x.shortestPoint.2 = 10 ^ k := by
      rw [← zpow_natCast, ← zpow_natCast, ← zpow_add₀ (by norm_num), add_comm, hk]
    have hcast : ((natOfDigits 10 ds * tenPow k * (2 * one) : ℕ) : ℚ) =
        (x.shortestPoint.1 : ℚ) * 10 ^ x.shortestPoint.2 * (2 * one) := by
      rw [← hdigits]
      push_cast
      rw [cast_tenPow, cast_tenPow, ← hpower]
      ring
    rw [← hcast] at hle
    exact_mod_cast hle
  have hmiddle : natOfDigits 10 ds * tenPow k ≤ lastMiddle :=
    (Nat.le_div_iff_mul_le (Nat.mul_pos (by decide) one_pos)).mpr hscaled
  refine ⟨?_, hmiddle⟩
  by_contra hlarge
  have hpos : 0 < natOfDigits 10 ds := by
    rw [← hdigits] at hone
    exact Nat.pos_of_mul_pos_right hone
  have hbound : lastMiddle < tenPow 309 := by decide +kernel
  have hpow : tenPow 309 ≤ tenPow k := tenPow_le_tenPow (by omega)
  have hmul : tenPow k ≤ natOfDigits 10 ds * tenPow k := Nat.le_mul_of_pos_left _ hpos
  omega

/-- Whether a value is a binary64 number. -/
def isFloat : Value → Bool
  | .float _ => true
  | _ => false

/-- The largest magnitude has a value again. -/
theorem exists_value?_largest (negative : Bool) :
    ∃ y, (largest negative).numeral.value? = some (.float y) := by
  have hfloat : (largest negative).numeral.value?.any isFloat = true := by
    cases negative <;> decide +kernel
  cases hv : (largest negative).numeral.value? with
  | none =>
    rw [hv] at hfloat
    cases hfloat
  | some v =>
    rw [hv] at hfloat
    cases v with
    | float y => exact ⟨y, rfl⟩
    | _ => cases hfloat

/-- Zero has a value again. -/
theorem exists_value?_zero (negative : Bool) :
    ∃ y, Numeral.value? ⟨negative, [0], [0], none⟩ = some (.float y) := by
  have hfits : significand ⟨negative, [0], [0], none⟩ < significandLimit := by
    have hsmall : natOfDigits 10 [0, 0] < significandLimit := by decide
    exact hsmall
  apply exists_value? (Or.inl (List.cons_ne_nil 0 [])) hfits (by simp)
  exact exists_toFloat? _ hfits fun hpos => by simp [power] at hpos

theorem length_shortestDigits_le (hrank : x.rank ≠ 0) :
    (decimalDigits x.shortestPoint.1).length ≤ 19 := by
  obtain ⟨hpos, hfew, -⟩ := shortestPoint_spec hrank
  by_contra hlong
  have hdigit := (Text.tenPow_le_of_digits (n := x.shortestPoint.1) (by omega)).1
  have hpow : tenPow 19 ≤ tenPow ((decimalDigits x.shortestPoint.1).length - 1) :=
    tenPow_le_tenPow (by omega)
  have htoo : tenPow 18 < tenPow 19 := by decide
  omega

/-- Every magnitude between these has a value again. -/
theorem exists_value?_of_lt (hrank : x.rank ≠ 0) (hlast : x.rank < rankLimit - 1) :
    ∃ y, x.numeral.value? = some (.float y) := by
  obtain ⟨d, ds, t, hdigits, hd, hlt, hall⟩ := exists_shortestDigits hrank
  have hvalue : natOfDigits 10 (d :: ds) * tenPow t = x.shortestPoint.1 := by
    rw [← Text.natOfDigits_append_zeros, ← hall, Text.natOfDigits_decimalDigits]
  have hlength : (decimalDigits x.shortestPoint.1).length = ds.length + 1 + t := by
    rw [hall, List.length_append, List.length_cons, List.length_replicate]
  have hshort : (decimalDigits x.shortestPoint.1).length ≤ 19 := length_shortestDigits_le hrank
  have hfits : natOfDigits 10 (d :: ds) < significandLimit := by
    calc natOfDigits 10 (d :: ds) ≤ natOfDigits 10 (d :: ds) * tenPow t :=
          Nat.le_mul_of_pos_right _ (tenPow_pos t)
      _ ≤ tenPow 18 := hvalue ▸ (shortestPoint_spec hrank).2.1
      _ < significandLimit := by decide
  have hpower : x.shortestExponent - ds.length = x.shortestPoint.2 + t := by
    rw [shortestExponent, hlength]
    omega
  have hscale : 0 < x.shortestExponent - ds.length →
      (x.shortestExponent - ds.length).natAbs ≤ 308 ∧
        natOfDigits 10 (d :: ds) * tenPow (x.shortestExponent - ds.length).natAbs ≤
          lastMiddle := by
    intro hscaled
    exact shortestDigits_le hrank hlast hvalue (by omega)
  have hexponent : x.shortestExponent < twoPow 31 := by
    have hlimit : 327 < twoPow 31 := by decide
    by_cases hscaled : 0 < x.shortestExponent - ds.length
    · have hsmall := (hscale hscaled).1
      omega
    · omega
  rw [numeral, if_neg hrank, hdigits]
  exact exists_value?_ofDigits hlt hfits hexponent hscale

/-- The numeral of a number has a value. -/
theorem exists_value?_numeral (x : Binary64) : ∃ y, x.numeral.value? = some (.float y) := by
  by_cases hrank : x.rank = 0
  · rw [numeral, if_pos hrank]
    exact exists_value?_zero x.negative
  by_cases hlast : x.rank < rankLimit - 1
  · exact exists_value?_of_lt hrank hlast
  · have hlargest : x = largest x.negative := by
      obtain ⟨negative, rank, hrank⟩ := x
      have heq : rank = rankLimit - 1 := by
        simp only at hlast
        omega
      subst heq
      rfl
    rw [hlargest]
    exact exists_value?_largest x.negative

/-- The number that the text of a number is read back as. -/
def reread (x : Binary64) : Binary64 :=
  match x.numeral.value? with
  | some (.float y) => y
  | _ => x

theorem value?_numeral (x : Binary64) : x.numeral.value? = some (.float x.reread) := by
  obtain ⟨y, hy⟩ := exists_value?_numeral x
  simp [reread, hy]

end Binary64
end Quire
