import Quire.Json.Reader
import Quire.Proofs.Decimal
import Quire.Proofs.Rounding

/-!
# Numerals

A numeral that is written properly is read back digit by digit, whatever delimiter follows. It has
a value unless it is too large: scaling down always succeeds, and scaling up does below the middle
of the two largest magnitudes.
-/
namespace Quire

open Text (Glyph natOfDigits)

/-! ## Writing -/

namespace Numeral

/-- The text of the digits after the point. -/
def fractionChars : List Nat → List Char
  | [] => []
  | d :: ds => '.' :: (d :: ds).map Nat.digitChar

/-- The text of an exponent. -/
def exponentChars : Option (Bool × List Nat) → List Char
  | none => []
  | some (negative, ds) => 'e' :: (if negative then '-' else '+') :: ds.map Nat.digitChar

/-- The text of a numeral after its sign. -/
def unsignedChars (n : Numeral) : List Char :=
  n.whole.map Nat.digitChar ++ (fractionChars n.fraction ++ exponentChars n.exponent)

/-- The text of a numeral. -/
def chars (n : Numeral) : List Char :=
  if n.negative then '-' :: n.unsignedChars else n.unsignedChars

/-- A numeral with digits where the grammar asks for some, and without a leading zero. -/
structure Proper (n : Numeral) : Prop where
  whole : ∃ d ds, n.whole = d :: ds ∧ (ds ≠ [] → d ≠ 0)
  whole_lt : ∀ d ∈ n.whole, d < 10
  fraction_lt : ∀ d ∈ n.fraction, d < 10
  exponent : ∀ e ∈ n.exponent, e.2 ≠ [] ∧ ∀ d ∈ e.2, d < 10

end Numeral

/-! ## Reading -/

namespace Raw

/-- Whether the text ends or a delimiter of a container follows. -/
def atDelimiter : List Glyph → Bool
  | [] => true
  | .char c :: _ => c = ',' || c = ']' || c = '\x7d'
  | .stray _ :: _ => false

theorem digits_of_atDelimiter {rest : List Glyph} (h : atDelimiter rest = true) :
    digits rest = ([], rest) := by
  match rest, h with
  | [], _ => rfl
  | .char c :: tail, h =>
    simp only [atDelimiter, Bool.or_eq_true, decide_eq_true_eq] at h
    rcases h with (rfl | rfl) | rfl <;> rfl

/-- Digits are read up to the first unit that is none. -/
theorem digits_append {rest : List Glyph} (hrest : digits rest = ([], rest)) {ds : List Nat}
    (h : ∀ d ∈ ds, d < 10) :
    digits ((ds.map Nat.digitChar).map .char ++ rest) = (ds, rest) := by
  induction ds with
  | nil => simpa using hrest
  | cons d ds ih =>
    rw [List.forall_mem_cons] at h
    simp only [List.map_cons, List.cons_append]
    rw [digits, Text.digit?_digitChar h.1]
    simp only [ih h.2]

theorem wholePart?_append {rest : List Glyph} (hrest : digits rest = ([], rest)) {ds : List Nat}
    (hwhole : ∃ e es, ds = e :: es ∧ (es ≠ [] → e ≠ 0)) (h : ∀ d ∈ ds, d < 10) :
    wholePart? ((ds.map Nat.digitChar).map .char ++ rest) = some (ds, rest) := by
  obtain ⟨e, es, rfl, hzero⟩ := hwhole
  rw [wholePart?, digits_append hrest h]
  rcases es with _ | ⟨f, es⟩
  · cases e <;> rfl
  · cases e with
    | zero => exact absurd rfl (hzero (List.cons_ne_nil f es))
    | succ e => rfl

theorem exponentDigits?_append {rest : List Glyph} (hrest : digits rest = ([], rest))
    (negative : Bool) {ds : List Nat} (hne : ds ≠ []) (h : ∀ d ∈ ds, d < 10) :
    exponentDigits? negative ((ds.map Nat.digitChar).map .char ++ rest) =
      some (some (negative, ds), rest) := by
  rw [exponentDigits?, digits_append hrest h]
  rcases ds with _ | ⟨d, ds⟩
  · exact absurd rfl hne
  · rfl

theorem exponentPart?_append {rest : List Glyph} (hrest : atDelimiter rest = true)
    {exponent : Option (Bool × List Nat)}
    (h : ∀ e ∈ exponent, e.2 ≠ [] ∧ ∀ d ∈ e.2, d < 10) :
    exponentPart? ((Numeral.exponentChars exponent).map .char ++ rest) = some (exponent, rest) := by
  rcases exponent with _ | ⟨negative, ds⟩
  · match rest, hrest with
    | [], _ => rfl
    | .char c :: tail, hrest =>
      simp only [atDelimiter, Bool.or_eq_true, decide_eq_true_eq] at hrest
      rcases hrest with (rfl | rfl) | rfl <;> rfl
  · obtain ⟨hne, hlt⟩ := h _ rfl
    have hdigits := exponentDigits?_append (digits_of_atDelimiter hrest) negative hne hlt
    cases negative with
    | true => exact hdigits
    | false => exact hdigits

theorem fractionPart?_append {rest : List Glyph} (hrest : digits rest = ([], rest))
    (hpoint : rest.head? ≠ some (.char '.')) {fraction : List Nat}
    (h : ∀ d ∈ fraction, d < 10) :
    fractionPart? ((Numeral.fractionChars fraction).map .char ++ rest) = some (fraction, rest) := by
  rcases fraction with _ | ⟨d, ds⟩
  · simp only [Numeral.fractionChars, List.map_nil, List.nil_append]
    unfold fractionPart?
    split
    · simp at hpoint
    · rfl
  · have hdigits := digits_append hrest h
    simp only [Numeral.fractionChars, List.map_cons, List.cons_append] at hdigits ⊢
    simp only [fractionPart?, hdigits]

/-- A proper numeral is read back, whatever delimiter follows. -/
theorem numeral?_unsignedChars {n : Numeral} (h : n.Proper) {rest : List Glyph}
    (hrest : atDelimiter rest = true) :
    numeral? n.negative (n.unsignedChars.map .char ++ rest) = some (.num n, rest) := by
  have hexponent := exponentPart?_append hrest h.exponent
  have hafter : digits ((Numeral.exponentChars n.exponent).map .char ++ rest) =
        ([], (Numeral.exponentChars n.exponent).map .char ++ rest) ∧
      ((Numeral.exponentChars n.exponent).map Glyph.char ++ rest).head? ≠ some (.char '.') := by
    rcases n.exponent with _ | ⟨negative, ds⟩
    · refine ⟨by simpa [Numeral.exponentChars] using digits_of_atDelimiter hrest, ?_⟩
      match rest, hrest with
      | [], _ => simp [Numeral.exponentChars]
      | .char c :: tail, hrest =>
        simp only [atDelimiter, Bool.or_eq_true, decide_eq_true_eq] at hrest
        rcases hrest with (rfl | rfl) | rfl <;> simp [Numeral.exponentChars]
    · exact ⟨rfl, by simp [Numeral.exponentChars]⟩
  have hfraction := fractionPart?_append hafter.1 hafter.2 h.fraction_lt
  have hpoint : digits ((Numeral.fractionChars n.fraction).map .char ++
        ((Numeral.exponentChars n.exponent).map .char ++ rest)) =
      ([], (Numeral.fractionChars n.fraction).map .char ++
        ((Numeral.exponentChars n.exponent).map .char ++ rest)) := by
    rcases n.fraction with _ | ⟨d, ds⟩
    · simpa [Numeral.fractionChars] using hafter.1
    · rfl
  have hwhole := wholePart?_append hpoint h.whole h.whole_lt
  simp only [Numeral.unsignedChars, List.map_append, List.append_assoc]
  simp only [numeral?, hwhole, hfraction, hexponent, Option.bind_eq_bind, Option.bind_some]

theorem valueAt?_digit {d : Nat} (h : d < 10) (bound : Nat) (gs : List Glyph) :
    valueAt? (bound + 1) (.char d.digitChar :: gs) = numeral? false (.char d.digitChar :: gs) := by
  match d, h with
  | 0, _ | 1, _ | 2, _ | 3, _ | 4, _ | 5, _ | 6, _ | 7, _ | 8, _ | 9, _ => rfl

theorem valueAt?_chars {n : Numeral} (h : n.Proper) (bound : Nat) {rest : List Glyph}
    (hrest : atDelimiter rest = true) :
    valueAt? (bound + 1) (n.chars.map .char ++ rest) = some (.num n, rest) := by
  have hread := numeral?_unsignedChars h hrest
  rw [Numeral.chars]
  cases hnegative : n.negative with
  | true =>
    rw [hnegative] at hread
    exact hread
  | false =>
    obtain ⟨d, ds, hwhole, -⟩ := h.whole
    have hlt : d < 10 := h.whole_lt d (by simp [hwhole])
    rw [hnegative] at hread
    simp only [Bool.false_eq_true, if_false]
    simp only [Numeral.unsignedChars, hwhole, List.map_cons, List.cons_append] at hread ⊢
    rw [valueAt?_digit hlt, hread]

end Raw

/-- What the text of a numeral can start with. -/
theorem Numeral.exists_chars_eq_cons {n : Numeral} (h : n.Proper) :
    ∃ c cs, n.chars = c :: cs ∧ Raw.isSpace (.char c) = false ∧ c ≠ ']' := by
  unfold chars
  cases n.negative with
  | true => exact ⟨'-', _, rfl, rfl, by decide⟩
  | false =>
    obtain ⟨d, ds, hwhole, -⟩ := h.whole
    have hlt : d < 10 := h.whole_lt d (by simp [hwhole])
    have hdigit : ∀ d < 10, Raw.isSpace (.char d.digitChar) = false ∧ d.digitChar ≠ ']' := by
      decide
    have hchars : n.unsignedChars = d.digitChar :: (ds.map Nat.digitChar ++
        (fractionChars n.fraction ++ exponentChars n.exponent)) := by
      rw [unsignedChars, hwhole, List.map_cons, List.cons_append]
    exact ⟨d.digitChar, _, hchars, hdigit d hlt⟩

/-! ## Significands -/

namespace Numeral

theorem le_foldl_digits (ds : List Nat) (s : Nat) :
    s ≤ ds.foldl (fun n d => n * 10 + d) s := by
  induction ds generalizing s with
  | nil => exact Nat.le_refl s
  | cons d ds ih =>
    have hstep := ih (s * 10 + d)
    rw [List.foldl_cons]
    omega

/-- The digits of a number that fits are all taken. -/
theorem takeWhole_of_lt (ds : List Nat) {s : Nat}
    (h : ds.foldl (fun n d => n * 10 + d) s < significandLimit) :
    takeWhole s ds = (⟨ds.foldl (fun n d => n * 10 + d) s, 0⟩, false) := by
  induction ds generalizing s with
  | nil => rfl
  | cons d ds ih =>
    rw [List.foldl_cons] at h ⊢
    have hle := le_foldl_digits ds (s * 10 + d)
    rw [takeWhole, if_pos (by omega), ih h]

theorem takeWhole_of_le (ds : List Nat) {s : Nat} (hs : s < significandLimit)
    (h : significandLimit ≤ ds.foldl (fun n d => n * 10 + d) s) :
    (takeWhole s ds).2 = true := by
  induction ds generalizing s with
  | nil => exact absurd hs (Nat.not_lt.mpr h)
  | cons d ds ih =>
    rw [List.foldl_cons] at h
    rw [takeWhole]
    split
    · next hlt => exact ih hlt h
    · rfl

theorem takeFraction_of_lt (ds : List Nat) {s : Nat} (power : Int)
    (h : ds.foldl (fun n d => n * 10 + d) s < significandLimit) :
    takeFraction ⟨s, power⟩ ds =
      ⟨ds.foldl (fun n d => n * 10 + d) s, power - ds.length⟩ := by
  induction ds generalizing s power with
  | nil => simp [takeFraction]
  | cons d ds ih =>
    rw [List.foldl_cons] at h ⊢
    have hle := le_foldl_digits ds (s * 10 + d)
    have hpower : power - 1 - ds.length = power - (d :: ds).length := by
      rw [List.length_cons]
      omega
    rw [takeFraction, if_pos (by dsimp only; omega), ih _ h, hpower]

/-! ## Scaling -/

open Binary64

theorem rank_one : nearestRank one 1 = 1023 * twoPow 52 ∧ unitsOfRank (1023 * twoPow 52) = one := by
  decide +kernel

theorem exists_nearest? {negative : Bool} {num den : Nat} (h : nearestRank num den < rankLimit) :
    ∃ x, nearest? negative num den = some x := by
  unfold nearest?
  simp [h]

/-- The powers of ten up to `308` are in the format, and none is below one. -/
theorem exists_ofDecimal? {k : Nat} (h : k ≤ 308) :
    ∃ p, ofDecimal? false 1 k = some p ∧ p.negative = false ∧
      p.rank = nearestRank (tenPow k * one) 1 ∧ one ≤ p.units := by
  have hlast : nearestRank (tenPow 308 * one) 1 < rankLimit := by decide +kernel
  have hpow : tenPow k ≤ tenPow 308 := tenPow_le_tenPow h
  have hone : 1 ≤ tenPow k := tenPow_pos k
  have hrank : nearestRank (tenPow k * one) 1 < rankLimit := by
    refine Nat.lt_of_le_of_lt (nearestRank_mono (by decide) (by decide) ?_) hlast
    exact Nat.mul_le_mul_right 1 (Nat.mul_le_mul_right one hpow)
  have hunits : one ≤ unitsOfRank (nearestRank (tenPow k * one) 1) := by
    have hle : nearestRank one 1 ≤ nearestRank (tenPow k * one) 1 := by
      apply nearestRank_mono (by decide) (by decide)
      exact Nat.mul_le_mul_right 1 (Nat.le_mul_of_pos_left one hone)
    calc one = unitsOfRank (nearestRank one 1) := by rw [rank_one.1, rank_one.2]
      _ ≤ _ := unitsOfRank_strictMono.monotone hle
  refine ⟨⟨false, _, hrank⟩, ?_, rfl, rfl, hunits⟩
  have hnonneg : ¬ ((k : Int) < 0) := by omega
  rw [ofDecimal?, if_neg hnonneg, Int.natAbs_natCast, Nat.one_mul, nearest?]
  simp [hrank]

/-- A quotient by a number not below one is in the format. -/
theorem exists_div? (x : Binary64) {p : Binary64} (hp : one ≤ p.units) :
    ∃ y, x.div? p = some y := by
  have hpos : 0 < p.units := Nat.lt_of_lt_of_le (twoPow_pos 1074) hp
  rw [div?, if_neg hpos.ne']
  apply exists_nearest?
  have hle : x.units * one ≤ unitsOfRank x.rank * p.units := Nat.mul_le_mul_left _ hp
  exact Nat.lt_of_le_of_lt (nearestRank_le hpos hle) x.rank_lt

theorem exists_mul?_one (x : Binary64) {p : Binary64} (hp : p.units = one) :
    ∃ y, x.mul? p = some y := by
  rw [mul?, hp]
  apply exists_nearest?
  exact Nat.lt_of_le_of_lt (nearestRank_le (twoPow_pos 1074) (Nat.le_refl _)) x.rank_lt

/-- One step of scaling down succeeds. -/
theorem exists_scaled_near (x : Binary64) {power : Int} (h : power ≤ 0)
    (hnear : power.natAbs ≤ 308) :
    ∃ y, ((ofDecimal? false 1 power.natAbs).bind fun p =>
      if 0 ≤ power then x.mul? p else x.div? p) = some y := by
  obtain ⟨p, hp, -, hrank, hunits⟩ := exists_ofDecimal? hnear
  rw [hp, Option.bind_some]
  by_cases hzero : 0 ≤ power
  · have hpower : power.natAbs = 0 := by omega
    have hone : tenPow 0 = 1 := rfl
    rw [hpower, hone, Nat.one_mul, rank_one.1] at hrank
    rw [if_pos hzero]
    apply exists_mul?_one
    rw [units, hrank, rank_one.2]
  · rw [if_neg hzero]
    exact exists_div? x hunits

theorem scale?_of_far (x : Binary64) {power : Int} (h : power ≤ 0) (hfar : ¬ power.natAbs ≤ 308)
    (fuel : Nat) :
    scale? fuel x power =
      if x.rank = 0 then some x
      else
        match fuel with
        | 0 => some .zero
        | fuel + 1 => (ofDecimal? false 1 308).bind fun p =>
          (x.div? p).bind fun y => scale? fuel y (power + 308) := by
  have hneg : ¬ 0 ≤ power := by omega
  cases fuel with
  | zero => simp only [scale?, if_neg hfar, if_neg hneg]
  | succ fuel =>
    simp only [scale?, if_neg hfar, if_neg hneg]
    rfl

/-- Scaling down always succeeds. -/
theorem exists_scale?_of_nonpos (fuel : Nat) (x : Binary64) {power : Int} (h : power ≤ 0) :
    ∃ y, scale? fuel x power = some y := by
  induction fuel generalizing x power with
  | zero =>
    by_cases hnear : power.natAbs ≤ 308
    · rw [scale?, if_pos hnear]
      exact exists_scaled_near x h hnear
    · rw [scale?_of_far x h hnear]
      by_cases hx : x.rank = 0
      · exact ⟨x, if_pos hx⟩
      · exact ⟨.zero, if_neg hx⟩
  | succ fuel ih =>
    by_cases hnear : power.natAbs ≤ 308
    · rw [scale?, if_pos hnear]
      exact exists_scaled_near x h hnear
    · rw [scale?_of_far x h hnear]
      by_cases hx : x.rank = 0
      · exact ⟨x, if_pos hx⟩
      · obtain ⟨p, hp, -, -, hunits⟩ := exists_ofDecimal? (Nat.le_refl 308)
        obtain ⟨y, hy⟩ := exists_div? x hunits
        have hp' : ofDecimal? false 1 308 = some p := hp
        rw [if_neg hx]
        simp only [hp', hy, Option.bind_some]
        exact ih y (by omega)

/-- The whole part of the middle between the two largest magnitudes. -/
def lastMiddle : Nat :=
  (unitsOfRank (rankLimit - 2) + unitsOfRank (rankLimit - 1)) / (2 * one)

/-- The rank of the product of a rounded significand and a rounded power of ten. -/
def scaledRank (significand k : Nat) : Nat :=
  nearestRank ((ofInt significand).units * unitsOfRank (nearestRank (tenPow k * one) 1)) one

theorem scaledRank_mono {m n j k : Nat} (hmn : m ≤ n) (hjk : j ≤ k) :
    scaledRank m j ≤ scaledRank n k := by
  have hsignificand : (ofInt m).units ≤ (ofInt n).units := by
    apply unitsOfRank_strictMono.monotone
    apply rank_ofInt_mono
    simpa using hmn
  have hpower : unitsOfRank (nearestRank (tenPow j * one) 1) ≤
      unitsOfRank (nearestRank (tenPow k * one) 1) := by
    apply unitsOfRank_strictMono.monotone
    apply nearestRank_mono (by decide) (by decide)
    exact Nat.mul_le_mul_right 1 (Nat.mul_le_mul_right one (tenPow_le_tenPow hjk))
  apply nearestRank_mono (twoPow_pos 1074) (twoPow_pos 1074)
  exact Nat.mul_le_mul_right one (Nat.mul_le_mul hsignificand hpower)

/-- What does not exceed the last middle before rounding stays in the format. Up to `10 ^ 288` the
product of any significand is far below it, beyond that the largest significand of each power
decides. -/
theorem scaledRank_lt {significand k : Nat} (hfits : significand < significandLimit)
    (hk : k ≤ 308) (hle : significand * tenPow k ≤ lastMiddle) :
    scaledRank significand k < rankLimit := by
  by_cases hsmall : k ≤ 288
  · have hlast : scaledRank significandLimit 288 < rankLimit := by decide +kernel
    exact Nat.lt_of_le_of_lt (scaledRank_mono hfits.le hsmall) hlast
  · have hall : ∀ j < 20,
        scaledRank (lastMiddle / tenPow (289 + j)) (289 + j) < rankLimit := by
      decide +kernel
    obtain ⟨j, rfl⟩ : ∃ j, k = 289 + j := ⟨k - 289, by omega⟩
    have hlargest : significand ≤ lastMiddle / tenPow (289 + j) :=
      (Nat.le_div_iff_mul_le (tenPow_pos _)).mpr hle
    exact Nat.lt_of_le_of_lt (scaledRank_mono hlargest (Nat.le_refl _)) (hall j (by omega))

/-- Scaling up succeeds where the number does not exceed that middle. -/
theorem exists_scale?_of_le {significand k : Nat} (fuel : Nat)
    (hfits : significand < significandLimit) (hk : k ≤ 308)
    (hle : significand * tenPow k ≤ lastMiddle) :
    ∃ y, scale? fuel (ofInt significand) k = some y := by
  obtain ⟨p, hp, -, hrank, -⟩ := exists_ofDecimal? hk
  have hnear : nearestRank ((ofInt significand).units * p.units) one < rankLimit := by
    have hscaled := scaledRank_lt hfits hk hle
    rw [scaledRank, ← hrank] at hscaled
    exact hscaled
  have hproduct : ∃ y, (ofInt significand).mul? p = some y := exists_nearest? hnear
  obtain ⟨y, hy⟩ := hproduct
  have hstep : ((ofDecimal? false 1 (k : Int).natAbs).bind fun q =>
      if (0 : Int) ≤ k then (ofInt significand).mul? q else (ofInt significand).div? q) =
        some y := by
    rw [Int.natAbs_natCast, hp, Option.bind_some, if_pos (Int.natCast_nonneg k), hy]
  have hnatAbs : (k : Int).natAbs ≤ 308 := hk
  refine ⟨y, ?_⟩
  cases fuel with
  | zero => rw [scale?, if_pos hnatAbs]; exact hstep
  | succ fuel => rw [scale?, if_pos hnatAbs]; exact hstep

/-- A scaled significand has a number unless it is scaled up beyond the middle. -/
theorem exists_toFloat? (negative : Bool) {significand : Nat} {power : Int}
    (hfits : significand < significandLimit)
    (h : 0 < power → power.natAbs ≤ 308 ∧ significand * tenPow power.natAbs ≤ lastMiddle) :
    ∃ x, toFloat? negative ⟨significand, power⟩ = some x := by
  have hscale : ∃ y, scale? 4 (ofInt significand) power = some y := by
    by_cases hpos : 0 < power
    · obtain ⟨hk, hle⟩ := h hpos
      have hpower : power = power.natAbs := by omega
      rw [hpower]
      exact exists_scale?_of_le 4 hfits hk hle
    · exact exists_scale?_of_nonpos 4 _ (by omega)
  obtain ⟨y, hy⟩ := hscale
  exact ⟨signed negative y, by rw [toFloat?, hy, Option.map_some]⟩

/-- The number that the digits before and after the point make. -/
def significand (n : Numeral) : Nat := natOfDigits 10 (n.whole ++ n.fraction)

/-- The power of ten of the last digit. -/
def power (n : Numeral) : Int :=
  match n.exponent with
  | none => -n.fraction.length
  | some (true, ds) => -n.fraction.length - natOfDigits 10 ds
  | some (false, ds) => -n.fraction.length + natOfDigits 10 ds

/-- A numeral with a point or an exponent has a value if its significand fits, its exponent too,
and the scaled number is not too large. -/
theorem exists_value? {n : Numeral} (hform : n.fraction ≠ [] ∨ n.exponent ≠ none)
    (hfits : n.significand < significandLimit)
    (hexponent : ∀ ds, n.exponent = some (false, ds) → natOfDigits 10 ds < twoPow 31)
    (hscale : ∃ x, toFloat? n.negative ⟨n.significand, n.power⟩ = some x) :
    ∃ x, n.value? = some (.float x) := by
  obtain ⟨x, hx⟩ := hscale
  have hsplit : n.fraction.foldl (fun n d => n * 10 + d) (natOfDigits 10 n.whole) =
      n.significand := by
    rw [significand, natOfDigits, natOfDigits, List.foldl_append]
  have hwhole : n.whole.foldl (fun n d => n * 10 + d) 0 < significandLimit := by
    have hle := le_foldl_digits n.fraction (natOfDigits 10 n.whole)
    rw [hsplit] at hle
    exact Nat.lt_of_le_of_lt hle hfits
  have hfraction := takeFraction_of_lt n.fraction (s := natOfDigits 10 n.whole) 0
    (by rw [hsplit]; exact hfits)
  rw [hsplit, Int.zero_sub] at hfraction
  have htake : takeWhole 0 n.whole = (⟨natOfDigits 10 n.whole, 0⟩, false) :=
    takeWhole_of_lt _ hwhole
  unfold value?
  simp only [htake]
  split
  · next hf he => simp [hf, he] at hform
  · next hform' =>
    simp only [hfraction]
    unfold power at hx
    split
    · next he =>
      simp only [he] at hx
      exact ⟨x, by simp [hx]⟩
    · next negative ds he =>
      by_cases hlarge : twoPow 31 ≤ natOfDigits 10 ds
      · cases negative with
        | true => exact ⟨signed n.negative .zero, by simp [hlarge]⟩
        | false => exact absurd (hexponent ds he) (Nat.not_lt.mpr hlarge)
      · cases negative with
        | true =>
          simp only [he] at hx
          exact ⟨x, by simp [hlarge, hx]⟩
        | false =>
          simp only [he] at hx
          exact ⟨x, by simp [hlarge, hx]⟩

end Numeral
end Quire
