import Mathlib.Data.List.Induction
import Mathlib.Tactic.Ring
import Quire.Number.Powers
import Quire.Text.Blank

/-!
# Decimal numerals

The digits of a number, most significant first. Every reader of digits gives the number back.
-/
namespace Quire

theorem tenPow_pos (n : Nat) : 0 < tenPow n := Nat.pow_pos (by decide)

theorem tenPow_le_tenPow {m n : Nat} (h : m ≤ n) : tenPow m ≤ tenPow n :=
  Nat.pow_le_pow_right (by decide) h

namespace Text

theorem digit?_digitChar {d : Nat} (h : d < 10) : digit? d.digitChar = some d := by
  have hall : ∀ d < 10, digit? d.digitChar = some d := by decide
  exact hall d h

theorem digitChar_ne {d : Nat} (h : d < 10) {c : Char} (hc : digit? c = none) :
    d.digitChar ≠ c := by
  intro heq
  have hd := digit?_digitChar h
  rw [heq, hc] at hd
  cases hd

theorem decimal_of_lt {n : Nat} (h : n < 10) : decimal n = [n.digitChar] :=
  Nat.toDigits_of_lt_base h

theorem decimal_of_le {n : Nat} (h : 10 ≤ n) :
    decimal n = decimal (n / 10) ++ [(n % 10).digitChar] :=
  Nat.toDigits_of_base_le (by decide) h

/-- The decimal digits of a number, most significant first. -/
def decimalDigits (n : Nat) : List Nat :=
  if n < 10 then [n] else decimalDigits (n / 10) ++ [n % 10]

theorem decimal_eq_map (n : Nat) : decimal n = (decimalDigits n).map Nat.digitChar := by
  induction n using decimalDigits.induct with
  | case1 n h =>
    rw [decimalDigits, if_pos h, decimal_of_lt h]
    rfl
  | case2 n h ih =>
    rw [decimalDigits, if_neg h, decimal_of_le (by omega), List.map_append, ih]
    rfl

theorem decimalDigits_lt (n : Nat) : ∀ d ∈ decimalDigits n, d < 10 := by
  induction n using decimalDigits.induct with
  | case1 n h =>
    rw [decimalDigits, if_pos h]
    simpa using h
  | case2 n h ih =>
    rw [decimalDigits, if_neg h]
    intro d hd
    rcases List.mem_append.mp hd with hd | hd
    · exact ih d hd
    · rw [List.mem_singleton.mp hd]
      omega

/-- No numeral of more than one digit starts with a zero. -/
theorem exists_decimalDigits_eq_cons (n : Nat) :
    ∃ d ds, decimalDigits n = d :: ds ∧ (ds ≠ [] → d ≠ 0) := by
  induction n using decimalDigits.induct with
  | case1 n h =>
    refine ⟨n, [], ?_, fun hne => (hne rfl).elim⟩
    rw [decimalDigits, if_pos h]
  | case2 n h ih =>
    obtain ⟨d, ds, heq, hzero⟩ := ih
    refine ⟨d, ds ++ [n % 10], ?_, fun _ hd => ?_⟩
    · rw [decimalDigits, if_neg h, heq]
      rfl
    · have hds : ds = [] := by
        by_contra hne
        exact hzero hne hd
      subst hds hd
      rw [decimalDigits] at heq
      split at heq
      · simp only [List.cons.injEq, and_true] at heq
        omega
      · have hlen := congrArg List.length heq
        have hpos : 0 < (decimalDigits (n / 10 / 10)).length := by
          rw [decimalDigits]
          split <;> simp
        simp only [List.length_append, List.length_cons, List.length_nil] at hlen
        omega

theorem natOfDigits_decimalDigits (n : Nat) : natOfDigits 10 (decimalDigits n) = n := by
  induction n using decimalDigits.induct with
  | case1 n h =>
    rw [decimalDigits, if_pos h]
    simp [natOfDigits]
  | case2 n h ih =>
    rw [decimalDigits, if_neg h]
    rw [natOfDigits] at ih ⊢
    rw [List.foldl_append, ih]
    simp only [List.foldl_cons, List.foldl_nil]
    omega

/-- The number of digits tells a number's power of ten. -/
theorem tenPow_le_of_digits {n : Nat} (h : n ≠ 0) :
    tenPow ((decimalDigits n).length - 1) ≤ n ∧ n < tenPow (decimalDigits n).length := by
  induction n using decimalDigits.induct with
  | case1 n hlt =>
    have hone : tenPow 0 = 1 := rfl
    have hten : tenPow 1 = 10 := rfl
    rw [decimalDigits, if_pos hlt, List.length_singleton, Nat.sub_self]
    omega
  | case2 n hge ih =>
    obtain ⟨hlow, hhigh⟩ := ih (by omega)
    have hlength : 0 < (decimalDigits (n / 10)).length := by
      obtain ⟨d, ds, heq, -⟩ := exists_decimalDigits_eq_cons (n / 10)
      simp [heq]
    obtain ⟨l, hl⟩ : ∃ l, (decimalDigits (n / 10)).length = l + 1 :=
      ⟨(decimalDigits (n / 10)).length - 1, by omega⟩
    rw [decimalDigits, if_neg hge, List.length_append, List.length_singleton, Nat.add_sub_cancel]
    rw [hl] at hlow hhigh ⊢
    rw [Nat.add_sub_cancel] at hlow
    rw [tenPow_succ (l + 1), tenPow_succ l] at *
    omega

theorem natOfDigits_concat (ds : List Nat) (d : Nat) :
    natOfDigits 10 (ds ++ [d]) = natOfDigits 10 ds * 10 + d := by simp [natOfDigits]

theorem natOfDigits_lt {ds : List Nat} (h : ∀ d ∈ ds, d < 10) :
    natOfDigits 10 ds < tenPow ds.length := by
  induction ds using List.reverseRecOn with
  | nil => decide
  | append_singleton ds d ih =>
    have hds := ih fun e he => h e (List.mem_append_left _ he)
    have hd := h d (by simp)
    rw [natOfDigits_concat, List.length_append, List.length_singleton, tenPow_succ]
    omega

theorem natOfDigits_append_zeros (ds : List Nat) (n : Nat) :
    natOfDigits 10 (ds ++ List.replicate n 0) = natOfDigits 10 ds * tenPow n := by
  induction n with
  | zero => simp [tenPow]
  | succ n ih =>
    rw [List.replicate_succ', ← List.append_assoc, natOfDigits_concat, ih, tenPow_succ]
    ring

theorem natOfDigits_zeros_append (n : Nat) (ds : List Nat) :
    natOfDigits 10 (List.replicate n 0 ++ ds) = natOfDigits 10 ds := by
  induction n with
  | zero => rfl
  | succ n ih =>
    rw [natOfDigits] at ih ⊢
    rw [List.replicate_succ, List.cons_append, List.foldl_cons]
    exact ih

theorem mapM_digit? {ds : List Nat} (h : ∀ d ∈ ds, d < 10) :
    (ds.map Nat.digitChar).mapM digit? = some ds := by
  induction ds with
  | nil => rfl
  | cons d ds ih =>
    rw [List.forall_mem_cons] at h
    rw [List.map_cons, List.mapM_cons, digit?_digitChar h.1, ih h.2]
    rfl

theorem natNumeral?_decimal (n : Nat) : natNumeral? (decimal n) = some n := by
  obtain ⟨d, ds, heq, _⟩ := exists_decimalDigits_eq_cons n
  have hmap := mapM_digit? (decimalDigits_lt n)
  have hvalue := natOfDigits_decimalDigits n
  rw [decimal_eq_map]
  rw [heq] at hmap hvalue ⊢
  rw [List.map_cons] at hmap ⊢
  rw [natNumeral?, hmap, Option.map_some, hvalue]
  simp

end Text
end Quire
