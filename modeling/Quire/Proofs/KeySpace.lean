import Quire.Cache.Keys
import Quire.Proofs.Decimal

/-!
# The keys of a collection

Keys of different kinds are different, and the key of a list determines its version and the
fingerprint of its mode.
-/
namespace Quire

theorem toList_toString_nat (n : Nat) : (toString n).toList = Text.decimal n := by
  rw [Nat.toString_eq_ofList_toDigits, String.toList_ofList, Text.decimal]

theorem Text.notMem_decimal {c : Char} (hc : digit? c = none) (n : Nat) : c ∉ decimal n := by
  rw [decimal_eq_map]
  intro hmem
  obtain ⟨d, hd, heq⟩ := List.mem_map.mp hmem
  exact digitChar_ne (decimalDigits_lt n d hd) hc heq

theorem Text.decimal_inj {n m : Nat} (h : decimal n = decimal m) : n = m := by
  have hvalue := natNumeral?_decimal n
  rw [h, natNumeral?_decimal] at hvalue
  exact (Option.some.inj hvalue).symm

theorem toList_toString_int (n : Int) : (toString n).toList = Value.intChars n := by
  cases n with
  | ofNat n => exact toList_toString_nat n
  | negSucc n =>
    have hminus : toString (Int.negSucc n) = "-" ++ toString (n + 1) := rfl
    rw [hminus, String.toList_append, toList_toString_nat]
    rfl

/-- A numeral determines its number. -/
theorem toString_int_inj {n m : Int} (h : toString n = toString m) : n = m := by
  have hchars : Value.intChars n = Value.intChars m := by
    rw [← toList_toString_int, ← toList_toString_int, h]
  have hsign : ∀ a b : Nat, Text.decimal a ≠ '-' :: Text.decimal b := fun a b heq =>
    Text.notMem_decimal (c := '-') rfl a (heq ▸ List.mem_cons_self)
  cases n with
  | ofNat a =>
    cases m with
    | ofNat b => exact congrArg Int.ofNat (Text.decimal_inj hchars)
    | negSucc b => exact absurd hchars (hsign a (b + 1))
  | negSucc a =>
    cases m with
    | ofNat b => exact absurd hchars.symm (hsign b (a + 1))
    | negSucc b =>
      have hab := Text.decimal_inj (List.cons.inj hchars).2
      exact congrArg Int.negSucc (Nat.succ.inj hab)

namespace CacheKeys

variable (k : CacheKeys)

theorem byId_eq (id : DocumentId) : k.byId id = k.stem ++ ("id:" ++ id.display) :=
  String.append_assoc

theorem byQuery_eq (f : Filter) (o : ReadOptions) :
    k.byQuery f o = k.stem ++ ("query:" ++ fingerprint (queryValue f o)) := String.append_assoc

theorem list_eq (version : Nat) (mode : ListMode) :
    k.list version mode =
      k.stem ++ ("list:v" ++ (toString version ++ (":" ++ fingerprint mode.toValue))) := by
  rw [list, String.append_assoc, String.append_assoc, String.append_assoc]

/-- Keys whose kinds begin differently are different. -/
theorem stem_append_ne {a b : String} (h : a.toList.head? ≠ b.toList.head?) :
    k.stem ++ a ≠ k.stem ++ b := by
  intro heq
  rw [String.append_right_inj] at heq
  exact h (by rw [heq])

theorem byId_ne_list (id : DocumentId) (version : Nat) (mode : ListMode) :
    k.byId id ≠ k.list version mode := by
  rw [byId_eq, list_eq]
  exact k.stem_append_ne (by simp [String.toList_append])

theorem byQuery_ne_list (f : Filter) (o : ReadOptions) (version : Nat) (mode : ListMode) :
    k.byQuery f o ≠ k.list version mode := by
  rw [byQuery_eq, list_eq]
  exact k.stem_append_ne (by simp [String.toList_append])

theorem version_ne_list (version : Nat) (mode : ListMode) : k.version ≠ k.list version mode := by
  rw [list_eq, CacheKeys.version]
  exact k.stem_append_ne (by simp [String.toList_append])

theorem byQuery_ne_byId (f : Filter) (o : ReadOptions) (id : DocumentId) :
    k.byQuery f o ≠ k.byId id := by
  rw [byQuery_eq, byId_eq]
  exact k.stem_append_ne (by simp [String.toList_append])

theorem version_ne_byId (id : DocumentId) : k.version ≠ k.byId id := by
  rw [byId_eq, CacheKeys.version]
  exact k.stem_append_ne (by simp [String.toList_append])

theorem display_eq_of_byId {id other : DocumentId} (h : k.byId id = k.byId other) :
    id.display = other.display := by
  rw [byId_eq, byId_eq, String.append_right_inj, String.append_right_inj] at h
  exact h

/-- The digits of a number end where a colon follows. -/
theorem digits_append_colon {a b : List Char} (ha : ':' ∉ a) (hb : ':' ∉ b) {x y : List Char}
    (h : a ++ ':' :: x = b ++ ':' :: y) : a = b ∧ x = y := by
  induction a generalizing b with
  | nil =>
    cases b with
    | nil => exact ⟨rfl, (List.cons.inj h).2⟩
    | cons c b => exact absurd (by rw [(List.cons.inj h).1]; exact List.mem_cons_self) hb
  | cons c a ih =>
    cases b with
    | nil => exact absurd (by rw [← (List.cons.inj h).1]; exact List.mem_cons_self) ha
    | cons d b =>
      rw [List.mem_cons, not_or] at ha hb
      obtain ⟨hcd, htail⟩ := List.cons.inj h
      obtain ⟨hab, hxy⟩ := ih ha.2 hb.2 htail
      exact ⟨by rw [hcd, hab], hxy⟩

/-- The key of a list determines its version and the fingerprint of its mode. -/
theorem eq_of_list {version version' : Nat} {mode mode' : ListMode}
    (h : k.list version mode = k.list version' mode') :
    version = version' ∧ fingerprint mode.toValue = fingerprint mode'.toValue := by
  rw [list_eq, list_eq, String.append_right_inj, String.append_right_inj] at h
  have hchars := congrArg String.toList h
  simp only [String.toList_append, toList_toString_nat] at hchars
  obtain ⟨hdigits, hrest⟩ := digits_append_colon (Text.notMem_decimal rfl version)
    (Text.notMem_decimal rfl version') hchars
  exact ⟨Text.decimal_inj hdigits, String.ext hrest⟩

end CacheKeys
end Quire
