import Quire.Json.Order
import Quire.Proofs.Values

/-!
# The order of values as an order

Comparing the other way round swaps the outcome, for all values. On values whose numbers are whole
and signed, equality under the order is equality, and the order is transitive. Numbers outside
that range compare through binary64, where neither holds.
-/
namespace Quire

theorem Binary64.compare_swap (x y : Binary64) : (x.compare y).swap = y.compare x := by
  rw [Binary64.compare, Binary64.compare]
  exact Std.OrientedCmp.eq_swap.symm

namespace Value

/-! ## The two sides -/

theorem compareInt_swap (a b : Int) : (compareInt a b).swap = compareInt b a := by
  rw [compareInt, compareInt, Bool.and_comm]
  split
  · exact Std.OrientedCmp.eq_swap.symm
  · exact Binary64.compare_swap _ _

theorem compareItems_swap {xs : List Value}
    (h : ∀ x ∈ xs, ∀ y : Value, (x.compare y).swap = y.compare x) (ys : List Value) :
    (compareItems xs ys).swap = compareItems ys xs := by
  induction xs generalizing ys with
  | nil => cases ys <;> rfl
  | cons x xs ih =>
    cases ys with
    | nil => rfl
    | cons y ys =>
      rw [compareItems, compareItems, Ordering.swap_then, h x List.mem_cons_self y,
        ih fun z hz => h z (List.mem_cons_of_mem _ hz)]

theorem compareFields_swap {fs : List (String × Value)}
    (h : ∀ f ∈ fs, ∀ y : Value, (f.2.compare y).swap = y.compare f.2)
    (gs : List (String × Value)) : (compareFields fs gs).swap = compareFields gs fs := by
  induction fs generalizing gs with
  | nil => cases gs <;> rfl
  | cons f fs ih =>
    obtain ⟨k, x⟩ := f
    cases gs with
    | nil => rfl
    | cons g gs =>
      obtain ⟨l, y⟩ := g
      have hname : (Ord.compare k l).swap = Ord.compare l k := Std.OrientedCmp.eq_swap.symm
      rw [compareFields, compareFields, Ordering.swap_then, Ordering.swap_then, hname,
        h _ List.mem_cons_self y, ih fun g hg => h g (List.mem_cons_of_mem _ hg)]

theorem compare_swap (a b : Value) : (a.compare b).swap = b.compare a := by
  induction a using byParts generalizing b with
  | arr xs ih =>
    cases b with
    | arr ys => simpa only [compare] using compareItems_swap ih ys
    | _ => rfl
  | obj fs ih =>
    cases b with
    | obj gs => simpa only [compare] using compareFields_swap ih gs
    | _ => rfl
  | int n =>
    cases b with
    | int m => simpa only [compare] using compareInt_swap n m
    | float y => exact Binary64.compare_swap _ _
    | _ => rfl
  | float x =>
    cases b with
    | int m => exact Binary64.compare_swap _ _
    | float y => exact Binary64.compare_swap _ _
    | _ => rfl
  | str s =>
    cases b with
    | str t => simpa only [compare] using Std.OrientedCmp.eq_swap.symm
    | _ => rfl
  | bool x =>
    cases b with
    | bool y => simpa only [compare] using Std.OrientedCmp.eq_swap.symm
    | _ => rfl
  | null => cases b <;> rfl

/-! ## Whole and signed numbers -/

theorem compareInt_of_signed {a b : Int} (ha : inSigned64 a = true) (hb : inSigned64 b = true) :
    compareInt a b = Ord.compare a b := by simp [compareInt, ha, hb]

/-- Values of different types order by type. -/
theorem compare_of_typeRank_ne {a b : Value} (h : a.typeRank ≠ b.typeRank) :
    a.compare b = Ord.compare a.typeRank b.typeRank := by
  cases a <;> cases b <;> first | exact absurd rfl h | simp only [compare]

theorem typeRank_eq_of_compare {a b : Value} (h : a.compare b = .eq) :
    a.typeRank = b.typeRank := by
  by_contra hne
  rw [compare_of_typeRank_ne hne] at h
  exact hne (Std.LawfulEqOrd.eq_of_compare h)

theorem typeRank_le_of_compare {a b : Value} (h : a.compare b = .lt) :
    a.typeRank ≤ b.typeRank := by
  by_contra hlt
  rw [compare_of_typeRank_ne (by omega), Nat.compare_eq_lt] at h
  omega

theorem compare_self (a : Value) : a.compare a = .eq := by
  have h := compare_swap a a
  cases hc : a.compare a with
  | eq => rfl
  | lt => rw [hc] at h; cases h
  | gt => rw [hc] at h; cases h

theorem eq_of_compareItems {xs ys : List Value} (hxs : ∀ x ∈ xs, x.Signed)
    (hys : ∀ y ∈ ys, y.Signed)
    (ih : ∀ x ∈ xs, ∀ y : Value, x.Signed → y.Signed → x.compare y = .eq → x = y)
    (h : compareItems xs ys = .eq) : xs = ys := by
  induction xs generalizing ys with
  | nil =>
    cases ys with
    | nil => rfl
    | cons y ys => cases h
  | cons x xs ihxs =>
    cases ys with
    | nil => cases h
    | cons y ys =>
      rw [compareItems, Ordering.then_eq_eq] at h
      rw [List.forall_mem_cons] at hxs hys ih
      rw [ih.1 y hxs.1 hys.1 h.1, ihxs hxs.2 hys.2 ih.2 h.2]

theorem eq_of_compareFields {fs gs : List (String × Value)} (hfs : ∀ f ∈ fs, f.2.Signed)
    (hgs : ∀ g ∈ gs, g.2.Signed)
    (ih : ∀ f ∈ fs, ∀ y : Value, f.2.Signed → y.Signed → f.2.compare y = .eq → f.2 = y)
    (h : compareFields fs gs = .eq) : fs = gs := by
  induction fs generalizing gs with
  | nil =>
    cases gs with
    | nil => rfl
    | cons g gs => cases h
  | cons f fs ihfs =>
    obtain ⟨k, x⟩ := f
    cases gs with
    | nil => cases h
    | cons g gs =>
      obtain ⟨l, y⟩ := g
      rw [compareFields, Ordering.then_eq_eq, Ordering.then_eq_eq] at h
      rw [List.forall_mem_cons] at hfs hgs ih
      have hvalue : x = y := ih.1 y hfs.1 hgs.1 h.2.1
      rw [Std.LawfulEqOrd.eq_of_compare h.1, hvalue, ihfs hfs.2 hgs.2 ih.2 h.2.2]

theorem Signed.items {items : List Value} (h : (Value.arr items).Signed) :
    ∀ v ∈ items, v.Signed := ((every_arr _ _).mp h).2

theorem Signed.fields {fields : List (String × Value)} (h : (Value.obj fields).Signed) :
    ∀ f ∈ fields, f.2.Signed := ((every_obj _ _).mp h).2

theorem Signed.inSigned64 {n : Int} (h : (Value.int n).Signed) : inSigned64 n = true := h

theorem not_signed_float (x : Binary64) : ¬ (Value.float x).Signed := by
  rintro ⟨⟩

theorem Signed.eq_of_compare {a b : Value} (ha : a.Signed) (hb : b.Signed)
    (h : a.compare b = .eq) : a = b := by
  have hrank := typeRank_eq_of_compare h
  induction a using byParts generalizing b with
  | arr xs ih =>
    cases b with
    | arr ys =>
      exact congrArg Value.arr (eq_of_compareItems ha.items hb.items
        (fun x hx y hxs hys hxy => ih x hx hxs hys hxy (typeRank_eq_of_compare hxy)) h)
    | _ => simp [typeRank] at hrank
  | obj fs ih =>
    cases b with
    | obj gs =>
      exact congrArg Value.obj (eq_of_compareFields ha.fields hb.fields
        (fun f hf y hfs hys hfy => ih f hf hfs hys hfy (typeRank_eq_of_compare hfy)) h)
    | _ => simp [typeRank] at hrank
  | int n =>
    cases b with
    | int m =>
      rw [compare, compareInt_of_signed ha.inSigned64 hb.inSigned64] at h
      exact congrArg Value.int (Std.LawfulEqOrd.eq_of_compare h)
    | float y => exact absurd hb (not_signed_float y)
    | _ => simp [typeRank] at hrank
  | float x => exact absurd ha (not_signed_float x)
  | str s =>
    cases b with
    | str t =>
      rw [compare] at h
      exact congrArg Value.str (Std.LawfulEqOrd.eq_of_compare h)
    | _ => simp [typeRank] at hrank
  | bool x =>
    cases b with
    | bool y =>
      rw [compare] at h
      exact congrArg Value.bool (Std.LawfulEqOrd.eq_of_compare h)
    | _ => simp [typeRank] at hrank
  | null =>
    cases b with
    | null => rfl
    | _ => simp [typeRank] at hrank

theorem Signed.compare_eq_iff {a b : Value} (ha : a.Signed) (hb : b.Signed) :
    a.compare b = .eq ↔ a = b :=
  ⟨ha.eq_of_compare hb, fun h => h ▸ compare_self a⟩

theorem compareItems_trans {xs ys zs : List Value} (hxs : ∀ x ∈ xs, x.Signed)
    (hys : ∀ y ∈ ys, y.Signed) (hzs : ∀ z ∈ zs, z.Signed)
    (ih : ∀ x ∈ xs, ∀ y z : Value, x.Signed → y.Signed → z.Signed →
      x.compare y = .lt → y.compare z = .lt → x.compare z = .lt)
    (hxy : compareItems xs ys = .lt) (hyz : compareItems ys zs = .lt) :
    compareItems xs zs = .lt := by
  induction xs generalizing ys zs with
  | nil =>
    cases ys with
    | nil => cases hxy
    | cons y ys =>
      cases zs with
      | nil => cases hyz
      | cons z zs => rfl
  | cons x xs ihxs =>
    cases ys with
    | nil => cases hxy
    | cons y ys =>
      cases zs with
      | nil => cases hyz
      | cons z zs =>
        rw [compareItems, Ordering.then_eq_lt] at hxy hyz ⊢
        rw [List.forall_mem_cons] at hxs hys hzs ih
        rcases hxy with hxy | ⟨heq, hxy⟩
        · rcases hyz with hyz | ⟨heq, -⟩
          · exact Or.inl (ih.1 y z hxs.1 hys.1 hzs.1 hxy hyz)
          · exact Or.inl (hys.1.eq_of_compare hzs.1 heq ▸ hxy)
        · cases hxs.1.eq_of_compare hys.1 heq
          exact hyz.imp_right fun h => ⟨h.1, ihxs hxs.2 hys.2 hzs.2 ih.2 hxy h.2⟩

theorem compareFields_trans {fs gs hs : List (String × Value)} (hfs : ∀ f ∈ fs, f.2.Signed)
    (hgs : ∀ g ∈ gs, g.2.Signed) (hhs : ∀ h ∈ hs, h.2.Signed)
    (ih : ∀ f ∈ fs, ∀ y z : Value, f.2.Signed → y.Signed → z.Signed →
      f.2.compare y = .lt → y.compare z = .lt → f.2.compare z = .lt)
    (hfg : compareFields fs gs = .lt) (hgh : compareFields gs hs = .lt) :
    compareFields fs hs = .lt := by
  induction fs generalizing gs hs with
  | nil =>
    cases gs with
    | nil => cases hfg
    | cons g gs =>
      cases hs with
      | nil => cases hgh
      | cons h hs => rfl
  | cons f fs ihfs =>
    obtain ⟨k, x⟩ := f
    cases gs with
    | nil => cases hfg
    | cons g gs =>
      obtain ⟨l, y⟩ := g
      cases hs with
      | nil => cases hgh
      | cons h hs =>
        obtain ⟨m, z⟩ := h
        simp only [compareFields, Ordering.then_eq_lt] at hfg hgh ⊢
        rw [List.forall_mem_cons] at hfs hgs hhs ih
        rcases hfg with hkl | ⟨hkl, hfg⟩
        · rcases hgh with hlm | ⟨hlm, -⟩
          · exact Or.inl (Std.TransCmp.lt_trans hkl hlm)
          · exact Or.inl (Std.LawfulEqOrd.eq_of_compare hlm ▸ hkl)
        · cases Std.LawfulEqOrd.eq_of_compare hkl
          refine hgh.imp_right fun ⟨hlm, hgh⟩ => ⟨hlm, ?_⟩
          rcases hfg with hxy | ⟨heq, hfg⟩
          · rcases hgh with hyz | ⟨heq, -⟩
            · exact Or.inl (ih.1 y z hfs.1 hgs.1 hhs.1 hxy hyz)
            · have hvalue : y = z := hgs.1.eq_of_compare hhs.1 heq
              exact Or.inl (hvalue ▸ hxy)
          · cases hfs.1.eq_of_compare hgs.1 heq
            exact hgh.imp_right fun h => ⟨h.1, ihfs hfs.2 hgs.2 hhs.2 ih.2 hfg h.2⟩

/-- Along two steps the type never falls, so either it rises somewhere or there is one type. -/
theorem compare_lt_or_typeRank_eq {a b c : Value} (hab : a.compare b = .lt)
    (hbc : b.compare c = .lt) :
    a.compare c = .lt ∨ (a.typeRank = b.typeRank ∧ b.typeRank = c.typeRank) := by
  have hrab := typeRank_le_of_compare hab
  have hrbc := typeRank_le_of_compare hbc
  by_cases hac : a.typeRank = c.typeRank
  · exact Or.inr ⟨by omega, by omega⟩
  · rw [compare_of_typeRank_ne hac, Nat.compare_eq_lt]
    exact Or.inl (by omega)

theorem Signed.compare_trans {a b c : Value} (ha : a.Signed) (hb : b.Signed) (hc : c.Signed)
    (hab : a.compare b = .lt) (hbc : b.compare c = .lt) : a.compare c = .lt := by
  induction a using byParts generalizing b c with
  | arr xs ih =>
    rcases compare_lt_or_typeRank_eq hab hbc with h | ⟨hrab, hrbc⟩
    · exact h
    cases b with
    | arr ys =>
      cases c with
      | arr zs =>
        exact compareItems_trans ha.items hb.items hc.items
          (fun x hx _ _ hxs hys hzs hxy hyz => ih x hx hxs hys hzs hxy hyz) hab hbc
      | _ => simp [typeRank] at hrbc
    | _ => simp [typeRank] at hrab
  | obj fs ih =>
    rcases compare_lt_or_typeRank_eq hab hbc with h | ⟨hrab, hrbc⟩
    · exact h
    cases b with
    | obj gs =>
      cases c with
      | obj hs =>
        exact compareFields_trans ha.fields hb.fields hc.fields
          (fun f hf _ _ hfs hys hzs hfy hyz => ih f hf hfs hys hzs hfy hyz) hab hbc
      | _ => simp [typeRank] at hrbc
    | _ => simp [typeRank] at hrab
  | int n =>
    rcases compare_lt_or_typeRank_eq hab hbc with h | ⟨hrab, hrbc⟩
    · exact h
    cases b with
    | int m =>
      cases c with
      | int k =>
        rw [compare, compareInt_of_signed ha.inSigned64 hb.inSigned64] at hab
        rw [compare, compareInt_of_signed hb.inSigned64 hc.inSigned64] at hbc
        rw [compare, compareInt_of_signed ha.inSigned64 hc.inSigned64]
        exact Std.TransCmp.lt_trans hab hbc
      | float y => exact absurd hc (not_signed_float y)
      | _ => simp [typeRank] at hrbc
    | float y => exact absurd hb (not_signed_float y)
    | _ => simp [typeRank] at hrab
  | float x => exact absurd ha (not_signed_float x)
  | str s =>
    rcases compare_lt_or_typeRank_eq hab hbc with h | ⟨hrab, hrbc⟩
    · exact h
    cases b with
    | str t =>
      cases c with
      | str u =>
        rw [compare] at hab hbc ⊢
        exact Std.TransCmp.lt_trans hab hbc
      | _ => simp [typeRank] at hrbc
    | _ => simp [typeRank] at hrab
  | bool x =>
    rcases compare_lt_or_typeRank_eq hab hbc with h | ⟨hrab, hrbc⟩
    · exact h
    cases b with
    | bool y =>
      cases c with
      | bool z =>
        rw [compare] at hab hbc ⊢
        exact Std.TransCmp.lt_trans hab hbc
      | _ => simp [typeRank] at hrbc
    | _ => simp [typeRank] at hrab
  | null =>
    rcases compare_lt_or_typeRank_eq hab hbc with h | ⟨hrab, hrbc⟩
    · exact h
    cases b with
    | null => cases hab
    | _ => simp [typeRank] at hrab

end Value
end Quire
