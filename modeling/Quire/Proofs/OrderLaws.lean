import Quire.Proofs.Rounding
import Quire.Proofs.ValueOrder

/-!
# Which laws of an order the order of values keeps

Every value ties with itself and the sides can be swapped. What can fail is transitivity, and only
through numbers: two different whole numbers of the signed range compare exactly with one another,
while each may tie with the same third number in binary64. On the values that keep clear of such
numbers the order is transitive and equality under it is an equivalence.

Transitivity is carried through arrays and objects as a statement about rings: three values each
at most the next are all tied. Unlike transitivity, it says the same from each of the three.
-/
namespace Quire.Value

/-! ## Rings of three outcomes -/

/-- Around a ring of three comparisons, none of which falls, none rises either. -/
def Tied (ab bc ca : Ordering) : Prop :=
  ab.isLE = true → bc.isLE = true → ca.isLE = true → ab = .eq ∧ bc = .eq ∧ ca = .eq

theorem isLE_of_then {o t : Ordering} (h : (o.then t).isLE = true) : o.isLE = true := by
  cases o with
  | lt => rfl
  | eq => rfl
  | gt => cases h

theorem Tied.then {ab bc ca ab' bc' ca' : Ordering} (h : Tied ab bc ca) (h' : Tied ab' bc' ca') :
    Tied (ab.then ab') (bc.then bc') (ca.then ca') := by
  intro hab hbc hca
  obtain ⟨rfl, rfl, rfl⟩ := h (isLE_of_then hab) (isLE_of_then hbc) (isLE_of_then hca)
  exact h' hab hbc hca

/-- A transitive order has no rings but ties. -/
theorem tied_of_transOrd {α : Type} [Ord α] [Std.TransOrd α] (a b c : α) :
    Tied (Ord.compare a b) (Ord.compare b c) (Ord.compare c a) := by
  intro hab hbc hca
  have hba : (Ord.compare b a).isLE = true := Std.TransCmp.isLE_trans hbc hca
  have hcb : (Ord.compare c b).isLE = true := Std.TransCmp.isLE_trans hca hab
  have hac : (Ord.compare a c).isLE = true := Std.TransCmp.isLE_trans hab hbc
  exact ⟨Std.OrientedCmp.isLE_antisymm hab hba, Std.OrientedCmp.isLE_antisymm hbc hcb,
    Std.OrientedCmp.isLE_antisymm hca hac⟩

theorem tied_items {xs ys zs : List Value}
    (h : ∀ x ∈ xs, ∀ y ∈ ys, ∀ z ∈ zs, Tied (x.compare y) (y.compare z) (z.compare x)) :
    Tied (compareItems xs ys) (compareItems ys zs) (compareItems zs xs) := by
  induction xs generalizing ys zs with
  | nil =>
    intro hxy hyz hzx
    cases zs with
    | nil =>
      cases ys with
      | nil => exact ⟨rfl, rfl, rfl⟩
      | cons y ys => cases hyz
    | cons z zs => cases hzx
  | cons x xs ih =>
    cases ys with
    | nil =>
      intro hxy
      cases hxy
    | cons y ys =>
      cases zs with
      | nil =>
        intro _ hyz
        cases hyz
      | cons z zs =>
        have hheads : Tied (x.compare y) (y.compare z) (z.compare x) :=
          h x List.mem_cons_self y List.mem_cons_self z List.mem_cons_self
        have hrests := ih fun x hx y hy z hz =>
          h x (List.mem_cons_of_mem _ hx) y (List.mem_cons_of_mem _ hy) z
            (List.mem_cons_of_mem _ hz)
        simp only [compareItems]
        exact hheads.then hrests

theorem tied_fields {fs gs hs : List (String × Value)}
    (h : ∀ f ∈ fs, ∀ g ∈ gs, ∀ k ∈ hs,
      Tied (f.2.compare g.2) (g.2.compare k.2) (k.2.compare f.2)) :
    Tied (compareFields fs gs) (compareFields gs hs) (compareFields hs fs) := by
  induction fs generalizing gs hs with
  | nil =>
    intro hfg hgh hhf
    cases hs with
    | nil =>
      cases gs with
      | nil => exact ⟨rfl, rfl, rfl⟩
      | cons g gs => cases hgh
    | cons k hs => cases hhf
  | cons f fs ih =>
    cases gs with
    | nil =>
      intro hfg
      cases hfg
    | cons g gs =>
      cases hs with
      | nil =>
        intro _ hgh
        cases hgh
      | cons k hs =>
        have hnames := tied_of_transOrd f.1 g.1 k.1
        have hvalues : Tied (f.2.compare g.2) (g.2.compare k.2) (k.2.compare f.2) :=
          h f List.mem_cons_self g List.mem_cons_self k List.mem_cons_self
        have hrests := ih fun f hf g hg k hk =>
          h f (List.mem_cons_of_mem _ hf) g (List.mem_cons_of_mem _ hg) k
            (List.mem_cons_of_mem _ hk)
        simp only [compareFields]
        exact hnames.then (hvalues.then hrests)

theorem typeRank_le_of_isLE {a b : Value} (h : (a.compare b).isLE = true) :
    a.typeRank ≤ b.typeRank := by
  by_contra hgt
  rw [compare_of_typeRank_ne (by omega), Nat.isLE_compare] at h
  omega

/-! ## Numbers -/

theorem signed64?_eq_some {a : Value} {n : Int} (h : a.signed64? = some n) :
    a = .int n ∧ inSigned64 n = true := by
  cases a with
  | int m =>
    by_cases hm : inSigned64 m = true
    · simp only [signed64?, hm, if_true, Option.some.injEq] at h
      exact ⟨by rw [h], h ▸ hm⟩
    · simp [signed64?, hm] at h
  | _ => simp [signed64?] at h

/-- Numbers of the signed range compare exactly. -/
theorem compare_of_signed64 {a b : Value} {n m : Int} (ha : a.signed64? = some n)
    (hb : b.signed64? = some m) : a.compare b = Ord.compare n m := by
  obtain ⟨rfl, hn⟩ := signed64?_eq_some ha
  obtain ⟨rfl, hm⟩ := signed64?_eq_some hb
  rw [compare, compareInt_of_signed hn hm]

/-- Any other pair of numbers compares by the places in binary64. -/
theorem compare_of_binary64 {a b : Value} {x y : Binary64} (ha : a.binary64? = some x)
    (hb : b.binary64? = some y) (h : a.signed64? = none ∨ b.signed64? = none) :
    a.compare b = Ord.compare x.place y.place := by
  cases a with
  | int n =>
    cases ha
    cases b with
    | int m =>
      cases hb
      have hnot : ¬ (inSigned64 n && inSigned64 m) = true := by
        simpa [signed64?, imp_iff_not_or] using h
      rw [compare, compareInt, if_neg hnot, Binary64.compare]
    | float y =>
      cases hb
      rw [compare, Binary64.compare]
    | _ => simp [binary64?] at hb
  | float x =>
    cases ha
    cases b with
    | int m =>
      cases hb
      rw [compare, Binary64.compare]
    | float y =>
      cases hb
      rw [compare, Binary64.compare]
    | _ => simp [binary64?] at hb
  | _ => simp [binary64?] at ha

/-- Exact or not, the outcome never runs against the places in binary64. -/
theorem place_le_of_isLE {a b : Value} {x y : Binary64} (ha : a.binary64? = some x)
    (hb : b.binary64? = some y) (h : (a.compare b).isLE = true) : x.place ≤ y.place := by
  cases hn : a.signed64? with
  | none =>
    rw [compare_of_binary64 ha hb (Or.inl hn)] at h
    exact Int.isLE_compare.mp h
  | some n =>
    cases hm : b.signed64? with
    | none =>
      rw [compare_of_binary64 ha hb (Or.inr hm)] at h
      exact Int.isLE_compare.mp h
    | some m =>
      rw [compare_of_signed64 hn hm, Int.isLE_compare] at h
      obtain ⟨rfl, -⟩ := signed64?_eq_some hn
      obtain ⟨rfl, -⟩ := signed64?_eq_some hm
      cases ha
      cases hb
      exact Binary64.place_ofInt_mono h

theorem binary64?_of_typeRank {a : Value} (h : a.typeRank = 1) : ∃ x, a.binary64? = some x := by
  cases a with
  | int n => exact ⟨_, rfl⟩
  | float x => exact ⟨x, rfl⟩
  | _ => simp [typeRank] at h

/-! ## Transitivity -/

/-- Among the values whose nodes satisfy a condition, none equals two different whole numbers of
the signed range. -/
def Separates (p : Value → Bool) : Prop :=
  ∀ (x y : Int) (z : Value), p (.int x) = true → p (.int y) = true → z.every p = true →
    inSigned64 x = true → inSigned64 y = true →
    (Value.int x).equal z = true → (Value.int y).equal z = true → x = y

variable {p : Value → Bool}

/-- Two whole numbers next to each other in a ring of numbers are equal: where the ring's third
number compares exactly with both, by their order, and otherwise because both tie with it. -/
theorem Separates.eq_of_ring (hp : Separates p) {a b c : Value} {n m : Int}
    (ha : a.every p = true) (hb : b.every p = true) (hc : c.every p = true)
    (hn : a.signed64? = some n) (hm : b.signed64? = some m) (hrank : c.typeRank = 1)
    (hab : (a.compare b).isLE = true) (hbc : (b.compare c).isLE = true)
    (hca : (c.compare a).isLE = true) : n = m := by
  obtain ⟨z, hz⟩ := binary64?_of_typeRank hrank
  obtain ⟨rfl, hsn⟩ := signed64?_eq_some hn
  obtain ⟨rfl, hsm⟩ := signed64?_eq_some hm
  have hxy := place_le_of_isLE rfl rfl hab
  have hyz := place_le_of_isLE rfl hz hbc
  have hzx := place_le_of_isLE hz rfl hca
  cases hk : c.signed64? with
  | none =>
    have hnc : (Value.int n).compare c = .eq := by
      rw [compare_of_binary64 rfl hz (Or.inr hk)]
      exact Std.LawfulEqCmp.compare_eq_iff_eq.mpr (by omega)
    have hmc : (Value.int m).compare c = .eq := by
      rw [compare_of_binary64 rfl hz (Or.inr hk)]
      exact Std.LawfulEqCmp.compare_eq_iff_eq.mpr (by omega)
    exact hp n m c ha hb hc hsn hsm (by simp [equal, hnc]) (by simp [equal, hmc])
  | some k =>
    rw [compare_of_signed64 hn hm, Int.isLE_compare] at hab
    rw [compare_of_signed64 hm hk, Int.isLE_compare] at hbc
    rw [compare_of_signed64 hk hn, Int.isLE_compare] at hca
    omega

/-- One step of a ring of numbers is a tie. -/
theorem Separates.compare_of_ring (hp : Separates p) {a b c : Value}
    (ha : a.every p = true) (hb : b.every p = true) (hc : c.every p = true)
    (hra : a.typeRank = 1) (hrb : b.typeRank = 1) (hrc : c.typeRank = 1)
    (hab : (a.compare b).isLE = true) (hbc : (b.compare c).isLE = true)
    (hca : (c.compare a).isLE = true) : a.compare b = .eq := by
  obtain ⟨x, hx⟩ := binary64?_of_typeRank hra
  obtain ⟨y, hy⟩ := binary64?_of_typeRank hrb
  obtain ⟨z, hz⟩ := binary64?_of_typeRank hrc
  have hxy := place_le_of_isLE hx hy hab
  have hyz := place_le_of_isLE hy hz hbc
  have hzx := place_le_of_isLE hz hx hca
  have hplaces : Ord.compare x.place y.place = .eq :=
    Std.LawfulEqCmp.compare_eq_iff_eq.mpr (by omega)
  cases hn : a.signed64? with
  | none => rw [compare_of_binary64 hx hy (Or.inl hn), hplaces]
  | some n =>
    cases hm : b.signed64? with
    | none => rw [compare_of_binary64 hx hy (Or.inr hm), hplaces]
    | some m =>
      have hnm : n = m := hp.eq_of_ring ha hb hc hn hm hrc hab hbc hca
      rw [compare_of_signed64 hn hm, hnm]
      exact Std.ReflCmp.compare_self

/-- In a ring of values that never falls, the types never fall, so there is one type. -/
theorem tied_of_one_type {a b c : Value}
    (h : b.typeRank = a.typeRank → c.typeRank = a.typeRank →
      Tied (a.compare b) (b.compare c) (c.compare a)) :
    Tied (a.compare b) (b.compare c) (c.compare a) := by
  intro hab hbc hca
  have hrab := typeRank_le_of_isLE hab
  have hrbc := typeRank_le_of_isLE hbc
  have hrca := typeRank_le_of_isLE hca
  exact h (by omega) (by omega) hab hbc hca

theorem Separates.tied_numbers (hp : Separates p) {a b c : Value} (ha : a.every p = true)
    (hb : b.every p = true) (hc : c.every p = true) (hra : a.typeRank = 1)
    (hrb : b.typeRank = 1) (hrc : c.typeRank = 1) :
    Tied (a.compare b) (b.compare c) (c.compare a) := by
  intro hab hbc hca
  refine ⟨?_, ?_, ?_⟩
  · exact hp.compare_of_ring ha hb hc hra hrb hrc hab hbc hca
  · exact hp.compare_of_ring hb hc ha hrb hrc hra hbc hca hab
  · exact hp.compare_of_ring hc ha hb hrc hra hrb hca hab hbc

/-- Three values each at most the next are all tied. -/
theorem Separates.tied (hp : Separates p) {a b c : Value} (ha : a.every p = true)
    (hb : b.every p = true) (hc : c.every p = true) :
    Tied (a.compare b) (b.compare c) (c.compare a) := by
  induction a using byParts generalizing b c with
  | null =>
    refine tied_of_one_type fun hrb hrc => ?_
    cases b with
    | null =>
      cases c with
      | null => exact fun _ _ _ => ⟨rfl, rfl, rfl⟩
      | _ => simp [typeRank] at hrc
    | _ => simp [typeRank] at hrb
  | int n => exact tied_of_one_type fun hrb hrc => hp.tied_numbers ha hb hc rfl hrb hrc
  | float x => exact tied_of_one_type fun hrb hrc => hp.tied_numbers ha hb hc rfl hrb hrc
  | str s =>
    refine tied_of_one_type fun hrb hrc => ?_
    cases b with
    | str t =>
      cases c with
      | str u =>
        simp only [compare]
        exact tied_of_transOrd s t u
      | _ => simp [typeRank] at hrc
    | _ => simp [typeRank] at hrb
  | bool x =>
    refine tied_of_one_type fun hrb hrc => ?_
    cases b with
    | bool y =>
      cases c with
      | bool z =>
        simp only [compare]
        exact tied_of_transOrd x y z
      | _ => simp [typeRank] at hrc
    | _ => simp [typeRank] at hrb
  | arr xs ih =>
    refine tied_of_one_type fun hrb hrc => ?_
    cases b with
    | arr ys =>
      cases c with
      | arr zs =>
        rw [every_arr] at ha hb hc
        simp only [compare]
        apply tied_items
        intro x hx y hy z hz
        exact ih x hx (ha.2 x hx) (hb.2 y hy) (hc.2 z hz)
      | _ => simp [typeRank] at hrc
    | _ => simp [typeRank] at hrb
  | obj fs ih =>
    refine tied_of_one_type fun hrb hrc => ?_
    cases b with
    | obj gs =>
      cases c with
      | obj hs =>
        rw [every_obj] at ha hb hc
        simp only [compare]
        apply tied_fields
        intro f hf g hg k hk
        exact ih f hf (ha.2 f hf) (hb.2 g hg) (hc.2 k hk)
      | _ => simp [typeRank] at hrc
    | _ => simp [typeRank] at hrb

theorem Separates.isLE_trans (hp : Separates p) {a b c : Value} (ha : a.every p = true)
    (hb : b.every p = true) (hc : c.every p = true) (hab : (a.compare b).isLE = true)
    (hbc : (b.compare c).isLE = true) : (a.compare c).isLE = true := by
  by_contra hnot
  have hca : (c.compare a).isLE = true := by
    rw [← compare_swap a c]
    cases h : a.compare c <;> simp_all
  obtain ⟨-, -, htie⟩ := hp.tied ha hb hc hab hbc hca
  rw [← compare_swap c a, htie] at hnot
  exact hnot rfl

theorem compare_eq_iff_isLE {a b : Value} :
    a.compare b = .eq ↔ (a.compare b).isLE = true ∧ (b.compare a).isLE = true := by
  rw [← compare_swap a b]
  cases a.compare b <;> simp

/-- Equality under the order is transitive where the order is. -/
theorem equal_trans_of_isLE_trans
    (h : ∀ a b c : Value, a.every p = true → b.every p = true → c.every p = true →
      (a.compare b).isLE = true → (b.compare c).isLE = true → (a.compare c).isLE = true)
    {a b c : Value} (ha : a.every p = true) (hb : b.every p = true) (hc : c.every p = true)
    (hab : a.equal b = true) (hbc : b.equal c = true) : a.equal c = true := by
  simp only [equal, beq_iff_eq, compare_eq_iff_isLE] at hab hbc ⊢
  constructor
  · exact h a b c ha hb hc hab.1 hbc.1
  · exact h c b a hc hb ha hbc.2 hab.2

theorem separates_of_equal_trans
    (h : ∀ a b c : Value, a.every p = true → b.every p = true → c.every p = true →
      a.equal b = true → b.equal c = true → a.equal c = true) : Separates p := by
  intro x y z hx hy hz hsx hsy hxz hyz
  have hzy : z.equal (.int y) = true := by
    simp only [equal, beq_iff_eq] at hyz ⊢
    rw [← compare_swap, hyz]
    rfl
  have hxy : (Value.int x).equal (.int y) = true := h (.int x) z (.int y) hx hz hy hxz hzy
  simp only [equal, beq_iff_eq, compare, compareInt_of_signed hsx hsy] at hxy
  exact Std.LawfulEqOrd.eq_of_compare hxy

/-- Two whole numbers compare exactly when both are signed, when they are the same, and otherwise
when binary64 has different numbers nearest to them. -/
theorem compareInt_eq_iff (n m : Int) :
    compareInt n m = Ord.compare n m ↔
      (inSigned64 n = true ∧ inSigned64 m = true) ∨ n = m ∨
        (Binary64.ofInt n).place ≠ (Binary64.ofInt m).place := by
  by_cases hsigned : inSigned64 n = true ∧ inSigned64 m = true
  · simp [compareInt_of_signed hsigned.1 hsigned.2, hsigned]
  have hplaces : compareInt n m =
      Ord.compare (Binary64.ofInt n).place (Binary64.ofInt m).place := by
    rw [compareInt, if_neg (by simpa using hsigned), Binary64.compare]
  rw [hplaces]
  rcases lt_trichotomy n m with hlt | heq | hgt
  · have hle := Binary64.place_ofInt_mono hlt.le
    have hcmp : Ord.compare n m = .lt := Int.compare_eq_lt.mpr hlt
    rw [hcmp, Int.compare_eq_lt]
    constructor
    · intro hplace
      exact Or.inr (Or.inr (by omega))
    · intro h
      have hne := (h.resolve_left hsigned).resolve_left hlt.ne
      omega
  · subst heq
    simp
  · have hle := Binary64.place_ofInt_mono hgt.le
    have hcmp : Ord.compare n m = .gt := Int.compare_eq_gt.mpr hgt
    rw [hcmp, Int.compare_eq_gt]
    constructor
    · intro hplace
      exact Or.inr (Or.inr (by omega))
    · intro h
      have hne := (h.resolve_left hsigned).resolve_left hgt.ne'
      omega

/-- The laws of an order, with what each of them needs. All values tie with themselves and swap
with their sides. The order is transitive on the values whose nodes satisfy a condition, and
equality under it too, exactly where the condition separates the signed whole numbers from one
another. Whole numbers compare by their value unless binary64 blurs them. -/
theorem compare_laws (p : Value → Bool) :
    (∀ a : Value, a.compare a = .eq) ∧
    (∀ a b : Value, b.compare a = (a.compare b).swap) ∧
    ((∀ a b c : Value, a.every p = true → b.every p = true → c.every p = true →
        (a.compare b).isLE = true → (b.compare c).isLE = true → (a.compare c).isLE = true) ↔
      Separates p) ∧
    ((∀ a b c : Value, a.every p = true → b.every p = true → c.every p = true →
        a.equal b = true → b.equal c = true → a.equal c = true) ↔ Separates p) ∧
    ∀ n m : Int, (Value.int n).compare (.int m) = Ord.compare n m ↔
      (inSigned64 n = true ∧ inSigned64 m = true) ∨ n = m ∨
        (Binary64.ofInt n).place ≠ (Binary64.ofInt m).place := by
  have htrans : Separates p → ∀ a b c : Value, a.every p = true → b.every p = true →
      c.every p = true → (a.compare b).isLE = true → (b.compare c).isLE = true →
      (a.compare c).isLE = true :=
    fun hp _ _ _ ha hb hc hab hbc => hp.isLE_trans ha hb hc hab hbc
  refine ⟨compare_self, fun a b => (compare_swap a b).symm, ⟨fun h => ?_, htrans⟩,
    ⟨separates_of_equal_trans, fun hp => ?_⟩, fun n m => ?_⟩
  · apply separates_of_equal_trans
    intro a b c ha hb hc hab hbc
    exact equal_trans_of_isLE_trans h ha hb hc hab hbc
  · intro a b c ha hb hc hab hbc
    exact equal_trans_of_isLE_trans (htrans hp) ha hb hc hab hbc
  · rw [compare]
    exact compareInt_eq_iff n m

/-- Past `2 ^ 53` two whole numbers tie with the binary64 number between them, though the first
lies above the second, and the two largest unsigned numbers tie with each other. -/
theorem compare_blurred :
    ¬ (((Value.int 9007199254740993).compare (.float (.ofInt 9007199254740992))).isLE = true →
      ((Value.float (.ofInt 9007199254740992)).compare (.int 9007199254740992)).isLE = true →
      ((Value.int 9007199254740993).compare (.int 9007199254740992)).isLE = true) ∧
    (Value.int 18446744073709551615).compare (.int 18446744073709551614) ≠
      Ord.compare (18446744073709551615 : Int) 18446744073709551614 := by
  decide +kernel

end Quire.Value
