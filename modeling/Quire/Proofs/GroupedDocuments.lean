import Mathlib.Data.List.Forall2
import Mathlib.Data.List.Induction
import Quire.Proofs.OrderLaws
import Quire.Store.Pipeline

/-!
# Grouped documents

A group stage sorts documents out by a key: there is one row for every key, in the order in which
the keys appear first, and every document counts in the row of its own key and in no other one.
What the accumulators of a row say is said about exactly those documents. All numbers are whole and
signed, so that equality under the order of values is equality.
-/
namespace Quire

open Value

/-! ## Keys and their order of appearance -/

namespace Value

theorem Signed.equal_iff {a b : Value} (ha : a.Signed) (hb : b.Signed) :
    a.equal b = true ↔ a = b := by rw [equal, beq_iff_eq, ha.compare_eq_iff hb]

theorem equal_self (a : Value) : a.equal a = true := by rw [equal, compare_self, beq_self_eq_true]

end Value

/-- The place in a list of the first value that equals a key. -/
def firstPlace (key : Value) (values : List Value) : Nat := values.findIdx fun v => key.equal v

theorem firstPlace_lt_length {key : Value} {values : List Value} (h : key ∈ values) :
    firstPlace key values < values.length :=
  List.findIdx_lt_length_of_exists ⟨key, h, key.equal_self⟩

theorem firstPlace_append_of_mem {key : Value} {values : List Value} (h : key ∈ values)
    (more : List Value) : firstPlace key (values ++ more) = firstPlace key values := by
  have hlt := firstPlace_lt_length h
  rw [firstPlace] at hlt ⊢
  rw [List.findIdx_append, if_pos hlt, firstPlace]

/-- A key that equals no value so far has its place behind them. -/
theorem firstPlace_concat_self {key : Value} {values : List Value}
    (h : ∀ v ∈ values, key.equal v = false) :
    firstPlace key (values ++ [key]) = values.length := by
  have hnone : values.findIdx (fun v => key.equal v) = values.length :=
    List.findIdx_eq_length_of_false h
  rw [firstPlace, List.findIdx_append, hnone]
  simp [equal_self]

/-- Different values, each at its first appearance. -/
structure FirstAppearances (keys values : List Value) : Prop where
  mem_iff : ∀ v, v ∈ keys ↔ v ∈ values
  unlike : keys.Pairwise fun k l => k.equal l = false
  ordered : keys.Pairwise fun k l => firstPlace k values < firstPlace l values

namespace FirstAppearances

variable {keys values : List Value}

theorem nil : FirstAppearances [] [] := ⟨fun _ => Iff.rfl, .nil, .nil⟩

/-- One more value does not move the first appearances so far. -/
theorem ordered_append (h : FirstAppearances keys values) (more : List Value) :
    keys.Pairwise fun k l => firstPlace k (values ++ more) < firstPlace l (values ++ more) := by
  refine h.ordered.imp_of_mem fun hk hl hlt => ?_
  rwa [firstPlace_append_of_mem ((h.mem_iff _).mp hk),
    firstPlace_append_of_mem ((h.mem_iff _).mp hl)]

theorem concat_of_mem (h : FirstAppearances keys values) {key : Value} (hkey : key ∈ keys) :
    FirstAppearances keys (values ++ [key]) := by
  refine ⟨fun v => ?_, h.unlike, h.ordered_append _⟩
  rw [List.mem_append, List.mem_singleton, ← h.mem_iff v]
  exact ⟨Or.inl, fun hv => hv.elim id fun heq => heq ▸ hkey⟩

theorem concat_of_notMem (h : FirstAppearances keys values) (hvalues : ∀ v ∈ values, v.Signed)
    {key : Value} (hsigned : key.Signed) (hkey : key ∉ keys) :
    FirstAppearances (keys ++ [key]) (values ++ [key]) := by
  have hfresh : ∀ v ∈ values, v ≠ key := fun v hv heq => hkey ((h.mem_iff key).mpr (heq ▸ hv))
  have hunequal : ∀ v ∈ values, v.equal key = false ∧ key.equal v = false := by
    intro v hv
    rw [← Bool.not_eq_true, ← Bool.not_eq_true, (hvalues v hv).equal_iff hsigned,
      hsigned.equal_iff (hvalues v hv)]
    exact ⟨hfresh v hv, (hfresh v hv).symm⟩
  refine ⟨fun v => by simp [h.mem_iff v], ?_, ?_⟩
  · refine List.pairwise_append.mpr ⟨h.unlike, List.pairwise_singleton _ _, fun k hk l hl => ?_⟩
    rw [List.mem_singleton.mp hl]
    exact (hunequal k ((h.mem_iff k).mp hk)).1
  · refine List.pairwise_append.mpr
      ⟨h.ordered_append _, List.pairwise_singleton _ _, fun k hk l hl => ?_⟩
    have hmem := (h.mem_iff k).mp hk
    rw [List.mem_singleton.mp hl, firstPlace_concat_self fun v hv => (hunequal v hv).2,
      firstPlace_append_of_mem hmem]
    exact firstPlace_lt_length hmem

end FirstAppearances

/-! ## Groups -/

/-- The documents with a given key, in their order. -/
def membersOf (field : Option String) (docs : List Document) (key : Value) : List Document :=
  docs.filter fun d => key.equal (groupKey field d)

theorem membersOf_concat (field : Option String) (docs : List Document) (d : Document)
    (key : Value) :
    membersOf field (docs ++ [d]) key =
      membersOf field docs key ++ if key.equal (groupKey field d) then [d] else [] := by
  rw [membersOf, List.filter_append, List.filter_singleton, membersOf]
  cases key.equal (groupKey field d) <;> rfl

theorem joinGroup_of_unequal {key : Value} (d : Document) {keys : List Value}
    {members : Value → List Document} (h : ∀ k ∈ keys, k.equal key = false) :
    joinGroup key d (keys.map fun k => (k, members k)) =
      keys.map (fun k => (k, members k)) ++ [(key, [d])] := by
  induction keys with
  | nil => rfl
  | cons k keys ih =>
    rw [List.forall_mem_cons] at h
    simp [joinGroup, h.1, ih h.2]

/-- A document joins the group of its key, if there is one. -/
theorem joinGroup_of_mem {key : Value} (d : Document) {keys : List Value}
    {members : Value → List Document} (hkey : key ∈ keys)
    (hunlike : keys.Pairwise fun k l => k.equal l = false) :
    joinGroup key d (keys.map fun k => (k, members k)) =
      keys.map fun k => (k, members k ++ if k.equal key then [d] else []) := by
  induction keys with
  | nil => cases hkey
  | cons k keys ih =>
    rw [List.pairwise_cons] at hunlike
    rcases List.mem_cons.mp hkey with rfl | hmem
    · have hothers : ∀ l ∈ keys, l.equal key = false := by
        intro l hl
        rw [equal, ← compare_swap key l]
        have hne := hunlike.1 l hl
        rw [equal] at hne
        cases hc : key.compare l <;> simp_all
      simp only [List.map_cons, joinGroup, equal_self, if_true, List.cons.injEq, true_and]
      refine List.map_congr_left fun l hl => ?_
      simp [hothers l hl]
    · simp [joinGroup, hunlike.1 key hmem, ih hmem hunlike.2]

/-- The groups are the keys in order of appearance, each with its documents. -/
theorem exists_groupsOf_eq (field : Option String) {docs : List Document}
    (hkeys : ∀ d ∈ docs, (groupKey field d).Signed) :
    ∃ keys, FirstAppearances keys (docs.map (groupKey field)) ∧
      groupsOf field docs = keys.map fun k => (k, membersOf field docs k) := by
  induction docs using List.reverseRecOn with
  | nil => exact ⟨[], .nil, rfl⟩
  | append_singleton docs d ih =>
    rw [List.forall_mem_append, List.forall_mem_singleton] at hkeys
    obtain ⟨keys, hfirst, hgroups⟩ := ih hkeys.1
    have hvalues : ∀ v ∈ docs.map (groupKey field), v.Signed := List.forall_mem_map.mpr hkeys.1
    have hstep : groupsOf field (docs ++ [d]) =
        joinGroup (groupKey field d) d (keys.map fun k => (k, membersOf field docs k)) := by
      rw [← hgroups, groupsOf, List.foldl_append, List.foldl_cons, List.foldl_nil, groupsOf]
    rw [hstep, List.map_append, List.map_singleton]
    simp only [membersOf_concat]
    by_cases hkey : groupKey field d ∈ keys
    · exact ⟨keys, hfirst.concat_of_mem hkey, joinGroup_of_mem d hkey hfirst.unlike⟩
    · have hnext := hfirst.concat_of_notMem hvalues hkeys.2 hkey
      have hunequal : ∀ k ∈ keys, k.equal (groupKey field d) = false := fun k hk =>
        (List.pairwise_append.mp hnext.unlike).2.2 k hk _ (List.mem_singleton.mpr rfl)
      have hempty : membersOf field docs (groupKey field d) = [] := by
        refine List.filter_eq_nil_iff.mpr fun e he hequal => hkey ?_
        rw [(hkeys.2.equal_iff (hkeys.1 e he)).mp hequal]
        exact (hfirst.mem_iff _).mpr (List.mem_map_of_mem he)
      refine ⟨keys ++ [groupKey field d], hnext, ?_⟩
      rw [joinGroup_of_unequal d hunequal, List.map_append, List.map_singleton, hempty,
        equal_self, if_pos rfl, List.nil_append]
      refine congrArg (· ++ _) (List.map_congr_left fun k hk => ?_)
      simp [hunequal k hk]

/-- Every document is in one group. -/
theorem sum_length_joinGroup (key : Value) (d : Document) (groups : List (Value × List Document)) :
    ((joinGroup key d groups).map (·.2.length)).sum = (groups.map (·.2.length)).sum + 1 := by
  induction groups with
  | nil => rfl
  | cons group groups ih =>
    obtain ⟨k, members⟩ := group
    rw [joinGroup]
    split <;> simp [ih] <;> omega

theorem sum_length_groupsOf (field : Option String) (docs : List Document) :
    ((groupsOf field docs).map (·.2.length)).sum = docs.length := by
  induction docs using List.reverseRecOn with
  | nil => rfl
  | append_singleton docs d ih =>
    rw [groupsOf, List.foldl_append, List.foldl_cons, List.foldl_nil, sum_length_joinGroup]
    rw [groupsOf] at ih
    rw [ih, List.length_append, List.length_singleton]

/-! ## The extremes of a list -/

/-- A value of a list that is related to all of them, or null for the empty list. -/
def IsExtreme (R : Value → Value → Prop) (values : List Value) (v : Value) : Prop :=
  (values = [] ∧ v = .null) ∨ (v ∈ values ∧ ∀ w ∈ values, R v w)

/-- Picking the better one of two values throughout picks one that is better than all. -/
theorem foldl_pick_mem_and_forall {R : Value → Value → Prop} {pick : Value → Value → Value}
    (htrans : ∀ {a b c : Value}, a.Signed → b.Signed → c.Signed → R a b → R b c → R a c)
    (hpick : ∀ a b, (pick a b = a ∨ pick a b = b) ∧ R (pick a b) a ∧ R (pick a b) b)
    {v : Value} (hv : v.Signed) {vs : List Value} (hvs : ∀ w ∈ vs, w.Signed) :
    vs.foldl pick v ∈ v :: vs ∧ ∀ w ∈ v :: vs, R (vs.foldl pick v) w := by
  induction vs generalizing v with
  | nil =>
    obtain ⟨hor, hleft, hright⟩ := hpick v v
    have hself : pick v v = v := hor.elim id id
    simpa [hself] using hleft
  | cons x vs ih =>
    rw [List.forall_mem_cons] at hvs
    obtain ⟨hor, hleft, hright⟩ := hpick v x
    have hpicked : (pick v x).Signed := by
      rcases hor with h | h <;> rw [h]
      exacts [hv, hvs.1]
    obtain ⟨hmem, hall⟩ := ih hpicked hvs.2
    have hbest : (vs.foldl pick (pick v x)).Signed := by
      rcases List.mem_cons.mp hmem with h | h
      · rwa [h]
      · exact hvs.2 _ h
    rw [List.forall_mem_cons] at hall
    rw [List.foldl_cons, List.forall_mem_cons, List.forall_mem_cons]
    refine ⟨?_, htrans hbest hpicked hv hall.1 hleft, htrans hbest hpicked hvs.1 hall.1 hright,
      hall.2⟩
    rcases List.mem_cons.mp hmem with h | h
    · rw [h]
      rcases hor with h | h <;> simp [h]
    · exact List.mem_cons_of_mem _ (List.mem_cons_of_mem _ h)

namespace Value

theorem separates_isSigned64 : Separates isSigned64 := by
  intro x y z hx hy hz _ _ hxz hyz
  have hxz' : Value.int x = z := (Signed.equal_iff (a := .int x) hx hz).mp hxz
  have hyz' : Value.int y = z := (Signed.equal_iff (a := .int y) hy hz).mp hyz
  exact Value.int.inj (hxz'.trans hyz'.symm)

theorem Signed.isLE_trans {a b c : Value} (ha : a.Signed) (hb : b.Signed) (hc : c.Signed)
    (hab : (a.compare b).isLE = true) (hbc : (b.compare c).isLE = true) :
    (a.compare c).isLE = true := separates_isSigned64.isLE_trans ha hb hc hab hbc

theorem isLE_of_compare_eq_gt {a b : Value} (h : a.compare b = .gt) :
    (b.compare a).isLE = true := by rw [← compare_swap a b, h]; rfl

theorem isLE_of_compare_ne_gt {a b : Value} (h : a.compare b ≠ .gt) :
    (a.compare b).isLE = true := by cases hc : a.compare b <;> simp_all

theorem isLE_self (a : Value) : (a.compare a).isLE = true := by rw [compare_self]; rfl

end Value

theorem isExtreme_leastOf {values : List Value} (h : ∀ v ∈ values, v.Signed) :
    IsExtreme (fun a b => (a.compare b).isLE = true) values (leastOf values) := by
  cases values with
  | nil => exact Or.inl ⟨rfl, rfl⟩
  | cons v vs =>
    rw [List.forall_mem_cons] at h
    refine Or.inr (foldl_pick_mem_and_forall Signed.isLE_trans (fun a b => ?_) h.1 h.2)
    by_cases hgt : a.compare b = .gt
    · simp [hgt, isLE_of_compare_eq_gt hgt, isLE_self]
    · simp [hgt, isLE_of_compare_ne_gt hgt, isLE_self]

theorem isExtreme_greatestOf {values : List Value} (h : ∀ v ∈ values, v.Signed) :
    IsExtreme (fun a b => (b.compare a).isLE = true) values (greatestOf values) := by
  cases values with
  | nil => exact Or.inl ⟨rfl, rfl⟩
  | cons v vs =>
    rw [List.forall_mem_cons] at h
    refine Or.inr (foldl_pick_mem_and_forall (fun ha hb hc hab hbc => hc.isLE_trans hb ha hbc hab)
      (fun a b => ?_) h.1 h.2)
    by_cases hgt : a.compare b = .gt
    · simp [hgt, isLE_of_compare_eq_gt hgt, isLE_self]
    · simp [hgt, isLE_of_compare_ne_gt hgt, isLE_self]

/-! ## Rows -/

/-- What the value of an accumulator says about the documents of a group. -/
def Accumulator.Describes (members : List Document) (v : Value) : Accumulator → Prop
  | .count => v = .nat members.length
  | .sum field => v = sumOf (presentValues field members)
  | .avg field => v = meanOf (presentValues field members)
  | .min field => IsExtreme (fun a b => (a.compare b).isLE = true) (presentValues field members) v
  | .max field => IsExtreme (fun a b => (b.compare a).isLE = true) (presentValues field members) v
  | .first field => ∃ d, members.head? = some d ∧ v = d.fieldOrNull field

theorem Accumulator.describes_valueOn {members : List Document} (hne : members ≠ [])
    (hsigned : ∀ d ∈ members, (Value.obj d).Signed) (a : Accumulator) :
    a.Describes members (a.valueOn members) := by
  have hvalues : ∀ field, ∀ v ∈ presentValues field members, v.Signed := by
    intro field v hv
    obtain ⟨d, hd, rfl⟩ := List.mem_map.mp (List.mem_of_mem_filter hv)
    exact Document.every_fieldOrNull rfl (hsigned d hd) field
  cases a with
  | min field => exact isExtreme_leastOf (hvalues field)
  | max field => exact isExtreme_greatestOf (hvalues field)
  | first field =>
    obtain ⟨d, rest, rfl⟩ := List.exists_cons_of_ne_nil hne
    exact ⟨d, rfl, rfl⟩
  | _ => exact rfl

/-- The row of a group: its key, what every accumulator says, and nothing else. -/
structure RowOf (accumulators : List (String × Accumulator)) (key : Value)
    (members : List Document) (row : Document) : Prop where
  key : row.get? groupKeyField = some key
  values : ∀ a ∈ accumulators, ∃ v, row.get? a.1 = some v ∧ a.2.Describes members v
  only : ∀ name v, row.get? name = some v →
    name = groupKeyField ∨ name ∈ accumulators.map Prod.fst

theorem get?_foldl_set_of_notMem {name : String} {α : Type} (value : α → Value)
    {fields : List (String × α)} (h : name ∉ fields.map Prod.fst) (row : Document) :
    (fields.foldl (fun row f => row.set f.1 (value f.2)) row).get? name = row.get? name := by
  induction fields generalizing row with
  | nil => rfl
  | cons f fields ih =>
    rw [List.map_cons, List.mem_cons, not_or] at h
    rw [List.foldl_cons, ih h.2, Document.get?_set_of_ne h.1]

theorem get?_foldl_set_of_mem {α : Type} (value : α → Value) {fields : List (String × α)}
    (hnodup : (fields.map Prod.fst).Nodup) {f : String × α} (hf : f ∈ fields) (row : Document) :
    (fields.foldl (fun row f => row.set f.1 (value f.2)) row).get? f.1 = some (value f.2) := by
  induction fields generalizing row with
  | nil => cases hf
  | cons g fields ih =>
    rw [List.map_cons, List.nodup_cons] at hnodup
    rw [List.foldl_cons]
    rcases List.mem_cons.mp hf with rfl | hmem
    · rw [get?_foldl_set_of_notMem value hnodup.1, Document.get?_set_self]
    · exact ih hnodup.2 hmem _

variable {accumulators : List (String × Accumulator)}

theorem get?_groupRow (hnames : (accumulators.map Prod.fst).Nodup)
    {a : String × Accumulator} (ha : a ∈ accumulators) (group : Value × List Document) :
    (groupRow accumulators group).get? a.1 = some (a.2.valueOn group.2) :=
  get?_foldl_set_of_mem (Accumulator.valueOn group.2) hnames ha _

theorem rowOf_groupRow (hnames : (accumulators.map Prod.fst).Nodup)
    (hfree : groupKeyField ∉ accumulators.map Prod.fst) (key : Value) {members : List Document}
    (hne : members ≠ []) (hsigned : ∀ d ∈ members, (Value.obj d).Signed) :
    RowOf accumulators key members (groupRow accumulators (key, members)) where
  key := get?_foldl_set_of_notMem (Accumulator.valueOn members) hfree _
  values a ha := ⟨_, get?_groupRow hnames ha _, a.2.describes_valueOn hne hsigned⟩
  only name v hv := by
    by_cases hname : name ∈ accumulators.map Prod.fst
    · exact Or.inr hname
    · rw [groupRow, get?_foldl_set_of_notMem (Accumulator.valueOn members) hname] at hv
      by_contra hnot
      simp [Document.get?, (not_or.mp hnot).1, eq_comm] at hv

/-- A group stage partitions its documents: one row for every key in order of first appearance, a
document in the row of its own key only, and every accumulator about the documents of its row. -/
theorem run_group_partitions (idField : String) (field : Option String)
    (hnames : (accumulators.map Prod.fst).Nodup)
    (hfree : groupKeyField ∉ accumulators.map Prod.fst) {docs : List Document}
    (hsigned : ∀ d ∈ docs, (Value.obj d).Signed) :
    ∃ keys, FirstAppearances keys (docs.map (groupKey field)) ∧
      List.Forall₂ (fun key row => RowOf accumulators key (membersOf field docs key) row) keys
        (Stage.run idField (.group field accumulators) docs) ∧
      (∀ d ∈ docs, ∃! key, key ∈ keys ∧ d ∈ membersOf field docs key) ∧
      ∀ name, (name, .count) ∈ accumulators → ∃ counts : List Nat,
        (Stage.run idField (.group field accumulators) docs).map (·.get? name) =
          counts.map (fun n => some (.nat n)) ∧ counts.sum = docs.length := by
  have hkeys : ∀ d ∈ docs, (groupKey field d).Signed := by
    intro d hd
    cases field with
    | none => exact rfl
    | some f => exact Document.every_fieldOrNull rfl (hsigned d hd) f
  obtain ⟨keys, hfirst, hgroups⟩ := exists_groupsOf_eq field hkeys
  have hkey : ∀ key ∈ keys, ∃ d ∈ docs, groupKey field d = key := fun key h =>
    List.mem_map.mp ((hfirst.mem_iff key).mp h)
  have hmember : ∀ key ∈ keys, ∀ d ∈ docs,
      d ∈ membersOf field docs key ↔ key = groupKey field d := by
    intro key h d hd
    obtain ⟨e, he, rfl⟩ := hkey key h
    rw [membersOf, List.mem_filter, (hkeys e he).equal_iff (hkeys d hd), and_iff_right hd]
  rw [Stage.run, groupRows, hgroups]
  refine ⟨keys, hfirst, ?_, fun d hd => ?_, fun name hname => ?_⟩
  · rw [List.map_map, List.forall₂_map_right_iff, List.forall₂_same]
    intro key h
    obtain ⟨d, hd, hdkey⟩ := hkey key h
    exact rowOf_groupRow hnames hfree key
      (List.ne_nil_of_mem ((hmember key h d hd).mpr hdkey.symm))
      fun e he => hsigned e (List.mem_of_mem_filter he)
  · have hown : groupKey field d ∈ keys := (hfirst.mem_iff _).mpr (List.mem_map_of_mem hd)
    exact ⟨groupKey field d, ⟨hown, (hmember _ hown d hd).mpr rfl⟩,
      fun key h => (hmember key h.1 d hd).mp h.2⟩
  · refine ⟨(groupsOf field docs).map (·.2.length), ?_, sum_length_groupsOf field docs⟩
    rw [← hgroups, List.map_map, List.map_map]
    exact List.map_congr_left fun group _ => get?_groupRow hnames hname group

/-- Orders of a customer with a nested name, and orders without a customer. The amounts are of
different types. -/
def customerOrders : List Document :=
  [[("amount", .int 10), ("customer", .obj [("name", .str "A")])],
    [("amount", .int 5)],
    [("amount", .str "many"), ("customer", .obj [("name", .str "A")])],
    [("amount", .null), ("customer", .null)]]

/-- What a report says about every customer. -/
def orderFigures : List (String × Accumulator) :=
  [("orders", .count), ("least", .min "amount"), ("most", .max "amount"),
    ("opening", .first "amount")]

theorem run_group_partitions_customerOrders :
    ∃ keys, FirstAppearances keys
        [.obj [("name", .str "A")], .null, .obj [("name", .str "A")], .null] ∧
      List.Forall₂ (fun key row =>
          RowOf orderFigures key (membersOf (some "customer") customerOrders key) row) keys
        (Stage.run "_id" (.group (some "customer") orderFigures) customerOrders) ∧
      ∃ counts : List Nat,
        (Stage.run "_id" (.group (some "customer") orderFigures) customerOrders).map
            (·.get? "orders") = counts.map (fun n => some (.nat n)) ∧ counts.sum = 4 := by
  have hsigned : ∀ d ∈ customerOrders, (Value.obj d).Signed := by decide
  have hnames : (orderFigures.map Prod.fst).Nodup := by decide
  obtain ⟨keys, hfirst, hrows, -, hcounts⟩ :=
    run_group_partitions "_id" (some "customer") hnames (by decide) hsigned
  exact ⟨keys, hfirst, hrows, hcounts "orders" (by simp [orderFigures])⟩

end Quire
