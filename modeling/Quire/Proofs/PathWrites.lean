import Mathlib.Data.List.Infix
import Quire.Proofs.CopiedFields

/-!
# Writes at paths

A write at a path goes through objects, which it makes where there are none. Two writes of which
neither path starts with the other commute, and a write covers what was written below its path. So
of several writes, of which none covers an earlier one, each is read back unless another goes below
it, and all of them together change nothing the second time. A value beside the paths stays, unless
a write goes through an array on the way to it.
-/
namespace Quire

/-! ## Fields -/

namespace Document

/-- The second of two writes of a field wins. -/
theorem set_set (name : String) (v w : Value) (d : Document) :
    set name v (set name w d) = set name v d := by
  induction d with
  | nil =>
    rw [set, set, set, if_neg (String.lt_irrefl name), if_pos rfl]
  | cons f d ih =>
    obtain ⟨k, u⟩ := f
    rw [set, set]
    split
    · rw [set, if_neg (String.lt_irrefl name), if_pos rfl]
    · next hlt =>
      split
      · rw [set, if_neg (String.lt_irrefl name), if_pos rfl]
      · next hne => rw [set, if_neg hlt, if_neg hne, ih]

/-- Writes of two fields commute, the one of the smaller name taken first. -/
theorem set_comm_of_lt {name other : String} (hlt : name < other) (v w : Value) (d : Document) :
    set name v (set other w d) = set other w (set name v d) := by
  have hne : other ≠ name := fun heq => String.lt_irrefl other (heq ▸ hlt)
  have hback : ¬ other < name := String.lt_asymm hlt
  induction d with
  | nil => simp [set, hlt, hback, hne]
  | cons f d ih =>
    obtain ⟨k, u⟩ := f
    rcases Std.lt_trichotomy name k with hk | rfl | hk
    · -- The smaller name comes in front, whatever becomes of the other one behind it.
      have hleft : set name v (set other w ((k, u) :: d)) =
          (name, v) :: set other w ((k, u) :: d) := by
        rw [set]
        split
        · rw [set, if_pos hlt]
        · split
          · rw [set, if_pos hlt]
          · rw [set, if_pos hk]
      have hright : set other w ((name, v) :: (k, u) :: d) =
          (name, v) :: set other w ((k, u) :: d) := by
        rw [set, if_neg hback, if_neg hne]
      have hfirst : set name v ((k, u) :: d) = (name, v) :: (k, u) :: d := by rw [set, if_pos hk]
      rw [hleft, hfirst, hright]
    · simp [set, hback, hne]
    · have hkother : ¬ other < k := String.lt_asymm (String.lt_trans hk hlt)
      have hkne : ¬ other = k := fun heq => String.lt_asymm hk (heq ▸ hlt)
      have hkname : ¬ name < k := String.lt_asymm hk
      have hknename : ¬ name = k := fun heq => String.lt_irrefl k (heq ▸ hk)
      simp only [set, if_neg hkother, if_neg hkne, if_neg hkname, if_neg hknename, ih]

theorem set_comm {name other : String} (hne : name ≠ other) (v w : Value) (d : Document) :
    set name v (set other w d) = set other w (set name v d) := by
  rcases Std.lt_trichotomy name other with hlt | heq | hlt
  · exact set_comm_of_lt hlt v w d
  · exact absurd heq hne
  · exact (set_comm_of_lt hlt w v d).symm

end Document

namespace Value

/-! ## One write -/

section One

variable (x y : Value)

/-- A written value is read back. -/
theorem at?_graft (path : List String) (o : Option Value) : (graft x path o).at? path = some x := by
  induction path generalizing o with
  | nil => rfl
  | cons s path ih =>
    rw [graft, at?, Document.get?_set_self]
    exact ih _

/-- On the way to a written value there are objects. -/
theorem isObject_at?_graft {start path : List String} (hstart : start <+: path)
    (hne : start ≠ path) (o : Option Value) :
    ∃ fields, (graft x path o).at? start = some (.obj fields) := by
  induction start generalizing path o with
  | nil =>
    obtain ⟨s, path, rfl⟩ := List.exists_cons_of_ne_nil hne.symm
    exact ⟨_, rfl⟩
  | cons s start ih =>
    obtain ⟨rest, rfl⟩ := hstart
    rw [List.cons_append, graft, at?, Document.get?_set_self]
    exact ih (List.prefix_append _ _) (fun heq => hne (congrArg (s :: ·) heq)) _

/-- A write covers what was written at its path and below it. -/
theorem graft_graft_of_prefix {path below : List String} (h : path <+: below) (o : Option Value) :
    graft x path (some (graft y below o)) = graft x path o := by
  induction path generalizing below o with
  | nil => rfl
  | cons s path ih =>
    obtain ⟨rest, rfl⟩ := h
    rw [List.cons_append, graft, graft, graft, fieldsOf, Document.get?_set_self, Document.set_set,
      ih (List.prefix_append _ _)]

end One

/-- Two paths of which neither starts with the other. -/
def Apart (path other : List String) : Prop := ¬ path <+: other ∧ ¬ other <+: path

instance (path other : List String) : Decidable (Apart path other) :=
  inferInstanceAs (Decidable (_ ∧ _))

theorem apart_cons_self {s : String} {path other : List String} :
    Apart (s :: path) (s :: other) ↔ Apart path other := by
  simp only [Apart, List.cons_prefix_cons, true_and]

theorem Apart.exists_cons {path other : List String} (h : Apart path other) :
    ∃ s p t q, path = s :: p ∧ other = t :: q := by
  cases path with
  | nil => exact absurd List.nil_prefix h.1
  | cons s p =>
    cases other with
    | nil => exact absurd List.nil_prefix h.2
    | cons t q => exact ⟨s, p, t, q, rfl, rfl⟩

/-- Writes at paths apart from each other commute. -/
theorem graft_comm (x y : Value) {path other : List String} (h : Apart path other)
    (o : Option Value) :
    graft x path (some (graft y other o)) = graft y other (some (graft x path o)) := by
  induction path generalizing other o with
  | nil => exact absurd List.nil_prefix h.1
  | cons s path ih =>
    obtain ⟨_, _, t, other, -, rfl⟩ := h.exists_cons
    simp only [graft, fieldsOf]
    by_cases hst : s = t
    · subst hst
      rw [Document.get?_set_self, Document.get?_set_self, Document.set_set, Document.set_set,
        ih (apart_cons_self.mp h)]
    · rw [Document.get?_set_of_ne hst, Document.get?_set_of_ne (Ne.symm hst),
        Document.set_comm hst]

/-! ## What lies beside a path -/

/-- A common start of two paths leads to an array. -/
def MeetInArray (o : Option Value) (path other : List String) : Prop :=
  ∃ start ∈ other.inits, start <+: path ∧ (o.bind (at? start)).any isArray = true

instance (o : Option Value) (path other : List String) : Decidable (MeetInArray o path other) :=
  inferInstanceAs (Decidable (∃ start ∈ other.inits, _ ∧ _))

theorem meetInArray_iff {o : Option Value} {path other : List String} :
    MeetInArray o path other ↔ ∃ start, start <+: other ∧ start <+: path ∧
      (o.bind (at? start)).any isArray = true := by
  simp only [MeetInArray, List.mem_inits]

theorem bind_at?_nil (o : Option Value) : o.bind (at? []) = o := by cases o <;> rfl

/-- Below anything but an array, paths are read through the fields. -/
theorem bind_at?_cons_of_not_isArray {o : Option Value} (ho : o.any isArray = false) (s : String)
    (path : List String) : o.bind (at? (s :: path)) = ((fieldsOf o).get? s).bind (at? path) := by
  cases o with
  | none => rfl
  | some v =>
    cases v with
    | arr items => cases ho
    | _ => rfl

theorem fieldsOf_of_isArray {o : Option Value} (ho : o.any isArray = true) : fieldsOf o = [] := by
  cases o with
  | none => rfl
  | some v =>
    cases v with
    | obj fields => cases ho
    | _ => rfl

theorem meetInArray_of_isArray {o : Option Value} (ho : o.any isArray = true)
    (path other : List String) : MeetInArray o path other := by
  refine meetInArray_iff.mpr ⟨[], List.nil_prefix, List.nil_prefix, ?_⟩
  rwa [bind_at?_nil]

theorem meetInArray_cons_self {o : Option Value} (ho : o.any isArray = false) {s : String}
    {path other : List String} :
    MeetInArray o (s :: path) (s :: other) ↔ MeetInArray ((fieldsOf o).get? s) path other := by
  rw [meetInArray_iff, meetInArray_iff]
  constructor
  · rintro ⟨_ | ⟨t, start⟩, hother, hpath, harray⟩
    · rw [bind_at?_nil, ho] at harray
      cases harray
    · obtain ⟨rfl, hrest⟩ := List.cons_prefix_cons.mp hother
      rw [bind_at?_cons_of_not_isArray ho] at harray
      exact ⟨start, hrest, (List.cons_prefix_cons.mp hpath).2, harray⟩
  · rintro ⟨start, hother, hpath, harray⟩
    refine ⟨s :: start, List.cons_prefix_cons.mpr ⟨rfl, hother⟩,
      List.cons_prefix_cons.mpr ⟨rfl, hpath⟩, ?_⟩
    rwa [bind_at?_cons_of_not_isArray ho]

theorem not_meetInArray_none (path other : List String) : ¬ MeetInArray none path other := by
  rw [meetInArray_iff]
  rintro ⟨start, -, -, harray⟩
  cases harray

/-- A write leaves what lies beside its path, unless it goes through an array on the way there. -/
theorem at?_graft_of_apart (x : Value) {path other : List String} (h : Apart path other)
    {o : Option Value} (ho : ¬ MeetInArray o path other) :
    (graft x path o).at? other = o.bind (at? other) := by
  induction path generalizing other o with
  | nil => exact absurd List.nil_prefix h.1
  | cons s path ih =>
    obtain ⟨_, _, t, other, -, rfl⟩ := h.exists_cons
    have hplain : o.any isArray = false := by
      rw [Bool.eq_false_iff]
      exact fun harray => ho (meetInArray_of_isArray harray _ _)
    rw [graft, at?, bind_at?_cons_of_not_isArray hplain]
    by_cases hst : s = t
    · subst hst
      rw [Document.get?_set_self, Option.bind_some]
      exact ih (apart_cons_self.mp h) fun hmeet => ho ((meetInArray_cons_self hplain).mpr hmeet)
    · rw [Document.get?_set_of_ne (Ne.symm hst)]

/-- A write through an array takes away all that lies beside its path in there. -/
theorem at?_graft_of_meetInArray (x : Value) {path other : List String} (h : Apart path other)
    {o : Option Value} (ho : MeetInArray o path other) : (graft x path o).at? other = none := by
  induction path generalizing other o with
  | nil => exact absurd List.nil_prefix h.1
  | cons s path ih =>
    obtain ⟨_, _, t, other, -, rfl⟩ := h.exists_cons
    by_cases harray : o.any isArray = true
    · -- The array is replaced by an object with one field.
      have hempty : graft x (s :: path) o = graft x (s :: path) none :=
        graft_congr x (List.cons_ne_nil _ _) (fieldsOf_of_isArray harray)
      rw [hempty, at?_graft_of_apart x h (not_meetInArray_none _ _)]
      rfl
    · rw [Bool.not_eq_true] at harray
      rw [graft, at?]
      by_cases hst : s = t
      · subst hst
        rw [Document.get?_set_self, Option.bind_some]
        exact ih (apart_cons_self.mp h) ((meetInArray_cons_self harray).mp ho)
      · obtain ⟨_ | ⟨u, start⟩, hother, hpath, hfound⟩ := meetInArray_iff.mp ho
        · rw [bind_at?_nil, harray] at hfound
          cases hfound
        · have hu := (List.cons_prefix_cons.mp hother).1
          exact absurd ((List.cons_prefix_cons.mp hpath).1.symm.trans hu) hst

/-! ## Several writes -/

/-- What is there after writes one after another. -/
def written (o : Option Value) (writes : List (List String × Value)) : Option Value :=
  writes.foldl (fun o w => some (graft w.2 w.1 o)) o

theorem written_cons (o : Option Value) (w : List String × Value)
    (writes : List (List String × Value)) :
    written o (w :: writes) = written (some (graft w.2 w.1 o)) writes := rfl

theorem written_append (o : Option Value) (first second : List (List String × Value)) :
    written o (first ++ second) = written (written o first) second := List.foldl_append

/-- A write at the end may be made first instead, and covers the writes below it. -/
theorem graft_written (w : List String × Value) {writes : List (List String × Value)}
    (h : ∀ u ∈ writes, u.1 <+: w.1 → w.1 <+: u.1) (o : Option Value) :
    some (graft w.2 w.1 (written o writes)) =
      written (some (graft w.2 w.1 o)) (writes.filter fun u => ¬ w.1 <+: u.1) := by
  induction writes generalizing o with
  | nil => rfl
  | cons u writes ih =>
    rw [List.forall_mem_cons] at h
    rw [written_cons, ih h.2]
    by_cases hbelow : w.1 <+: u.1
    · rw [List.filter_cons_of_neg (by simpa using hbelow), graft_graft_of_prefix _ _ hbelow]
    · rw [List.filter_cons_of_pos (by simpa using hbelow), written_cons,
        graft_comm _ _ ⟨hbelow, fun hstart => hbelow (h.1 hstart)⟩]

/-- No write covers an earlier one. -/
def Uncovered (writes : List (List String × Value)) : Prop :=
  writes.Pairwise fun earlier later => ¬ later.1 <+: earlier.1

/-- Writes once more, after some of them have been made before, change what they change. -/
theorem Uncovered.written_written {writes : List (List String × Value)} (h : Uncovered writes)
    {before : List (List String × Value)} (hbefore : before.Sublist writes) (o : Option Value) :
    written (written o before) writes = written o writes := by
  induction writes generalizing before o with
  | nil => rw [List.sublist_nil.mp hbefore]; rfl
  | cons w writes ih =>
    obtain ⟨hlater, hrest⟩ := List.pairwise_cons.mp h
    have hcovers : ∀ u ∈ before, u.1 <+: w.1 → w.1 <+: u.1 := by
      intro u hu hstart
      rcases List.mem_cons.mp (hbefore.subset hu) with rfl | hmem
      · exact hstart
      · exact absurd hstart (hlater u hmem)
    have hothers : (before.filter fun u => ¬ w.1 <+: u.1).Sublist writes := by
      have hsub := hbefore.filter fun u => decide (¬ w.1 <+: u.1)
      rw [List.filter_cons_of_neg (by simp)] at hsub
      exact hsub.trans List.filter_sublist
    rw [written_cons, graft_written w hcovers, ih hrest hothers, written_cons]

/-- A write that no other goes below is read back. -/
theorem Uncovered.bind_at?_written {writes : List (List String × Value)} (h : Uncovered writes)
    {w : List String × Value} (hw : w ∈ writes) (hdeep : ∀ u ∈ writes, w.1 <+: u.1 → u = w)
    (o : Option Value) : (written o writes).bind (at? w.1) = some w.2 := by
  obtain ⟨first, second, rfl⟩ := List.append_of_mem hw
  have hsecond : ∀ u ∈ second, ¬ u.1 <+: w.1 := by
    obtain ⟨-, hlast, -⟩ := List.pairwise_append.mp h
    exact (List.pairwise_cons.mp hlast).1
  have hapart : ∀ u ∈ second, ¬ w.1 <+: u.1 := by
    intro u hu hbelow
    have hsame := hdeep u (by simp [hu]) hbelow
    exact hsecond u hu (hsame ▸ List.prefix_refl _)
  have hkept : (second.filter fun u => ¬ w.1 <+: u.1) = second :=
    List.filter_eq_self.mpr fun u hu => by simpa using hapart u hu
  have hlast := graft_written w (fun u hu hstart => absurd hstart (hsecond u hu)) (written o first)
  rw [hkept] at hlast
  rw [written_append, written_cons, ← hlast, Option.bind_some, at?_graft]

/-- A path that has no value, and that all writes are apart from, gets none. -/
theorem bind_at?_written_eq_none {writes : List (List String × Value)} {path : List String}
    (h : ∀ w ∈ writes, Apart w.1 path) {o : Option Value} (ho : o.bind (at? path) = none) :
    (written o writes).bind (at? path) = none := by
  induction writes generalizing o with
  | nil => exact ho
  | cons w writes ih =>
    rw [List.forall_mem_cons] at h
    refine ih h.2 ?_
    rw [Option.bind_some]
    by_cases hmeet : MeetInArray o w.1 path
    · exact at?_graft_of_meetInArray _ h.1 hmeet
    · rw [at?_graft_of_apart _ h.1 hmeet, ho]

/-- A write that does not go through an array on the way to a path leaves the arrays on the way. -/
theorem meetInArray_graft_iff (x : Value) {path other : List String} (h : Apart path other)
    {o : Option Value} (ho : ¬ MeetInArray o path other) (next : List String) :
    MeetInArray (some (graft x path o)) next other ↔ MeetInArray o next other := by
  have hsame : ∀ start, start <+: other →
      ((graft x path o).at? start).any isArray = (o.bind (at? start)).any isArray := by
    intro start hother
    by_cases hpath : start <+: path
    · have hne : start ≠ path := fun heq => h.1 (heq ▸ hother)
      obtain ⟨fields, hfields⟩ := isObject_at?_graft x hpath hne o
      have hplain : (o.bind (at? start)).any isArray = false := by
        rw [Bool.eq_false_iff]
        exact fun harray => ho (meetInArray_iff.mpr ⟨start, hother, hpath, harray⟩)
      rw [hfields, hplain]
      rfl
    · have hapart : Apart path start := ⟨fun hstart => h.1 (hstart.trans hother), hpath⟩
      rw [at?_graft_of_apart x hapart fun hmeet => ?_]
      obtain ⟨c, hc, hcpath, harray⟩ := meetInArray_iff.mp hmeet
      exact ho (meetInArray_iff.mpr ⟨c, hc.trans hother, hcpath, harray⟩)
  rw [meetInArray_iff, meetInArray_iff]
  refine exists_congr fun start => and_congr_right fun hother => and_congr_right fun _ => ?_
  rw [Option.bind_some, hsame start hother]

/-- Writes leave what lies beside their paths, unless one of them goes through an array on the way
there; then nothing is left of it. -/
theorem bind_at?_written (writes : List (List String × Value)) {path : List String}
    (h : ∀ w ∈ writes, Apart w.1 path) (o : Option Value) :
    (written o writes).bind (at? path) =
      if ∃ w ∈ writes, MeetInArray o w.1 path then none else o.bind (at? path) := by
  induction writes generalizing o with
  | nil => simp [written]
  | cons w writes ih =>
    rw [List.forall_mem_cons] at h
    by_cases hmeet : MeetInArray o w.1 path
    · rw [if_pos ⟨w, List.mem_cons_self, hmeet⟩, written_cons]
      refine bind_at?_written_eq_none h.2 ?_
      rw [Option.bind_some]
      exact at?_graft_of_meetInArray _ h.1 hmeet
    · have hfirst : (some (graft w.2 w.1 o)).bind (at? path) = o.bind (at? path) :=
        at?_graft_of_apart _ h.1 hmeet
      have hrest : (∃ u ∈ writes, MeetInArray (some (graft w.2 w.1 o)) u.1 path) ↔
          ∃ u ∈ w :: writes, MeetInArray o u.1 path := by
        simp only [meetInArray_graft_iff _ h.1 hmeet, List.exists_mem_cons_iff, hmeet, false_or]
      rw [written_cons, ih h.2, hfirst]
      exact if_congr hrest rfl rfl

end Value
end Quire
