import Mathlib.Data.List.Basic
import Quire.Query.Pipeline

/-!
# Conditions on all parts of a value

`Value.every` carries a condition from the nodes of a value to the whole of it. Four conditions
are used throughout: every object lists its fields in strictly increasing order of name, as the
operations on documents keep it; every number is a whole one of the signed 64-bit range; every
number is a whole one of 64 bits; every whole number is one of 64 bits. The first makes
`Value.normalize` the identity. All of them survive reading and writing at paths.
-/
namespace Quire.Value

/-- A statement about values follows from its cases, with the parts of a container at hand. -/
theorem byParts {motive : Value → Prop} (null : motive .null) (bool : ∀ b, motive (.bool b))
    (int : ∀ n, motive (.int n)) (float : ∀ x, motive (.float x)) (str : ∀ s, motive (.str s))
    (arr : ∀ items : List Value, (∀ v ∈ items, motive v) → motive (.arr items))
    (obj : ∀ fields : List (String × Value), (∀ f ∈ fields, motive f.2) → motive (.obj fields))
    (v : Value) : motive v :=
  match v with
  | .null => null
  | .bool b => bool b
  | .int n => int n
  | .float x => float x
  | .str s => str s
  | .arr items => arr items fun w _ => byParts null bool int float str arr obj w
  | .obj fields => obj fields fun f _ => byParts null bool int float str arr obj f.2
termination_by sizeOf v
decreasing_by
  · have := List.sizeOf_lt_of_mem ‹w ∈ items›
    simp only [Value.arr.sizeOf_spec]
    omega
  · have := List.sizeOf_lt_of_mem ‹f ∈ fields›
    have : sizeOf f.2 < sizeOf f := by obtain ⟨k, w⟩ := f; simp only [Prod.mk.sizeOf_spec]; omega
    simp only [Value.obj.sizeOf_spec]
    omega

mutual
/-- Whether a condition holds of a value and of everything in it. -/
def every (p : Value → Bool) : Value → Bool
  | .arr items => p (.arr items) && everyItem p items
  | .obj fields => p (.obj fields) && everyField p fields
  | v => p v

/-- Whether a condition holds of items and of everything in them. -/
def everyItem (p : Value → Bool) : List Value → Bool
  | [] => true
  | v :: vs => v.every p && everyItem p vs

/-- Whether a condition holds of the values of fields and of everything in them. -/
def everyField (p : Value → Bool) : List (String × Value) → Bool
  | [] => true
  | (_, v) :: fs => v.every p && everyField p fs
end

theorem everyItem_iff (p : Value → Bool) (vs : List Value) :
    everyItem p vs = true ↔ ∀ v ∈ vs, v.every p = true := by
  induction vs with
  | nil => simp [everyItem]
  | cons v vs ih => simp [everyItem, ih]

theorem everyField_iff (p : Value → Bool) (fs : List (String × Value)) :
    everyField p fs = true ↔ ∀ f ∈ fs, f.2.every p = true := by
  induction fs with
  | nil => simp [everyField]
  | cons f fs ih =>
    obtain ⟨k, v⟩ := f
    rw [everyField, Bool.and_eq_true, ih, List.forall_mem_cons]

theorem every_arr (p : Value → Bool) (items : List Value) :
    (Value.arr items).every p = true ↔
      p (.arr items) = true ∧ ∀ v ∈ items, v.every p = true := by
  rw [every, Bool.and_eq_true, everyItem_iff]

theorem every_obj (p : Value → Bool) (fields : List (String × Value)) :
    (Value.obj fields).every p = true ↔
      p (.obj fields) = true ∧ ∀ f ∈ fields, f.2.every p = true := by
  rw [every, Bool.and_eq_true, everyField_iff]

theorem every_mono {p q : Value → Bool} (hpq : ∀ v, p v = true → q v = true) (v : Value)
    (h : v.every p = true) : v.every q = true := by
  induction v using byParts with
  | arr items ih =>
    rw [every_arr] at h ⊢
    exact ⟨hpq _ h.1, fun v hv => ih v hv (h.2 v hv)⟩
  | obj fields ih =>
    rw [every_obj] at h ⊢
    exact ⟨hpq _ h.1, fun f hf => ih f hf (h.2 f hf)⟩
  | _ => exact hpq _ h

/-! ## The conditions -/

/-- Whether the fields of a node are in strictly increasing order of name. -/
def hasOrder : Value → Bool
  | .obj fields => decide ((fields.map Prod.fst).Pairwise (· < ·))
  | _ => true

/-- Whether a node, if it is a number, is a whole one of the signed 64-bit range. -/
def isSigned64 : Value → Bool
  | .int n => inSigned64 n
  | .float _ => false
  | _ => true

/-- Whether a node, if it is a number, is a whole one of the signed or unsigned 64-bit range. -/
def isWhole64 : Value → Bool
  | .int n => -(twoPow 63 : Int) ≤ n && n < twoPow 64
  | .float _ => false
  | _ => true

/-- Whether a node, if it is a whole number, is one of the signed or unsigned 64-bit range. -/
def isSized64 : Value → Bool
  | .int n => -(twoPow 63 : Int) ≤ n && n < twoPow 64
  | _ => true

/-- A value as the operations on documents leave it. -/
def Ordered (v : Value) : Prop := v.every hasOrder = true

/-- A value whose numbers are all whole and signed. -/
def Signed (v : Value) : Prop := v.every isSigned64 = true

/-- A value whose numbers are all whole. -/
def Whole (v : Value) : Prop := v.every isWhole64 = true

/-- A value whose numbers all have 64 bits. -/
def Sized (v : Value) : Prop := v.every isSized64 = true

instance (v : Value) : Decidable v.Ordered := inferInstanceAs (Decidable (_ = true))
instance (v : Value) : Decidable v.Signed := inferInstanceAs (Decidable (_ = true))
instance (v : Value) : Decidable v.Whole := inferInstanceAs (Decidable (_ = true))
instance (v : Value) : Decidable v.Sized := inferInstanceAs (Decidable (_ = true))

theorem Signed.whole {v : Value} (h : v.Signed) : v.Whole := by
  refine every_mono (fun w hw => ?_) v h
  cases w with
  | int n =>
    have h64 : (twoPow 63 : Int) ≤ twoPow 64 := by decide
    simp only [isSigned64, inSigned64, isWhole64, Bool.and_eq_true, decide_eq_true_eq] at hw ⊢
    omega
  | float x => simp [isSigned64] at hw
  | _ => rfl

theorem Whole.sized {v : Value} (h : v.Whole) : v.Sized := by
  refine every_mono (fun w hw => ?_) v h
  cases w with
  | int n => exact hw
  | float x => simp [isWhole64] at hw
  | _ => rfl

end Quire.Value

namespace Quire.Document

/-! ## Fields -/

theorem mem_of_get? {name : String} {v : Value} {d : Document} (h : get? name d = some v) :
    (name, v) ∈ d := by
  induction d with
  | nil => simp at h
  | cons f rest ih =>
    obtain ⟨k, w⟩ := f
    rw [get?] at h
    split at h
    · next hk =>
      cases h
      subst hk
      exact List.mem_cons_self
    · exact List.mem_cons_of_mem _ (ih h)

theorem mem_set {name : String} {v : Value} {d : Document} {f : String × Value}
    (h : f ∈ set name v d) : f = (name, v) ∨ f ∈ d := by
  induction d with
  | nil => simpa [set] using h
  | cons g rest ih =>
    obtain ⟨k, w⟩ := g
    rw [set] at h
    split at h
    · simpa using h
    · split at h
      · simp only [List.mem_cons] at h ⊢
        exact h.imp_right Or.inr
      · rcases List.mem_cons.mp h with rfl | h
        · exact Or.inr List.mem_cons_self
        · exact (ih h).imp_right (List.mem_cons_of_mem _)

theorem mem_of_mem_erase {name : String} {d : Document} {f : String × Value}
    (h : f ∈ erase name d) : f ∈ d := by
  induction d with
  | nil => exact h
  | cons g rest ih =>
    obtain ⟨k, w⟩ := g
    rw [erase] at h
    split at h
    · exact List.mem_cons_of_mem _ (ih h)
    · rcases List.mem_cons.mp h with rfl | h
      · exact List.mem_cons_self
      · exact List.mem_cons_of_mem _ (ih h)

/-- Writing a field keeps the names in strictly increasing order. -/
theorem names_set {name : String} {v : Value} {d : Document}
    (h : (d.map Prod.fst).Pairwise (· < ·)) : ((set name v d).map Prod.fst).Pairwise (· < ·) := by
  induction d with
  | nil => simp [set]
  | cons g rest ih =>
    obtain ⟨k, w⟩ := g
    simp only [List.map_cons, List.pairwise_cons] at h
    rw [set]
    split
    · next hlt =>
      simp only [List.map_cons, List.pairwise_cons, List.mem_cons, forall_eq_or_imp]
      exact ⟨⟨hlt, fun n hn => String.lt_trans hlt (h.1 n hn)⟩, h⟩
    · next hnlt =>
      split
      · next heq =>
        subst heq
        simpa only [List.map_cons, List.pairwise_cons] using h
      · next hne =>
        simp only [List.map_cons, List.pairwise_cons]
        refine ⟨fun n hn => ?_, ih h.2⟩
        obtain ⟨f, hf, rfl⟩ := List.mem_map.mp hn
        rcases mem_set hf with rfl | hf
        · exact (Std.le_iff_lt_or_eq.mp (Std.not_lt.mp hnlt)).resolve_right (Ne.symm hne)
        · exact h.1 _ (List.mem_map_of_mem hf)

theorem names_erase {name : String} {d : Document} (h : (d.map Prod.fst).Pairwise (· < ·)) :
    ((erase name d).map Prod.fst).Pairwise (· < ·) := by
  induction d with
  | nil => exact h
  | cons g rest ih =>
    obtain ⟨k, w⟩ := g
    simp only [List.map_cons, List.pairwise_cons] at h
    rw [erase]
    split
    · exact ih h.2
    · simp only [List.map_cons, List.pairwise_cons]
      refine ⟨fun n hn => ?_, ih h.2⟩
      obtain ⟨f, hf, rfl⟩ := List.mem_map.mp hn
      exact h.1 _ (List.mem_map_of_mem (mem_of_mem_erase hf))

end Quire.Document

namespace Quire.Value

/-- A condition on nodes that is kept where fields are written. -/
structure KeptBySet (p : Value → Bool) : Prop where
  empty : p (.obj []) = true
  set : ∀ (name : String) (v : Value) (d : Document),
    p (.obj d) = true → p (.obj (Document.set name v d)) = true
  erase : ∀ (name : String) (d : Document),
    p (.obj d) = true → p (.obj (Document.erase name d)) = true

theorem keptBySet_hasOrder : KeptBySet hasOrder where
  empty := rfl
  set name v d h := by
    simp only [hasOrder, decide_eq_true_eq] at h ⊢
    exact Document.names_set h
  erase name d h := by
    simp only [hasOrder, decide_eq_true_eq] at h ⊢
    exact Document.names_erase h

theorem keptBySet_isSigned64 : KeptBySet isSigned64 := ⟨rfl, fun _ _ _ _ => rfl, fun _ _ _ => rfl⟩

theorem keptBySet_isWhole64 : KeptBySet isWhole64 := ⟨rfl, fun _ _ _ _ => rfl, fun _ _ _ => rfl⟩

theorem keptBySet_isSized64 : KeptBySet isSized64 := ⟨rfl, fun _ _ _ _ => rfl, fun _ _ _ => rfl⟩

variable {p : Value → Bool}

theorem every_obj_nil (hp : KeptBySet p) : (Value.obj []).every p = true := by
  rw [every_obj]
  exact ⟨hp.empty, by simp⟩

theorem every_get? {d : Document} (h : (Value.obj d).every p = true) {name : String} {v : Value}
    (hv : d.get? name = some v) : v.every p = true :=
  ((every_obj p d).mp h).2 _ (Document.mem_of_get? hv)

theorem every_set (hp : KeptBySet p) {d : Document} (h : (Value.obj d).every p = true)
    (name : String) {v : Value} (hv : v.every p = true) :
    (Value.obj (Document.set name v d)).every p = true := by
  rw [every_obj] at h ⊢
  refine ⟨hp.set name v d h.1, fun f hf => ?_⟩
  rcases Document.mem_set hf with rfl | hf
  · exact hv
  · exact h.2 f hf

theorem every_erase (hp : KeptBySet p) {d : Document} (h : (Value.obj d).every p = true)
    (name : String) : (Value.obj (Document.erase name d)).every p = true := by
  rw [every_obj] at h ⊢
  exact ⟨hp.erase name d h.1, fun f hf => h.2 f (Document.mem_of_mem_erase hf)⟩

theorem every_at? {path : List String} {v w : Value} (h : v.every p = true)
    (hw : v.at? path = some w) : w.every p = true := by
  induction path generalizing v with
  | nil =>
    rw [at?] at hw
    cases hw
    exact h
  | cons s rest ih =>
    cases v with
    | obj fields =>
      rw [at?] at hw
      obtain ⟨u, hu, hw⟩ := Option.bind_eq_some_iff.mp hw
      exact ih (every_get? h hu) hw
    | arr items =>
      rw [at?] at hw
      split at hw
      · obtain ⟨u, hu, hw⟩ := Option.bind_eq_some_iff.mp hw
        exact ih (((every_arr p items).mp h).2 u (List.mem_of_getElem? hu)) hw
      · cases hw
    | _ => simp [at?] at hw

theorem every_setAt (hp : KeptBySet p) {v : Value} (hv : v.every p = true) (path : List String)
    {d : Document} (h : (Value.obj d).every p = true) :
    (Value.obj (Document.setAt v path d)).every p = true := by
  induction path generalizing d with
  | nil => exact h
  | cons s rest ih =>
    cases rest with
    | nil => exact every_set hp h s hv
    | cons t rest =>
      have hchild : (Value.obj (Document.child s d)).every p = true := by
        rw [Document.child]
        split
        · next fields hf => exact every_get? h hf
        · exact every_obj_nil hp
      exact every_set hp h s (ih hchild)

end Quire.Value

namespace Quire.Document

open Value

variable {p : Value → Bool}

theorem every_getPath? {d : Document} (h : (Value.obj d).every p = true) {path : String}
    {v : Value} (hv : d.getPath? path = some v) : v.every p = true := every_at? h hv

theorem every_fieldOrNull (hnull : p .null = true) {d : Document}
    (h : (Value.obj d).every p = true) (path : String) :
    (d.fieldOrNull path).every p = true := by
  rw [fieldOrNull]
  cases hv : d.getPath? path with
  | none => exact hnull
  | some v => exact every_getPath? h hv

theorem every_setPath (hp : KeptBySet p) {d : Document} (h : (Value.obj d).every p = true)
    (path : String) {v : Value} (hv : v.every p = true) :
    (Value.obj (d.setPath path v)).every p = true := every_setAt hp hv _ h

/-- A name without a dot is a path of one segment. -/
theorem segments_of_undotted {name : String} (h : '.' ∉ name.toList) : segments name = [name] := by
  have hpieces : ∀ cs : List Char, '.' ∉ cs → Text.pieces (· == '.') cs = [cs] := by
    intro cs hcs
    induction cs with
    | nil => rfl
    | cons c cs ih =>
      rw [List.mem_cons, not_or] at hcs
      rw [Text.pieces, if_neg (by simpa using Ne.symm hcs.1), ih hcs.2]
  rw [segments, hpieces _ h, List.map_singleton, String.ofList_toList]

theorem getPath?_of_undotted {name : String} (h : '.' ∉ name.toList) (d : Document) :
    d.getPath? name = d.get? name := by
  rw [getPath?, segments_of_undotted h, at?, Value.at?]
  cases get? name d <;> rfl

theorem fieldOrNull_of_get? {name : String} (h : '.' ∉ name.toList) {d : Document} {v : Value}
    (hv : d.get? name = some v) : d.fieldOrNull name = v := by
  rw [fieldOrNull, getPath?_of_undotted h, hv, Option.getD_some]

/-- What a projection keeps of a document satisfies what the document does. -/
theorem every_project (hp : KeptBySet p) {d : Document} (h : (Value.obj d).every p = true)
    (projection : Projection) (idField : String) :
    (Value.obj (projection.apply idField d)).every p = true := by
  have hcopy : ∀ (fields : List String) (out : Document), (Value.obj out).every p = true →
      (Value.obj (fields.foldl (Projection.copyField d) out)).every p = true := by
    intro fields
    induction fields with
    | nil => exact fun _ hout => hout
    | cons f fields ih =>
      intro out hout
      refine ih _ ?_
      rw [Projection.copyField]
      split
      · next v hv => exact every_setPath hp hout f (every_getPath? h hv)
      · exact hout
  rw [Projection.apply]
  split
  · exact h
  · refine hcopy _ _ ?_
    split
    · next v hv => exact every_set hp (every_obj_nil hp) idField (every_get? h hv)
    · exact every_obj_nil hp

end Quire.Document

namespace Quire

/-! ## Normal form -/

theorem Document.set_of_last {name : String} (v : Value) {d : Document}
    (h : ∀ f ∈ d, f.1 < name) : d.set name v = d ++ [(name, v)] := by
  induction d with
  | nil => rfl
  | cons g rest ih =>
    obtain ⟨k, w⟩ := g
    have hk : k < name := h _ List.mem_cons_self
    have hlt : ¬ name < k := String.lt_asymm hk
    have hne : ¬ name = k := fun he => String.lt_irrefl k (he ▸ hk)
    rw [Document.set, if_neg hlt, if_neg hne, ih fun f hf => h f (List.mem_cons_of_mem _ hf)]
    rfl

/-- Fields in strictly increasing order of name are already a document. -/
theorem Document.ofFields_of_names {fields : List (String × Value)}
    (h : (fields.map Prod.fst).Pairwise (· < ·)) : Document.ofFields fields = fields := by
  have hfold : ∀ (rest : List (String × Value)) (d : Document),
      ((d ++ rest).map Prod.fst).Pairwise (· < ·) →
        rest.foldl (fun d f => Document.set f.1 f.2 d) d = d ++ rest := by
    intro rest
    induction rest with
    | nil => simp
    | cons f rest ih =>
      intro d hd
      have hlast : ∀ g ∈ d, g.1 < f.1 := by
        rw [List.map_append, List.pairwise_append] at hd
        exact fun g hg => hd.2.2 _ (List.mem_map_of_mem hg) _ (by simp)
      rw [List.foldl_cons, Document.set_of_last _ hlast, ih _ (by simpa using hd)]
      simp
  exact hfold fields [] h

namespace Value

theorem normalizeItems_eq_map (vs : List Value) : normalizeItems vs = vs.map normalize := by
  induction vs with
  | nil => rfl
  | cons v vs ih => simp [normalizeItems, ih]

theorem normalizeFields_eq_map (fs : List (String × Value)) :
    normalizeFields fs = fs.map fun f => (f.1, f.2.normalize) := by
  induction fs with
  | nil => rfl
  | cons f fs ih =>
    obtain ⟨k, v⟩ := f
    simp [normalizeFields, ih]

/-- A list is its own image under a function that leaves its members as they are. -/
theorem map_eq_self {α : Type} {f : α → α} {xs : List α} (h : ∀ x ∈ xs, f x = x) :
    xs.map f = xs := by
  rw [List.map_congr_left h, List.map_id']

/-- What is written item by item is read item by item. -/
theorem mapM_map_eq_some {α β : Type} {write : α → β} {read : β → Option α} {xs : List α}
    (h : ∀ x ∈ xs, read (write x) = some x) : (xs.map write).mapM read = some xs := by
  induction xs with
  | nil => rfl
  | cons x xs ih =>
    rw [List.forall_mem_cons] at h
    rw [List.map_cons, List.mapM_cons, h.1, ih h.2]
    rfl

/-- A count of 64 bits is read back as it was. -/
theorem unsigned64?_nat {n : Nat} (h : n < twoPow 64) : (nat n).unsigned64? = some n := by
  rw [nat, unsigned64?, if_pos ⟨Int.natCast_nonneg n, Int.ofNat_lt.mpr h⟩, Int.toNat_natCast]

/-- An ordered value is in normal form. -/
theorem Ordered.normalize_eq {v : Value} (h : v.Ordered) : v.normalize = v := by
  induction v using byParts with
  | arr items ih =>
    have hparts := ((every_arr _ _).mp h).2
    rw [normalize, normalizeItems_eq_map, map_eq_self fun v hv => ih v hv (hparts v hv)]
  | obj fields ih =>
    obtain ⟨hnames, hparts⟩ := (every_obj _ _).mp h
    have hfields : fields.map (fun f => (f.1, f.2.normalize)) = fields :=
      map_eq_self fun f hf => Prod.ext rfl (ih f hf (hparts f hf))
    rw [normalize, normalizeFields_eq_map, hfields]
    simp only [hasOrder, decide_eq_true_eq] at hnames
    rw [Document.ofFields_of_names hnames]
  | _ => rfl

/-! ## Nesting -/

mutual
/-- How many containers are nested in a value. -/
def depth : Value → Nat
  | .arr items => depthItems items + 1
  | .obj fields => depthFields fields + 1
  | _ => 0

/-- How many containers are nested in items. -/
def depthItems : List Value → Nat
  | [] => 0
  | v :: vs => max v.depth (depthItems vs)

/-- How many containers are nested in the values of fields. -/
def depthFields : List (String × Value) → Nat
  | [] => 0
  | (_, v) :: fs => max v.depth (depthFields fs)
end

theorem depthItems_le_iff (n : Nat) (vs : List Value) :
    depthItems vs ≤ n ↔ ∀ v ∈ vs, v.depth ≤ n := by
  induction vs with
  | nil => simp [depthItems]
  | cons v vs ih => rw [depthItems, Nat.max_le, ih, List.forall_mem_cons]

end Value
end Quire
