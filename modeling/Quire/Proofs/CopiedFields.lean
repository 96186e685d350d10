import Quire.Proofs.Values

/-!
# Copied fields

A projection copies the values at some paths, one after another. A path through an array makes an
object with the items that it names, so copying below an array that was already copied loses the
array. All paths read the same in the copy as in the document exactly when every such array is
copied once more afterwards.
-/
namespace Quire

/-! ## Documents with the same fields -/

namespace Document

/-- Among fields of different names each is found under its name. -/
theorem get?_of_mem_of_nodup {d : Document} (h : (d.map Prod.fst).Nodup) {f : String × Value}
    (hf : f ∈ d) : d.get? f.1 = some f.2 := by
  induction d with
  | nil => cases hf
  | cons g d ih =>
    rw [List.map_cons, List.nodup_cons] at h
    rw [get?]
    rcases List.mem_cons.mp hf with rfl | hf
    · rw [if_pos rfl]
    · have hne : g.1 ≠ f.1 := fun heq => h.1 (heq ▸ List.mem_map_of_mem hf)
      rw [if_neg hne]
      exact ih h.2 hf

theorem get?_of_mem {d : Document} (h : (d.map Prod.fst).Pairwise (· < ·)) {f : String × Value}
    (hf : f ∈ d) : d.get? f.1 = some f.2 :=
  get?_of_mem_of_nodup (h.imp fun {a b} (hlt : a < b) (heq : a = b) =>
    String.lt_irrefl b (heq ▸ hlt)) hf

/-- An ordered document is determined by the values of its fields. -/
theorem ext_get? {d e : Document} (hd : (Value.obj d).Ordered) (he : (Value.obj e).Ordered)
    (h : ∀ name, d.get? name = e.get? name) : d = e := by
  have horder : ∀ c : Document, (Value.obj c).Ordered → (c.map Prod.fst).Pairwise (· < ·) := by
    intro c hc
    simpa [Value.hasOrder] using ((Value.every_obj _ _).mp hc).1
  have hmem : ∀ f, f ∈ d ↔ f ∈ e := fun f =>
    ⟨fun hf => mem_of_get? (by rw [← h f.1]; exact get?_of_mem (horder d hd) hf),
      fun hf => mem_of_get? (by rw [h f.1]; exact get?_of_mem (horder e he) hf)⟩
  have hsorted : ∀ c : Document, (Value.obj c).Ordered →
      c.Pairwise fun f g => f.1 < g.1 := fun c hc => List.pairwise_map.mp (horder c hc)
  have hnodup : ∀ c : Document, (Value.obj c).Ordered → c.Nodup := fun c hc =>
    (hsorted c hc).imp fun {f g} (hlt : f.1 < g.1) (heq : f = g) =>
      String.lt_irrefl g.1 (heq ▸ hlt)
  have hperm : d.Perm e := (List.perm_ext_iff_of_nodup (hnodup d hd) (hnodup e he)).mpr hmem
  refine hperm.eq_of_pairwise (fun f g _ _ hfg hgf => ?_) (hsorted d hd) (hsorted e he)
  exact absurd (String.lt_trans hfg hgf) (String.lt_irrefl _)

end Document

namespace Value

/-! ## Copying below a value -/

/-- The fields of an object; anything else has none. -/
def fieldsOf : Option Value → Document
  | some (.obj fields) => fields
  | _ => []

/-- Puts a value below what is there, through objects that are made where there are none. -/
def graft (x : Value) : List String → Option Value → Value
  | [], _ => x
  | s :: path, o => .obj (Document.set s (graft x path ((fieldsOf o).get? s)) (fieldsOf o))

/-- Copies the value at a path of `v`, if there is one, to the same path of what is there. -/
def copyAt (v : Value) (o : Option Value) (path : List String) : Option Value :=
  match v.at? path with
  | some x => some (graft x path o)
  | none => o

/-- What is there after several paths have been copied. -/
def copied (v : Value) (o : Option Value) (paths : List (List String)) : Option Value :=
  paths.foldl (copyAt v) o

theorem at?_cons (v : Value) (s : String) (path : List String) :
    v.at? (s :: path) = (v.at? [s]).bind (at? path) := by
  cases v with
  | obj fields =>
    rw [at?, at?]
    cases Document.get? s fields <;> rfl
  | arr items =>
    rw [at?, at?]
    cases Text.unsignedNumeral? s.toList with
    | none => rfl
    | some i =>
      dsimp only
      cases items[i]? <;> rfl
  | _ => rfl

theorem at?_obj_singleton (fields : Document) (s : String) :
    (obj fields).at? [s] = Document.get? s fields := by
  rw [at?]
  cases Document.get? s fields <;> rfl

theorem graft_congr (x : Value) {path : List String} (hpath : path ≠ []) {o o' : Option Value}
    (h : fieldsOf o = fieldsOf o') : graft x path o = graft x path o' := by
  cases path with
  | nil => exact absurd rfl hpath
  | cons s path => rw [graft, graft, h]

/-- Writing at a path of a document grafts a value below it. -/
theorem obj_setAt (x : Value) {path : List String} (hpath : path ≠ []) (d : Document) :
    obj (Document.setAt x path d) = graft x path (some (.obj d)) := by
  induction path generalizing d with
  | nil => exact absurd rfl hpath
  | cons s path ih =>
    have hfields : fieldsOf (some (.obj d)) = d := rfl
    cases path with
    | nil => rw [Document.setAt, graft, graft, hfields]
    | cons t path =>
      have hchild : d.child s = fieldsOf (d.get? s) := rfl
      have hsame : graft x (t :: path) (some (.obj (d.child s))) = graft x (t :: path) (d.get? s) :=
        graft_congr x (List.cons_ne_nil _ _) hchild
      rw [Document.setAt, ih (List.cons_ne_nil _ _), hsame]
      · rfl
      · exact List.cons_ne_nil _ _

theorem obj_copyField (d out : Document) (name : String) :
    some (obj (Projection.copyField d out name)) =
      copyAt (.obj d) (some (.obj out)) (segments name) := by
  rw [Projection.copyField, copyAt, Document.getPath?, Document.at?]
  cases at? (segments name) (.obj d) with
  | none => rfl
  | some x =>
    dsimp only
    rw [Document.setPath, obj_setAt x (segments_ne_nil name)]

theorem obj_foldl_copyField (d : Document) (names : List String) (out : Document) :
    some (obj (names.foldl (Projection.copyField d) out)) =
      copied (.obj d) (some (.obj out)) (names.map segments) := by
  induction names generalizing out with
  | nil => rfl
  | cons name names ih =>
    rw [List.foldl_cons, ih, obj_copyField]
    rfl

theorem copied_append (v : Value) (o : Option Value) (ps qs : List (List String)) :
    copied v o (ps ++ qs) = copied v (copied v o ps) qs := List.foldl_append

theorem fieldsOf_copied_congr {v : Value} {paths : List (List String)} (h : [] ∉ paths)
    {o o' : Option Value} (hfields : fieldsOf o = fieldsOf o') :
    fieldsOf (copied v o paths) = fieldsOf (copied v o' paths) := by
  induction paths generalizing o o' with
  | nil => exact hfields
  | cons path paths ih =>
    rw [List.mem_cons, not_or] at h
    refine ih h.2 ?_
    rw [copyAt, copyAt]
    split
    · rw [graft_congr _ (Ne.symm h.1) hfields]
    · exact hfields

theorem isSome_copied {v : Value} {o : Option Value} (h : o.isSome = true)
    (paths : List (List String)) : (copied v o paths).isSome = true := by
  induction paths generalizing o with
  | nil => exact h
  | cons path paths ih =>
    refine ih ?_
    rw [copyAt]
    split
    · rfl
    · exact h

theorem copied_of_absent {v : Value} {paths : List (List String)}
    (h : ∀ path ∈ paths, v.at? path = none) (o : Option Value) : copied v o paths = o := by
  induction paths generalizing o with
  | nil => rfl
  | cons path paths ih =>
    rw [List.forall_mem_cons] at h
    have hsame : copyAt v o path = o := by rw [copyAt, h.1]
    rw [copied, List.foldl_cons, hsame]
    exact ih h.2 o

/-- Where the whole value is copied last, nothing before it matters. -/
theorem copied_of_whole (v : Value) (o : Option Value) (before after : List (List String)) :
    copied v o (before ++ [] :: after) = copied v (some v) after := by
  rw [copied_append]
  rfl

/-! ## One level further down -/

/-- Nothing, or an object. -/
def IsObject (o : Option Value) : Prop := ∀ u, o = some u → ∃ fields, u = .obj fields

/-- What the paths leave to copy below a field. A copy of the whole value copies the field too. -/
def beneath (s : String) (paths : List (List String)) : List (List String) :=
  paths.filterMap fun
    | [] => some []
    | t :: path => if t = s then some path else none

variable {v w : Value} {s : String} {paths : List (List String)}

theorem beneath_nil_cons (s : String) (paths : List (List String)) :
    beneath s ([] :: paths) = [] :: beneath s paths := rfl

theorem beneath_cons_self (s : String) (path : List String) (paths : List (List String)) :
    beneath s ((s :: path) :: paths) = path :: beneath s paths := by
  simp [beneath]

theorem beneath_cons_of_ne {t : String} (h : t ≠ s) (path : List String)
    (paths : List (List String)) : beneath s ((t :: path) :: paths) = beneath s paths := by
  simp [beneath, h]

theorem mem_beneath {path : List String} :
    path ∈ beneath s paths ↔ s :: path ∈ paths ∨ path = [] ∧ [] ∈ paths := by
  rw [beneath, List.mem_filterMap]
  constructor
  · rintro ⟨_ | ⟨t, rest⟩, hmem, heq⟩
    · exact Or.inr ⟨(Option.some.inj heq).symm, hmem⟩
    · dsimp only at heq
      split at heq
      · next hts => exact Or.inl (hts ▸ Option.some.inj heq ▸ hmem)
      · cases heq
  · rintro (hmem | ⟨rfl, hmem⟩)
    · exact ⟨s :: path, hmem, by simp⟩
    · exact ⟨[], hmem, rfl⟩

/-- A copied path puts an object there, unless it copies the whole value. -/
theorem isObject_copied (hwhole : [] ∈ paths → ∃ fields, v = .obj fields) {o : Option Value}
    (ho : IsObject o) : IsObject (copied v o paths) := by
  induction paths generalizing o with
  | nil => exact ho
  | cons path paths ih =>
    refine ih (fun hmem => hwhole (List.mem_cons_of_mem _ hmem)) ?_
    intro u hu
    rw [copyAt] at hu
    split at hu
    · next x hx =>
      cases path with
      | nil =>
        obtain ⟨fields, rfl⟩ := hwhole List.mem_cons_self
        cases hx
        exact ⟨fields, (Option.some.inj hu).symm⟩
      | cons s path => exact ⟨_, (Option.some.inj hu).symm⟩
    · exact ho u hu

/-- Below a field of the value, the paths are copied as below any other value. -/
theorem get?_copied (hwhole : [] ∈ paths → ∃ fields, v = .obj fields) (hw : v.at? [s] = some w)
    (o : Option Value) :
    (fieldsOf (copied v o paths)).get? s =
      copied w ((fieldsOf o).get? s) (beneath s paths) := by
  induction paths generalizing o with
  | nil => rfl
  | cons path paths ih =>
    have hstep : copied v o (path :: paths) = copied v (copyAt v o path) paths := rfl
    rw [hstep, ih fun hmem => hwhole (List.mem_cons_of_mem _ hmem)]
    cases path with
    | nil =>
      obtain ⟨fields, rfl⟩ := hwhole List.mem_cons_self
      rw [at?_obj_singleton] at hw
      rw [beneath_nil_cons]
      show copied w (Document.get? s fields) _ = copied w (some w) _
      rw [hw]
    | cons t path =>
      by_cases hts : t = s
      · subst hts
        rw [beneath_cons_self]
        have hhere : (fieldsOf (copyAt v o (t :: path))).get? t =
            copyAt w ((fieldsOf o).get? t) path := by
          rw [copyAt, copyAt, at?_cons, hw, Option.bind_some]
          cases at? path w with
          | none => rfl
          | some x => exact Document.get?_set_self _ _ _
        rw [hhere]
        rfl
      · rw [beneath_cons_of_ne hts]
        congr 1
        rw [copyAt]
        split
        · exact Document.get?_set_of_ne (Ne.symm hts) _ _
        · rfl

/-- Where the value has no field, none is copied. -/
theorem get?_copied_of_absent (hwhole : [] ∈ paths → ∃ fields, v = .obj fields)
    (hs : v.at? [s] = none) {o : Option Value} (ho : (fieldsOf o).get? s = none) :
    (fieldsOf (copied v o paths)).get? s = none := by
  induction paths generalizing o with
  | nil => exact ho
  | cons path paths ih =>
    refine ih (fun hmem => hwhole (List.mem_cons_of_mem _ hmem)) ?_
    rw [copyAt]
    split
    · next x hx =>
      cases path with
      | nil =>
        obtain ⟨fields, rfl⟩ := hwhole List.mem_cons_self
        cases hx
        rw [at?_obj_singleton] at hs
        exact hs
      | cons t path =>
        have hts : t ≠ s := by
          rintro rfl
          rw [at?_cons, hs] at hx
          cases hx
        exact (Document.get?_set_of_ne (Ne.symm hts) _ _).trans ho
    · exact ho

theorem bind_at?_cons {o : Option Value} (ho : IsObject o) (s : String) (path : List String) :
    o.bind (at? (s :: path)) = ((fieldsOf o).get? s).bind (at? path) := by
  cases o with
  | none => rfl
  | some u =>
    obtain ⟨fields, rfl⟩ := ho u rfl
    rfl

theorem ordered_graft {x : Value} (hx : x.Ordered) (path : List String) {o : Option Value}
    (ho : (obj (fieldsOf o)).Ordered) : (graft x path o).Ordered := by
  induction path generalizing o with
  | nil => exact hx
  | cons s path ih =>
    refine every_set keptBySet_hasOrder ho s (ih ?_)
    rw [fieldsOf.eq_def]
    split
    · next fields hfields => exact every_get? ho hfields
    · exact every_obj_nil keptBySet_hasOrder

theorem ordered_fieldsOf_copied (hv : v.Ordered) {o : Option Value}
    (ho : (obj (fieldsOf o)).Ordered) (paths : List (List String)) :
    (obj (fieldsOf (copied v o paths))).Ordered := by
  induction paths generalizing o with
  | nil => exact ho
  | cons path paths ih =>
    refine ih ?_
    rw [copyAt]
    split
    · next x hx =>
      have hgraft := ordered_graft (every_at? hv hx) path ho
      rw [fieldsOf.eq_def]
      split
      · next fields hfields =>
        rw [← Option.some.inj hfields]
        exact hgraft
      · exact every_obj_nil keptBySet_hasOrder
    · exact ho

/-! ## Reading the copy -/

/-- Every copied path reads the same in the copy, or is absent from both. -/
def ReadsAlike (v : Value) (paths : List (List String)) : Prop :=
  ∀ path ∈ paths, (copied v none paths).bind (at? path) = v.at? path

theorem readsAlike_of_whole (h : [] ∈ paths) :
    v.ReadsAlike paths ↔ copied v none paths = some v := by
  constructor
  · intro hread
    have hroot := hread [] h
    cases hcopied : copied v none paths with
    | none =>
      rw [hcopied] at hroot
      cases hroot
    | some u =>
      rw [hcopied] at hroot
      exact hroot
  · intro hcopied path _
    rw [hcopied, Option.bind_some]

theorem readsAlike_iff_beneath (h : [] ∉ paths) :
    v.ReadsAlike paths ↔ ∀ s w, v.at? [s] = some w → w.ReadsAlike (beneath s paths) := by
  have hwhole : [] ∈ paths → ∃ fields, v = .obj fields := fun hmem => absurd hmem h
  have hobject : IsObject (copied v none paths) :=
    isObject_copied hwhole fun u hu => by cases hu
  constructor
  · intro hread s w hw path hpath
    have hmem : s :: path ∈ paths :=
      (mem_beneath.mp hpath).resolve_right fun hroot => h hroot.2
    have hsame := hread _ hmem
    rw [bind_at?_cons hobject, get?_copied hwhole hw, at?_cons, hw] at hsame
    exact hsame
  · intro hread path hpath
    cases path with
    | nil => exact absurd hpath h
    | cons s path =>
      rw [bind_at?_cons hobject, at?_cons]
      cases hw : v.at? [s] with
      | none =>
        rw [get?_copied_of_absent hwhole hw rfl, Option.bind_none]
      | some w =>
        rw [get?_copied hwhole hw]
        exact hread s w hw path (mem_beneath.mpr (Or.inl hpath))

/-- A copied object is the object if each of its fields is copied. -/
theorem copied_obj_iff {fields : Document} (hfields : (obj fields).Ordered) (h : [] ∈ paths) :
    copied (.obj fields) none paths = some (.obj fields) ↔
      ∀ s w, (obj fields).at? [s] = some w → copied w none (beneath s paths) = some w := by
  have hwhole : [] ∈ paths → ∃ fs, obj fields = .obj fs := fun _ => ⟨fields, rfl⟩
  constructor
  · intro hcopied s w hw
    have hbelow := get?_copied hwhole hw none
    rw [hcopied] at hbelow
    rw [at?_obj_singleton] at hw
    exact hbelow.symm.trans hw
  · intro hbelow
    obtain ⟨before, after, rfl⟩ := List.append_of_mem h
    obtain ⟨u, hu⟩ : ∃ u, copied (.obj fields) none (before ++ [] :: after) = some u := by
      rw [copied_of_whole]
      exact Option.isSome_iff_exists.mp (isSome_copied rfl after)
    obtain ⟨out, rfl⟩ := isObject_copied hwhole (fun _ hnone => by cases hnone) u hu
    have hordered := ordered_fieldsOf_copied hfields (o := none)
      (every_obj_nil keptBySet_hasOrder) (before ++ [] :: after)
    rw [hu] at hordered
    have hsame : out = fields := by
      refine Document.ext_get? hordered hfields fun s => ?_
      have hout : (fieldsOf (copied (.obj fields) none (before ++ [] :: after))).get? s =
          Document.get? s out := by
        rw [hu]
        rfl
      rw [← hout, ← at?_obj_singleton fields s]
      cases hw : (obj fields).at? [s] with
      | none => exact get?_copied_of_absent (o := none) hwhole hw rfl
      | some w => exact (get?_copied hwhole hw none).trans (hbelow s w hw)
    rw [hu, hsame]

/-! ## Arrays that are copied again -/

def isArray : Value → Bool
  | .arr _ => true
  | _ => false

/-- The path has a value, and its first `n` segments lead to an array that it runs through. -/
def Enters (v : Value) (path : List String) (n : Nat) : Prop :=
  (v.at? path).isSome = true ∧ (v.at? (path.take n)).any isArray = true

instance (v : Value) (path : List String) (n : Nat) : Decidable (v.Enters path n) :=
  inferInstanceAs (Decidable (_ ∧ _))

/-- Some path copies what lies at the given one, alone or with what is around it. -/
def Covers (paths : List (List String)) (path : List String) : Prop := ∃ c ∈ paths, c <+: path

instance (paths : List (List String)) (path : List String) : Decidable (Covers paths path) :=
  inferInstanceAs (Decidable (∃ c ∈ paths, c <+: path))

/-- An array that has been copied and is then entered by a path is copied again afterwards. -/
def Restores (v : Value) (before : List (List String)) : List (List String) → Prop
  | [] => True
  | path :: after =>
    (∀ n < path.length, v.Enters path n → Covers before (path.take n) →
      Covers after (path.take n)) ∧ v.Restores (before ++ [path]) after

instance decidableRestores (v : Value) :
    (before paths : List (List String)) → Decidable (v.Restores before paths)
  | _, [] => inferInstanceAs (Decidable True)
  | before, path :: after =>
    have := decidableRestores v (before ++ [path]) after
    inferInstanceAs (Decidable (_ ∧ _))

theorem covers_of_whole (h : [] ∈ paths) (path : List String) : Covers paths path :=
  ⟨[], h, List.nil_prefix⟩

theorem not_covers_nil (h : [] ∉ paths) : ¬ Covers paths [] := by
  rintro ⟨c, hc, hprefix⟩
  exact h (List.prefix_nil.mp hprefix ▸ hc)

theorem covers_cons {path : List String} :
    Covers paths (s :: path) ↔ Covers (beneath s paths) path := by
  constructor
  · rintro ⟨_ | ⟨t, c⟩, hc, hprefix⟩
    · exact ⟨[], mem_beneath.mpr (Or.inr ⟨rfl, hc⟩), List.nil_prefix⟩
    · obtain ⟨rfl, hrest⟩ := List.cons_prefix_cons.mp hprefix
      exact ⟨c, mem_beneath.mpr (Or.inl hc), hrest⟩
  · rintro ⟨c, hc, hprefix⟩
    rcases mem_beneath.mp hc with hmem | ⟨rfl, hmem⟩
    · exact ⟨s :: c, hmem, List.cons_prefix_cons.mpr ⟨rfl, hprefix⟩⟩
    · exact covers_of_whole hmem _

theorem enters_cons {path : List String} {n : Nat} :
    v.Enters (s :: path) (n + 1) ↔ ∃ w, v.at? [s] = some w ∧ w.Enters path n := by
  rw [Enters, List.take_succ_cons, at?_cons v s path, at?_cons v s (path.take n)]
  cases v.at? [s] with
  | none => simp
  | some w => simp [Enters]

/-- The whole value copied once more restores everything before. -/
theorem restores_of_whole (before ps after : List (List String)) :
    v.Restores before (ps ++ [] :: after) ↔ v.Restores (before ++ ps ++ [[]]) after := by
  induction ps generalizing before with
  | nil =>
    rw [List.append_nil, List.nil_append, Restores]
    exact and_iff_right fun n hn => absurd hn (Nat.not_lt_zero n)
  | cons path ps ih =>
    rw [List.cons_append, Restores, ih, List.append_assoc before [path] ps, List.singleton_append]
    refine and_iff_right fun n _ _ _ => ?_
    exact covers_of_whole (List.mem_append_right _ List.mem_cons_self) _

/-- Where the whole value has been copied and is no object, no path below it may have a value. -/
theorem restores_iff_absent (hobject : ∀ fields, v ≠ .obj fields) {before : List (List String)}
    (hbefore : [] ∈ before) (h : [] ∉ paths) :
    v.Restores before paths ↔ ∀ path ∈ paths, v.at? path = none := by
  induction paths generalizing before with
  | nil => simp [Restores]
  | cons path paths ih =>
    rw [List.mem_cons, not_or] at h
    rw [Restores, ih (List.mem_append_left _ hbefore) h.2, List.forall_mem_cons]
    refine and_congr_left fun _ => ?_
    constructor
    · intro hrestored
      by_contra hsome
      have hroot : v.Enters path 0 := by
        refine ⟨Option.isSome_iff_ne_none.mpr hsome, ?_⟩
        cases path with
        | nil => exact absurd rfl h.1
        | cons s path =>
          cases v with
          | arr items => rfl
          | obj fields => exact absurd rfl (hobject fields)
          | _ => exact absurd rfl hsome
      have hlength : 0 < path.length := List.length_pos_iff.mpr (Ne.symm h.1)
      exact not_covers_nil h.2 (hrestored 0 hlength hroot (covers_of_whole hbefore _))
    · intro hnone n _ henters
      rw [Enters, hnone] at henters
      cases henters.1

theorem beneath_append (s : String) (ps qs : List (List String)) :
    beneath s (ps ++ qs) = beneath s ps ++ beneath s qs := List.filterMap_append

/-- Arrays further down are restored below each field. -/
theorem restores_iff_beneath {before : List (List String)}
    (hwhole : [] ∈ before ++ paths → ∃ fields, v = .obj fields) :
    v.Restores before paths ↔
      ∀ s w, v.at? [s] = some w → w.Restores (beneath s before) (beneath s paths) := by
  induction paths generalizing before with
  | nil => simp [Restores, beneath]
  | cons path paths ih =>
    have hnext : [] ∈ (before ++ [path]) ++ paths → ∃ fields, v = .obj fields := by
      rw [List.append_assoc]
      exact hwhole
    rw [Restores, ih hnext]
    cases path with
    | nil =>
      simp only [beneath_append, beneath_nil_cons, Restores, List.length_nil, Nat.not_lt_zero,
        false_implies, implies_true, true_and]
      rfl
    | cons t path =>
      have hroot : ∀ n < (t :: path).length, v.Enters (t :: path) n →
          Covers before ((t :: path).take n) → n ≠ 0 := by
        rintro n _ ⟨-, harray⟩ ⟨c, hc, hprefix⟩ rfl
        obtain ⟨fields, rfl⟩ := hwhole
          (List.mem_append_left _ (List.prefix_nil.mp hprefix ▸ hc))
        cases harray
      constructor
      · rintro ⟨hhere, hbelow⟩ s w hw
        by_cases hts : t = s
        · subst hts
          have hrest := hbelow t w hw
          rw [beneath_append, beneath_cons_self] at hrest
          rw [beneath_cons_self]
          refine ⟨fun n hn henters hcovers => ?_, hrest⟩
          have hcovered := hhere (n + 1) (Nat.succ_lt_succ hn) (enters_cons.mpr ⟨w, hw, henters⟩)
            (covers_cons.mpr hcovers)
          exact covers_cons.mp hcovered
        · have hrest := hbelow s w hw
          rw [beneath_append, beneath_cons_of_ne hts] at hrest
          rw [beneath_cons_of_ne hts]
          simpa [beneath] using hrest
      · intro hbelow
        refine ⟨fun n hn henters hcovers => ?_, fun s w hw => ?_⟩
        · cases n with
          | zero => exact absurd rfl (hroot 0 hn henters hcovers)
          | succ n =>
            obtain ⟨w, hw, henters⟩ := enters_cons.mp henters
            have hrest := hbelow t w hw
            rw [beneath_cons_self] at hrest
            exact covers_cons.mpr
              (hrest.1 n (Nat.lt_of_succ_lt_succ hn) henters (covers_cons.mp hcovers))
        · have hrest := hbelow s w hw
          rw [beneath_append]
          by_cases hts : t = s
          · subst hts
            rw [beneath_cons_self] at hrest ⊢
            exact hrest.2
          · rw [beneath_cons_of_ne hts] at hrest ⊢
            simpa [beneath] using hrest

/-! ## What is read back -/

/-- An induction over the values in a value, reached by one segment each. -/
theorem byFields {motive : Value → Prop}
    (step : ∀ v, (∀ s w, v.at? [s] = some w → motive w) → motive v) (v : Value) : motive v := by
  induction v using byParts with
  | arr items ih =>
    refine step _ fun s w hw => ?_
    rw [at?] at hw
    split at hw
    · obtain ⟨u, hu, huw⟩ := Option.bind_eq_some_iff.mp hw
      exact ih w (List.mem_of_getElem? (hu.trans huw))
    · cases hw
  | obj fields ih =>
    refine step _ fun s w hw => ?_
    rw [at?_obj_singleton] at hw
    exact ih _ (Document.mem_of_get? hw)
  | _ => exact step _ fun s w hw => by cases hw

/-- A copied value that is no object stays only if nothing is copied below it. -/
theorem absent_of_copied (hobject : ∀ fields, v ≠ .obj fields) (h : [] ∉ paths) {o : Option Value}
    (hcopied : copied v o paths = some v) : ∀ path ∈ paths, v.at? path = none := by
  induction paths generalizing o with
  | nil => simp
  | cons path paths ih =>
    rw [List.mem_cons, not_or] at h
    have hrest : ∀ path ∈ paths, v.at? path = none := ih h.2 (o := copyAt v o path) hcopied
    refine List.forall_mem_cons.mpr ⟨?_, hrest⟩
    have hlast : copyAt v o path = some v := (copied_of_absent hrest _).symm.trans hcopied
    cases path with
    | nil => exact absurd rfl h.1
    | cons s path =>
      rw [copyAt] at hlast
      split at hlast
      · exact absurd (Option.some.inj hlast).symm (hobject _)
      · next hnone => exact hnone

/-- All paths read the same in the copy exactly when the arrays that they enter are restored. -/
theorem readsAlike_iff_restores (hv : v.Ordered) (paths : List (List String)) :
    v.ReadsAlike paths ↔ v.Restores [] paths := by
  induction v using byFields generalizing paths with
  | step v ih =>
    have hfield : ∀ s w, v.at? [s] = some w →
        ∀ paths, w.ReadsAlike paths ↔ w.Restores [] paths :=
      fun s w hw paths => ih s w hw (every_at? hv hw) paths
    by_cases hroot : [] ∈ paths
    · rw [readsAlike_of_whole hroot]
      by_cases hobject : ∃ fields, v = .obj fields
      · -- An object that is copied whole is put together field by field.
        obtain ⟨fields, rfl⟩ := hobject
        rw [copied_obj_iff hv hroot, restores_iff_beneath fun _ => ⟨fields, rfl⟩]
        refine forall_congr' fun s => forall_congr' fun w => forall_congr' fun hw => ?_
        have hbelow : [] ∈ beneath s paths := mem_beneath.mpr (Or.inr ⟨rfl, hroot⟩)
        exact (readsAlike_of_whole hbelow).symm.trans (hfield s w hw _)
      · -- Anything else must be copied whole after the last path that has a value below it.
        have hplain : ∀ fields, v ≠ .obj fields := fun fields heq => hobject ⟨fields, heq⟩
        obtain ⟨before, after, rfl, hafter⟩ : ∃ before after, paths = before ++ [] :: after ∧
            [] ∉ after := by
          obtain ⟨l, r, hsplit, hl⟩ := List.eq_append_cons_of_mem (List.mem_reverse.mpr hroot)
          refine ⟨r.reverse, l.reverse, ?_, fun hmem => hl (List.mem_reverse.mp hmem)⟩
          rw [← List.reverse_reverse paths, hsplit]
          simp
        rw [copied_of_whole, restores_of_whole, restores_iff_absent hplain (by simp) hafter]
        exact ⟨absent_of_copied hplain hafter, fun habsent => copied_of_absent habsent _⟩
    · rw [readsAlike_iff_beneath hroot,
        restores_iff_beneath fun hmem => absurd hmem (by simpa using hroot)]
      exact forall_congr' fun s => forall_congr' fun w => forall_congr' fun hw => hfield s w hw _

end Value

/-! ## Projections -/

namespace Projection

variable {p : Projection} {idField : String}

/-- A path reads in the projected document what it reads in the copy of the identifier and the
fields. -/
theorem at?_apply (hp : p.isEmpty = false) (hdot : '.' ∉ idField.toList) (d : Document)
    {path : List String} (hpath : path ≠ []) :
    (p.apply idField d).at? path =
      ((Value.obj d).copied none ((idField :: p.fields).map segments)).bind (Value.at? path) := by
  obtain ⟨s, rest, rfl⟩ := List.exists_cons_of_ne_nil hpath
  have hroot : [] ∉ p.fields.map segments := fun hmem => by
    obtain ⟨name, -, hname⟩ := List.mem_map.mp hmem
    exact segments_ne_nil name hname
  have hobject : Value.IsObject ((Value.obj d).copied none ((idField :: p.fields).map segments)) :=
    Value.isObject_copied (fun _ => ⟨d, rfl⟩) fun u hu => by cases hu
  have hfields : ∀ start : Document,
      start = Value.fieldsOf (Value.copyAt (.obj d) none (segments idField)) →
      p.fields.foldl (copyField d) start =
        Value.fieldsOf ((Value.obj d).copied none ((idField :: p.fields).map segments)) := by
    intro start hstart
    have hcopied := Value.obj_foldl_copyField d p.fields start
    exact (congrArg Value.fieldsOf hcopied).trans (Value.fieldsOf_copied_congr hroot hstart)
  have happly : p.apply idField d =
      Value.fieldsOf ((Value.obj d).copied none ((idField :: p.fields).map segments)) := by
    rw [apply, hp]
    refine hfields _ ?_
    rw [Value.copyAt, Document.segments_of_undotted hdot, Value.at?_obj_singleton]
    cases d.get? idField <;> rfl
  rw [Value.bind_at?_cons hobject, ← happly]
  rfl

/-- Every array of a document that the projection enters after copying it is copied again. -/
def Restores (p : Projection) (idField : String) (d : Document) : Prop :=
  (Value.obj d).Restores [] ((idField :: p.fields).map segments)

instance (p : Projection) (idField : String) (d : Document) : Decidable (p.Restores idField d) :=
  inferInstanceAs (Decidable (Value.Restores _ _ _))

/-- A projected document reads the same as the document at the identifier and at all fields of the
projection exactly when its arrays are restored. -/
theorem getPath?_apply_iff (hp : p.isEmpty = false) (hdot : '.' ∉ idField.toList) {d : Document}
    (hd : (Value.obj d).Ordered) :
    (∀ name ∈ idField :: p.fields, (p.apply idField d).getPath? name = d.getPath? name) ↔
      p.Restores idField d := by
  rw [Restores, ← Value.readsAlike_iff_restores hd, Value.ReadsAlike, List.forall_mem_map]
  refine forall₂_congr fun name _ => ?_
  rw [Document.getPath?, at?_apply hp hdot d (segments_ne_nil name)]
  rfl

end Projection
end Quire
