import Quire.Proofs.CreatedDocuments
import Quire.Proofs.PathWrites

/-!
# Patched paths

A patch writes its values at paths, in increasing order of the keys, so that a key comes before the
keys below it. Applied twice it does what it does once, and a key with no other below it reads back
its value. What lies beside all keys stays, except in an array that a key enters: writing goes
through objects only, and puts one in the place of the array.
-/
namespace Quire

/-! ## Keys in order -/

namespace Text

theorem pieces_eq_splitOnP (isSeparator : Char → Bool) (cs : List Char) :
    pieces isSeparator cs = cs.splitOnP isSeparator := by
  induction cs with
  | nil => rfl
  | cons c cs ih =>
    obtain ⟨p, ps, hcs⟩ := List.exists_cons_of_ne_nil (pieces_ne_nil isSeparator cs)
    rw [pieces, List.splitOnP_cons_eq_if_modifyHead, ← ih, hcs]
    rfl

/-- The pieces with the separator between them are the text again. -/
theorem intercalate_pieces (sep : Char) (cs : List Char) :
    [sep].intercalate (pieces (· == sep) cs) = cs := by
  rw [pieces_eq_splitOnP]
  exact List.intercalate_splitOn sep

theorem intercalate_prefix (sep : List Char) {ps qs : List (List Char)} (h : ps <+: qs) :
    sep.intercalate ps <+: sep.intercalate qs := by
  induction ps generalizing qs with
  | nil => exact List.nil_prefix
  | cons p ps ih =>
    obtain ⟨rest, rfl⟩ := h
    have hrest := ih (List.prefix_append ps rest)
    cases ps with
    | nil =>
      cases rest with
      | nil => exact List.prefix_refl _
      | cons q rest =>
        rw [List.intercalate_singleton, List.singleton_append, List.intercalate_cons_cons,
          List.append_assoc]
        exact List.prefix_append _ _
    | cons q ps =>
      rw [List.cons_append, List.cons_append, List.intercalate_cons_cons,
        List.intercalate_cons_cons]
      exact (List.prefix_append_right_inj _).mpr hrest

end Text

/-- A path whose segments are the first ones of another path is a start of its text. -/
theorem toList_prefix_of_segments {path other : String} (h : segments path <+: segments other) :
    path.toList <+: other.toList := by
  have hpieces := (List.prefix_map_iff_of_injective fun _ _ => String.ofList_injective).mp h
  have htexts := Text.intercalate_prefix ['.'] hpieces
  rwa [Text.intercalate_pieces, Text.intercalate_pieces] at htexts

/-- A path comes before the paths below it. -/
theorem not_segments_prefix_of_lt {path other : String} (h : path < other) :
    ¬ segments other <+: segments path := fun hprefix =>
  List.not_lt.mpr (toList_prefix_of_segments hprefix).le (String.lt_iff.mp h)

/-! ## Patches as writes -/

namespace Document

/-- What a patch writes, and where. -/
def writes (idField : String) (patch : Document) : List (List String × Value) :=
  (patch.filter fun f => f.1 ≠ idField).map fun f => (segments f.1, f.2)

variable {idField : String} {patch : Document}

theorem mem_writes {w : List String × Value} :
    w ∈ writes idField patch ↔ ∃ f ∈ patch, f.1 ≠ idField ∧ (segments f.1, f.2) = w := by
  simp only [writes, List.mem_map, List.mem_filter, decide_eq_true_eq, and_assoc]

theorem writes_cons_of_eq {f : String × Value} (hid : f.1 = idField) :
    writes idField (f :: patch) = writes idField patch := by
  rw [writes, List.filter_cons_of_neg (by simpa using hid), writes]

theorem writes_cons_of_ne {f : String × Value} (hid : f.1 ≠ idField) :
    writes idField (f :: patch) = (segments f.1, f.2) :: writes idField patch := by
  rw [writes, List.filter_cons_of_pos (by simpa using hid), List.map_cons, writes]

/-- In increasing order of the keys no write covers an earlier one. -/
theorem uncovered_writes (h : (patch.map Prod.fst).Pairwise (· < ·)) :
    Value.Uncovered (writes idField patch) :=
  List.pairwise_map.mpr (((List.pairwise_map.mp h).filter _).imp not_segments_prefix_of_lt)

/-- A path of the patch breaks an array on the way to another path. -/
def Breaks (idField : String) (patch d : Document) (path : String) : Prop :=
  ∃ f ∈ patch, f.1 ≠ idField ∧ Value.MeetInArray (some (.obj d)) (segments f.1) (segments path)

instance (idField : String) (patch d : Document) (path : String) :
    Decidable (Breaks idField patch d path) :=
  inferInstanceAs (Decidable (∃ f ∈ patch, _ ∧ _))

theorem breaks_iff {d : Document} {path : String} :
    Breaks idField patch d path ↔
      ∃ w ∈ writes idField patch, Value.MeetInArray (some (.obj d)) w.1 (segments path) := by
  constructor
  · rintro ⟨f, hf, hid, hmeet⟩
    exact ⟨_, mem_writes.mpr ⟨f, hf, hid, rfl⟩, hmeet⟩
  · rintro ⟨w, hw, hmeet⟩
    obtain ⟨f, hf, hid, rfl⟩ := mem_writes.mp hw
    exact ⟨f, hf, hid, hmeet⟩

end Document

namespace Collection

open Document

variable {idField : String} {patch : Document}

theorem obj_applyPatch (patch d : Document) :
    some (.obj (applyPatch idField patch d)) =
      Value.written (some (.obj d)) (writes idField patch) := by
  induction patch generalizing d with
  | nil => rfl
  | cons f patch ih =>
    rw [applyPatch_cons, ih]
    by_cases hid : f.1 = idField
    · rw [if_pos hid, writes_cons_of_eq hid]
    · rw [if_neg hid, writes_cons_of_ne hid, Value.written_cons, setPath,
        Value.obj_setAt f.2 (segments_ne_nil f.1)]

theorem getPath?_applyPatch (patch d : Document) (path : String) :
    (applyPatch idField patch d).getPath? path =
      (Value.written (some (.obj d)) (writes idField patch)).bind (Value.at? (segments path)) := by
  rw [← obj_applyPatch]
  rfl

/-! ## What a patch does -/

/-- A patch made twice does what it does once, and a key with no other below it reads back its
value. -/
theorem applyPatch_twice_and_reads (idField : String)
    (hpatch : (patch.map Prod.fst).Pairwise (· < ·)) (d : Document) :
    applyPatch idField patch (applyPatch idField patch d) = applyPatch idField patch d ∧
      ∀ f ∈ patch, f.1 ≠ idField →
        (∀ g ∈ patch, g.1 ≠ idField → g.1 ≠ f.1 → ¬ segments f.1 <+: segments g.1) →
        (applyPatch idField patch d).getPath? f.1 = some f.2 := by
  have huncovered : Value.Uncovered (writes idField patch) := uncovered_writes hpatch
  refine ⟨?_, fun f hf hid hdeep => ?_⟩
  · have htwice := huncovered.written_written (List.Sublist.refl _) (some (.obj d))
    rw [← obj_applyPatch, ← obj_applyPatch] at htwice
    exact Value.obj.inj (Option.some.inj htwice)
  · rw [getPath?_applyPatch]
    refine huncovered.bind_at?_written (mem_writes.mpr ⟨f, hf, hid, rfl⟩) (fun u hu hbelow => ?_) _
    obtain ⟨g, hg, hgid, rfl⟩ := mem_writes.mp hu
    by_cases hsame : g.1 = f.1
    · have hvalue := (Document.get?_of_mem hpatch hg).symm.trans
        ((congrArg patch.get? hsame).trans (Document.get?_of_mem hpatch hf))
      rw [hsame, Option.some.inj hvalue]
    · exact absurd hbelow (hdeep g hg hgid hsame)

/-- Keys below each other, and the key of the identifier. -/
def nestedKeys : Document :=
  [("_id", .int 7), ("a", .int 1), ("a.b", .obj [("c", .int 2)]), ("a.b.c", .int 3),
    ("tags.0", .str "x")]

/-- A number becomes an object twice over, and an array becomes one. -/
theorem applyPatch_twice_and_reads_nestedKeys :
    ∃ d, d = applyPatch "_id" nestedKeys
        [("_id", .int 1), ("a", .str "s"), ("tags", .arr [.str "a"])] ∧
      applyPatch "_id" nestedKeys d = d ∧
      d.getPath? "a.b.c" = some (.int 3) ∧ d.getPath? "tags.0" = some (.str "x") := by
  have hkeys : (nestedKeys.map Prod.fst).Pairwise (· < ·) := by decide +kernel
  obtain ⟨htwice, hreads⟩ := applyPatch_twice_and_reads "_id" hkeys
    [("_id", .int 1), ("a", .str "s"), ("tags", .arr [.str "a"])]
  refine ⟨_, rfl, htwice, ?_, ?_⟩
  · exact hreads ("a.b.c", .int 3) (by simp [nestedKeys]) (by decide) (by decide +kernel)
  · exact hreads ("tags.0", .str "x") (by simp [nestedKeys]) (by decide) (by decide +kernel)

/-- A patch of the first document that satisfies a filter leaves what lies beside its keys, except
in the arrays that it breaks; of those nothing is left. -/
theorem getPath?_updateOne {c : Collection} {f : Filter} {before after : List Document}
    {d : Document} (hdocs : c.docs = before ++ d :: after)
    (hbefore : ∀ e ∈ before, f.holds e = false) (hd : f.holds d = true) (patch : Document) :
    ∃ e, c.updateOne f patch = (some e, { c with docs := before ++ e :: after }) ∧
      ∀ path, (∀ g ∈ patch, g.1 ≠ c.idField → Value.Apart (segments g.1) (segments path)) →
        e.getPath? path = if Breaks c.idField patch d path then none else d.getPath? path := by
  refine ⟨applyPatch c.idField patch d, ?_, fun path hbeside => ?_⟩
  · rw [updateOne, hdocs, changeFirst_append hbefore hd]
  · have hapart : ∀ w ∈ writes c.idField patch, Value.Apart w.1 (segments path) := by
      intro w hw
      obtain ⟨g, hg, hid, rfl⟩ := mem_writes.mp hw
      exact hbeside g hg hid
    rw [getPath?_applyPatch, Value.bind_at?_written _ hapart]
    exact if_congr breaks_iff.symm rfl rfl

/-- A document with an array and an object. -/
def taggedRow : Collection where
  docs := [[("_id", .int 1), ("at", .obj [("x", .int 1), ("y", .int 2)]),
    ("tags", .arr [.str "a", .str "b"])]]

/-- A patch in an object and in an array. -/
theorem getPath?_updateOne_taggedRow :
    ∃ e, taggedRow.updateOne .all [("at.x", .int 9), ("tags.0", .str "x")] =
        (some e, { taggedRow with docs := [e] }) ∧
      e.getPath? "at.y" = some (.int 2) ∧ e.getPath? "tags.1" = none := by
  have hdocs : taggedRow.docs = [] ++ [("_id", .int 1), ("at", .obj [("x", .int 1), ("y", .int 2)]),
      ("tags", .arr [.str "a", .str "b"])] :: [] := rfl
  obtain ⟨e, he, hreads⟩ := getPath?_updateOne (f := .all) hdocs (List.forall_mem_nil _) rfl
    [("at.x", .int 9), ("tags.0", .str "x")]
  refine ⟨e, he, ?_, ?_⟩
  · exact (hreads "at.y" (by decide +kernel)).trans (if_neg (by decide +kernel))
  · exact (hreads "tags.1" (by decide +kernel)).trans (if_pos (by decide +kernel))

/-- A patch of the first item of an array takes the second one away. -/
theorem updateOne_loses_item :
    ∃ d e : Document, taggedRow.docs = [d] ∧
      taggedRow.updateOne .all [("tags.0", .str "x")] = (some e, { taggedRow with docs := [e] }) ∧
      Value.Apart (segments "tags.0") (segments "tags.1") ∧
      d.getPath? "tags.1" = some (.str "b") ∧ e.getPath? "tags.1" = none :=
  ⟨_, _, rfl, rfl, by decide +kernel, rfl, rfl⟩

end Collection
end Quire
