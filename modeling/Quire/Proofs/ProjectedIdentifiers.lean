import Quire.Proofs.PatchedIdentifiers

/-!
# Projected identifiers

A projection copies fields one after another, and none of them takes away the identifier once it is
there. A projection that names the identifier keeps it in all documents, unless its name has a dot:
then no path reaches it, and only the identifier that the projection starts with remains.
-/
namespace Quire

/-! ## Segments -/

theorem Text.forall_mem_pieces {isSeparator : Char → Bool} (cs : List Char) :
    ∀ piece ∈ pieces isSeparator cs, ∀ c ∈ piece, isSeparator c = false := by
  induction cs with
  | nil => simp [pieces]
  | cons c cs ih =>
    rw [pieces]
    by_cases hc : isSeparator c = true
    · rw [if_pos hc]
      simpa using ih
    · rw [if_neg hc]
      split
      · simpa using hc
      · next piece rest hpieces =>
        rw [hpieces, List.forall_mem_cons] at ih
        simpa [List.forall_mem_cons, hc] using ih

theorem undotted_of_mem_segments {path s : String} (h : s ∈ segments path) : '.' ∉ s.toList := by
  obtain ⟨piece, hpiece, rfl⟩ := List.mem_map.mp h
  rw [String.toList_ofList]
  intro hdot
  simpa using Text.forall_mem_pieces path.toList piece hpiece '.' hdot

namespace Collection

variable {field : String}

theorem isSome_idOf?_iff {d : Document} :
    (idOf? field d).isSome = true ↔ ∃ v, d.get? field = some v ∧ v.isNull = false := by
  rw [Option.isSome_iff_exists]
  simp [idOf?, Option.filter_eq_some_iff]

theorem isSome_idOf?_congr {d e : Document} (h : d.get? field = e.get? field) :
    (idOf? field d).isSome = (idOf? field e).isSome := by
  rw [idOf?, idOf?, h]

end Collection

namespace Projection

open Document Collection

variable {field : String}

/-- A copied field leaves the identifier as it is, or puts one there. -/
theorem get?_copyField {d : Document} (hd : (idOf? field d).isSome = true) (out : Document)
    (name : String) :
    (copyField d out name).get? field = out.get? field ∨
      (idOf? field (copyField d out name)).isSome = true := by
  rw [copyField]
  split
  · next v hv =>
    by_cases hname : name = field
    · subst hname
      rcases hpath : segments name with _ | ⟨s, _ | ⟨t, rest⟩⟩
      · exact absurd hpath (segments_ne_nil name)
      · have hs : name = s := eq_of_segments_eq_singleton hpath
        right
        rw [isSome_idOf?_iff] at hd ⊢
        obtain ⟨w, hw, hnull⟩ := hd
        refine ⟨w, ?_, hnull⟩
        have hvw : v = w := by
          rw [getPath?, hpath, at?, Value.at?, ← hs, hw] at hv
          exact (Option.some.inj hv).symm
        rw [setPath, hpath, setAt, ← hs, hvw]
        exact get?_set_self _ _ _
      · by_cases hs : s = name
        · right
          rw [isSome_idOf?_iff, setPath, hpath, setAt, hs]
          · exact ⟨_, get?_set_self _ _ _, rfl⟩
          · exact List.cons_ne_nil _ _
        · left
          refine get?_setPath_of_head? ?_ v out
          simpa [hpath] using hs
    · rcases get?_setPath hname v out with hsame | ⟨fields, hobj⟩
      · exact Or.inl hsame
      · right
        rw [isSome_idOf?_iff]
        exact ⟨_, hobj, rfl⟩
  · exact Or.inl rfl

/-- Once the identifier is there, copying fields keeps one there. -/
theorem isSome_idOf?_foldl {d : Document} (hd : (idOf? field d).isSome = true)
    (names : List String) {out : Document} (hout : (idOf? field out).isSome = true) :
    (idOf? field (names.foldl (copyField d) out)).isSome = true := by
  induction names generalizing out with
  | nil => exact hout
  | cons name names ih =>
    refine ih ?_
    rcases get?_copyField hd out name with hsame | hsome
    · exact (isSome_idOf?_congr hsame).trans hout
    · exact hsome

theorem isSome_idOf?_copyField_self (hdot : '.' ∉ field.toList) {d : Document}
    (hd : (idOf? field d).isSome = true) (out : Document) :
    (idOf? field (copyField d out field)).isSome = true := by
  rw [isSome_idOf?_iff] at hd ⊢
  obtain ⟨v, hv, hnull⟩ := hd
  refine ⟨v, ?_, hnull⟩
  rw [copyField, getPath?_of_undotted hdot, hv]
  simp only [setPath, segments_of_undotted hdot, setAt, get?_set_self]

/-- A projection to a field without a dot copies it. -/
theorem isSome_idOf?_foldl_of_mem (hdot : '.' ∉ field.toList) {d : Document}
    (hd : (idOf? field d).isSome = true) {names : List String} (hmem : field ∈ names)
    (out : Document) : (idOf? field (names.foldl (copyField d) out)).isSome = true := by
  induction names generalizing out with
  | nil => cases hmem
  | cons name names ih =>
    rcases List.mem_cons.mp hmem with rfl | hmem
    · exact isSome_idOf?_foldl hd names (isSome_idOf?_copyField_self hdot hd out)
    · exact ih hmem _

/-- No path writes a field whose name has a dot. -/
theorem get?_foldl_of_dotted (hdot : '.' ∈ field.toList) (d : Document) (names : List String)
    (out : Document) : (names.foldl (copyField d) out).get? field = out.get? field := by
  induction names generalizing out with
  | nil => rfl
  | cons name names ih =>
    rw [List.foldl_cons, ih, copyField]
    split
    · refine get?_setPath_of_head? (fun hhead => ?_) _ _
      exact undotted_of_mem_segments (List.mem_of_head? hhead) hdot
    · rfl

theorem mem_addAll {p : Projection} {names : List String} :
    field ∈ (p.addAll names).fields ↔ field ∈ p.fields ∨ field ∈ names := by
  induction names generalizing p with
  | nil => simp [addAll]
  | cons name names ih =>
    have hadd : field ∈ (p.add name).fields ↔ field ∈ p.fields ∨ field = name := by
      rw [add]
      split
      · next hmem =>
        constructor
        · exact Or.inl
        · rintro (h | rfl)
          · exact h
          · simpa using hmem
      · simp
    have hstep : field ∈ (p.addAll (name :: names)).fields ↔
        field ∈ ((p.add name).addAll names).fields := Iff.rfl
    rw [hstep, ih, hadd, List.mem_cons, or_assoc]

/-- A projection that is empty or names the identifier keeps it in all documents, or in none. -/
theorem keeps_or_drops {p : Projection} (hp : p.isEmpty = true ∨ field ∈ p.fields)
    (idField : String) :
    (∀ d, (idOf? field d).isSome = true → (idOf? field (p.apply idField d)).isSome = true) ∨
      ∀ d, idOf? field (p.apply idField d) = none := by
  by_cases hempty : p.isEmpty = true
  · simp only [apply, hempty, if_true]
    exact Or.inl fun _ hd => hd
  have hmem := hp.resolve_left hempty
  simp only [apply, hempty, Bool.false_eq_true, if_false]
  by_cases hdot : '.' ∈ field.toList
  · by_cases hfield : idField = field
    · subst hfield
      refine Or.inl fun d hd => isSome_idOf?_foldl hd _ ?_
      obtain ⟨v, hv, hnull⟩ := isSome_idOf?_iff.mp hd
      rw [isSome_idOf?_iff, hv]
      exact ⟨v, get?_set_self _ _ _, hnull⟩
    · refine Or.inr fun d => ?_
      rw [idOf?, get?_foldl_of_dotted hdot]
      cases d.get? idField with
      | none => rfl
      | some v =>
        simp only [get?_set_of_ne (Ne.symm hfield), get?_nil, Option.filter_none]
  · exact Or.inl fun d hd => isSome_idOf?_foldl_of_mem hdot hd hmem _

end Projection

end Quire
