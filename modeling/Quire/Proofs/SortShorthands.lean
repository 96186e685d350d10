import Quire.Proofs.PatchedPaths
import Quire.Proofs.ProjectedIdentifiers
import Quire.Query.Sort

/-!
# Shorthands of sort orders

The shorthand of a sort order writes a minus before the name of a descending field and nothing
before the name of an ascending one. An order that was read from a shorthand is read back from its
own one, unless a name that begins with a sign itself is ascending, as in `+-a`: then the sign in
the name counts as the sign of the field, and where there is nothing else the name is missing.
-/
namespace Quire

/-! ## Pieces of a joined text -/

namespace Text

/-- Texts joined by a separator fall into the same texts. -/
theorem pieces_intercalate {isSeparator : Char → Bool} {sep : Char} (hsep : isSeparator sep = true)
    {texts : List (List Char)} (hne : texts ≠ [])
    (h : ∀ t ∈ texts, ∀ c ∈ t, isSeparator c = false) :
    pieces isSeparator ([sep].intercalate texts) = texts := by
  rw [pieces_eq_splitOnP]
  induction texts with
  | nil => exact absurd rfl hne
  | cons t texts ih =>
    rw [List.forall_mem_cons] at h
    cases texts with
    | nil => rw [List.intercalate_singleton, List.splitOnP_eq_singleton h.1]
    | cons u texts =>
      rw [List.intercalate_cons_cons, List.append_assoc, List.singleton_append,
        List.splitOnP_append_cons_of_forall_mem h.1 sep hsep, ih (List.cons_ne_nil u texts) h.2]

end Text

section Reading

variable {α β : Type} {read : α → Option β} {xs : List α}

theorem mapM_eq_some_map {write : α → β} (h : ∀ x ∈ xs, read x = some (write x)) :
    xs.mapM read = some (xs.map write) := by
  induction xs with
  | nil => rfl
  | cons x xs ih =>
    rw [List.forall_mem_cons] at h
    rw [List.mapM_cons, h.1, ih h.2]
    rfl

theorem mapM_eq_none_of_mem {x : α} (hx : x ∈ xs) (h : read x = none) : xs.mapM read = none := by
  induction xs with
  | nil => cases hx
  | cons y xs ih =>
    rw [List.mapM_cons]
    rcases List.mem_cons.mp hx with rfl | hmem
    · rw [h]
      rfl
    · cases read y with
      | none => rfl
      | some z => rw [ih hmem]; rfl

theorem exists_mem_of_mapM_eq_some {ys : List β} (h : xs.mapM read = some ys) {y : β}
    (hy : y ∈ ys) : ∃ x ∈ xs, read x = some y := by
  by_contra! hnone
  induction xs generalizing ys with
  | nil =>
    cases h
    cases hy
  | cons x xs ih =>
    rw [List.forall_mem_cons] at hnone
    rw [List.mapM_cons] at h
    cases hx : read x with
    | none => simp [hx] at h
    | some z =>
      cases hxs : xs.mapM read with
      | none => simp [hx, hxs] at h
      | some zs =>
        simp only [hx, hxs, Option.pure_def, Option.bind_eq_bind, Option.bind_some,
          Option.some.injEq] at h
        rw [← h, List.mem_cons] at hy
        rcases hy with rfl | hy
        · exact hnone.1 hx
        · exact ih hxs hy hnone.2

end Reading

/-! ## Fields -/

namespace SortField

/-- Nothing in the name would end it. -/
structure Writable (f : SortField) : Prop where
  ne_nil : f.field.toList ≠ []
  unseparated : ∀ c ∈ f.field.toList, (c == ',' || Text.isBlank c) = false

/-- The shorthand does not show that the field is ascending, and its name begins with a sign. -/
def Misleading (f : SortField) : Prop :=
  f.direction = .asc ∧ (f.field.toList.head? = some '-' ∨ f.field.toList.head? = some '+')

/-- An ascending field whose name is a sign. -/
def Nameless (f : SortField) : Prop := f.direction = .asc ∧ (f.field = "-" ∨ f.field = "+")

instance (f : SortField) : Decidable f.Misleading := inferInstanceAs (Decidable (_ ∧ _))

instance (f : SortField) : Decidable f.Nameless := inferInstanceAs (Decidable (_ ∧ _))

/-- The field that the shorthand of a field reads as. -/
def reread (f : SortField) : SortField :=
  match f.direction, f.field.toList with
  | .asc, '-' :: name => ⟨String.ofList name, .desc⟩
  | .asc, '+' :: name => ⟨String.ofList name, .asc⟩
  | _, _ => f

theorem exists_name_eq {name : String} (h : name.toList ≠ []) :
    ∃ c cs, name = String.ofList (c :: cs) := by
  obtain ⟨c, cs, hname⟩ := List.exists_cons_of_ne_nil h
  exact ⟨c, cs, by rw [← hname, String.ofList_toList]⟩

/-- Only a misleading shorthand reads as another field. -/
theorem reread_eq_self_iff {f : SortField} (hf : f.Writable) : f.reread = f ↔ ¬ f.Misleading := by
  obtain ⟨name, direction⟩ := f
  obtain ⟨c, cs, rfl⟩ := exists_name_eq hf.ne_nil
  cases direction with
  | desc => simp [reread, Misleading]
  | asc =>
    by_cases hminus : c = '-'
    · simp [reread, Misleading, hminus]
    · by_cases hplus : c = '+'
      · simp [reread, Misleading, hplus, ← String.toList_inj]
      · simp [reread, Misleading, hminus, hplus]

end SortField

namespace SortOrder

open SortField

/-- The name of a field that was read is the end of its token, and not empty. -/
theorem name_of_parseToken? {token : List Char} {f : SortField} (h : parseToken? token = some f) :
    f.field.toList ≠ [] ∧ f.field.toList <:+ token := by
  unfold parseToken? at h
  split at h
  next direction name hsigned =>
  have hsuffix : name <:+ token := by
    split at hsigned <;> cases hsigned
    · exact List.suffix_cons _ _
    · exact List.suffix_cons _ _
    · exact List.suffix_refl _
  split at h
  · cases h
  · next hne =>
    cases h
    rw [String.toList_ofList]
    exact ⟨by simpa using hne, hsuffix⟩

/-- The fields of an order that was read can be written. -/
theorem writable_of_parse {input : String} {s : SortOrder} (h : parse input = .ok s) :
    ∀ f ∈ s.fields, f.Writable := by
  intro f hf
  rw [parse] at h
  split at h
  · next fields hfields =>
    cases h
    obtain ⟨token, htoken, hread⟩ := exists_mem_of_mapM_eq_some hfields hf
    obtain ⟨hne, hsuffix⟩ := name_of_parseToken? hread
    exact ⟨hne, fun c hc => Text.forall_mem_pieces _ token (List.mem_of_mem_filter htoken) c
      (hsuffix.subset hc)⟩
  · cases h

theorem unseparated_displayField {f : SortField} (hf : f.Writable) :
    ∀ c ∈ displayField f, (c == ',' || Text.isBlank c) = false := by
  rw [displayField]
  cases f.direction with
  | asc => exact hf.unseparated
  | desc => exact List.forall_mem_cons.mpr ⟨by decide, hf.unseparated⟩

theorem displayField_ne_nil {f : SortField} (hf : f.Writable) : displayField f ≠ [] := by
  rw [displayField]
  cases f.direction with
  | asc => exact hf.ne_nil
  | desc => exact List.cons_ne_nil _ _

/-- A shorthand reads as its field, up to a sign in front of an ascending name. -/
theorem parseToken?_displayField {f : SortField} (hf : f.Writable) :
    parseToken? (displayField f) = if f.Nameless then none else some f.reread := by
  obtain ⟨name, direction⟩ := f
  obtain ⟨c, cs, rfl⟩ := exists_name_eq hf.ne_nil
  cases direction with
  | desc => simp [displayField, parseToken?, Nameless, reread]
  | asc =>
    by_cases hminus : c = '-'
    · simp [displayField, parseToken?, Nameless, reread, hminus, ← String.toList_inj]
    · by_cases hplus : c = '+'
      · simp [displayField, parseToken?, Nameless, reread, hplus, ← String.toList_inj]
      · simp [displayField, parseToken?, Nameless, reread, hminus, hplus, ← String.toList_inj]

/-! ## Orders -/

/-- The shorthand of an order falls into those of its fields. -/
theorem pieces_display {s : SortOrder} (hs : ∀ f ∈ s.fields, f.Writable) :
    (Text.pieces (fun c => c == ',' || Text.isBlank c) s.display.toList).filter (!·.isEmpty) =
      s.fields.map displayField := by
  rw [display, String.toList_ofList]
  by_cases hempty : s.fields = []
  · simp [hempty, Text.pieces]
  · rw [Text.pieces_intercalate (by decide) (by simpa using hempty)
      (List.forall_mem_map.mpr fun f hf => unseparated_displayField (hs f hf)), List.filter_eq_self]
    refine List.forall_mem_map.mpr fun f hf => ?_
    simpa using displayField_ne_nil (hs f hf)

/-- What the shorthand of an order reads as: refused where an ascending name is a sign, and
otherwise field by field. -/
theorem parse_display {s : SortOrder} (hs : ∀ f ∈ s.fields, f.Writable) :
    parse s.display =
      if ∃ f ∈ s.fields, f.Nameless then
        .error (.invalidSort s!"empty field name in '{s.display}'")
      else .ok ⟨s.fields.map reread⟩ := by
  rw [parse, pieces_display hs, List.mapM_map]
  by_cases hnameless : ∃ f ∈ s.fields, f.Nameless
  · obtain ⟨f, hf, hname⟩ := hnameless
    have hnone : (parseToken? ∘ displayField) f = none := by
      rw [Function.comp_apply, parseToken?_displayField (hs f hf), if_pos hname]
    rw [if_pos ⟨f, hf, hname⟩, mapM_eq_none_of_mem hf hnone]
  · have hsome : ∀ f ∈ s.fields, (parseToken? ∘ displayField) f = some f.reread := fun f hf => by
      rw [Function.comp_apply, parseToken?_displayField (hs f hf),
        if_neg fun hname => hnameless ⟨f, hf, hname⟩]
    rw [if_neg hnameless, mapM_eq_some_map hsome]

/-- An order that was read from a shorthand is read back from its own one exactly if no ascending
name begins with a sign. Its shorthand is refused exactly if an ascending name is a sign, and
otherwise the sign of every misleading name counts as the sign of the field. -/
theorem parse_display_of_parse {input : String} {s : SortOrder} (h : parse input = .ok s) :
    (parse s.display = .ok s ↔ ∀ f ∈ s.fields, ¬ f.Misleading) ∧
    parse s.display =
      if ∃ f ∈ s.fields, f.Nameless then
        .error (.invalidSort s!"empty field name in '{s.display}'")
      else .ok ⟨s.fields.map reread⟩ := by
  have hs := writable_of_parse h
  refine ⟨?_, parse_display hs⟩
  have hmisleading : ∀ f : SortField, f.Nameless → f.Misleading := by
    rintro f ⟨hasc, hname | hname⟩
    · exact ⟨hasc, Or.inl (by rw [hname]; rfl)⟩
    · exact ⟨hasc, Or.inr (by rw [hname]; rfl)⟩
  rw [parse_display hs]
  split
  · next hnameless =>
    obtain ⟨f, hf, hname⟩ := hnameless
    simpa using ⟨f, hf, hmisleading f hname⟩
  · obtain ⟨fields⟩ := s
    have hself : fields.map reread = fields ↔ ∀ f ∈ fields, f.reread = f := by
      simpa using List.map_inj_left (l := fields) (f := reread) (g := id)
    rw [Except.ok.injEq, SortOrder.mk.injEq, hself]
    exact forall₂_congr fun f hf => reread_eq_self_iff (hs f hf)

/-- Descending by one name, then ascending by a name that begins with a minus. -/
def signedName : SortOrder := ⟨[⟨"a", .desc⟩, ⟨"-b", .asc⟩]⟩

theorem parse_display_of_parse_signedName :
    parse "-a, +-b" = .ok signedName ∧ parse signedName.display ≠ .ok signedName ∧
      parse signedName.display = .ok ⟨[⟨"a", .desc⟩, ⟨"b", .desc⟩]⟩ := by
  have hread : parse "-a, +-b" = .ok signedName := by cbv
  obtain ⟨hback, hdisplay⟩ := parse_display_of_parse hread
  have hmisleading : ¬ ∀ f ∈ signedName.fields, ¬ f.Misleading := by decide
  have hnamed : ¬ ∃ f ∈ signedName.fields, f.Nameless := by decide
  rw [if_neg hnamed] at hdisplay
  exact ⟨hread, fun h => hmisleading (hback.mp h), hdisplay⟩

/-- The plus in front of a name that begins with a minus is not written, and the field turns. -/
theorem display_turns_field :
    ∃ s, parse "+-a" = .ok s ∧ parse s.display = .ok ⟨[⟨"a", .desc⟩]⟩ ∧
      parse s.display ≠ .ok s := by
  have hdisplay : parse (display ⟨[⟨"-a", .asc⟩]⟩) = .ok ⟨[⟨"a", .desc⟩]⟩ := by cbv
  refine ⟨⟨[⟨"-a", .asc⟩]⟩, by cbv, hdisplay, ?_⟩
  rw [hdisplay]
  simp

end SortOrder
end Quire
