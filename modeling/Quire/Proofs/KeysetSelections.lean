import Quire.Proofs.LiveCursors

/-!
# What a keyset filter selects

A document lies beyond a position if it differs from it in some field of the order and stands
behind it, in the direction of the field, in the first one. The filter for a position selects the
matching documents beyond it, whatever the position is made of; for the cursor of a document these
are the matching documents that the order puts after that document.
-/
namespace Quire

namespace Direction

/-- Whether a value stands behind another one in a direction. -/
def Follows (direction : Direction) (v w : Value) : Prop :=
  match direction with
  | .asc => v.compare w = .gt
  | .desc => v.compare w = .lt

theorem follows_iff (direction : Direction) (v w : Value) :
    direction.Follows v w ↔ direction.orient (v.compare w) = .gt := by
  cases direction with
  | asc => rfl
  | desc => rw [Follows, orient, Ordering.swap_eq_gt]

end Direction

namespace SortOrder

/-- A document lies beyond some values of the fields: it ties with them up to a field in which it
stands behind. -/
def IsBeyond (s : SortOrder) (values : List Value) (d : Document) : Prop :=
  ∃ front f v rest, s.fields.zip values = front ++ (f, v) :: rest ∧
    (∀ p ∈ front, (d.fieldOrNull p.1.field).equal p.2 = true) ∧
    f.direction.Follows (d.fieldOrNull f.field) v

/-- The first field in which a document differs from a position decides how they compare. -/
theorem comparePositions_eq_gt_iff (d : Document) (fs : List SortField) (values : List Value) :
    comparePositions fs (fs.map fun f => d.fieldOrNull f.field) values = .gt ↔
      IsBeyond ⟨fs⟩ values d := by
  induction fs generalizing values with
  | nil => simp [comparePositions, IsBeyond]
  | cons f fs ih =>
    cases values with
    | nil => simp [comparePositions, IsBeyond]
    | cons v values =>
      have hstep := comparePositions_cons_eq_gt f fs (d.fieldOrNull f.field) v
        (fs.map fun f => d.fieldOrNull f.field) values
      rw [Bool.eq_iff_iff, Bool.or_eq_true, Bool.and_eq_true, beq_iff_eq, beq_iff_eq, beq_iff_eq,
        beq_iff_eq, ih] at hstep
      rw [List.map_cons, hstep, ← f.direction.follows_iff]
      constructor
      · rintro (hfirst | ⟨htie, front, g, w, rest, hzip, hfront, hlater⟩)
        · exact ⟨[], f, v, fs.zip values, rfl, by simp, hfirst⟩
        · refine ⟨(f, v) :: front, g, w, rest, congrArg ((f, v) :: ·) hzip, ?_, hlater⟩
          exact List.forall_mem_cons.mpr ⟨by rw [Value.equal, htie]; rfl, hfront⟩
      · rintro ⟨front, g, w, rest, hzip, hfront, hbehind⟩
        cases front with
        | nil =>
          cases hzip
          exact Or.inl hbehind
        | cons p front =>
          rw [List.cons_append, List.zip_cons_cons, List.cons.injEq] at hzip
          obtain ⟨rfl, hzip⟩ := hzip
          obtain ⟨htie, hfront⟩ := List.forall_mem_cons.mp hfront
          refine Or.inr ⟨?_, front, g, w, rest, hzip, hfront, hbehind⟩
          simpa [Value.equal] using htie

theorem isBeyond_iff (s : SortOrder) (values : List Value) (d : Document) :
    s.IsBeyond values d ↔ comparePositions s.fields (s.position d) values = .gt := by
  rw [position, names, List.map_map]
  exact (comparePositions_eq_gt_iff d s.fields values).symm

/-- A document lies beyond the position of another one exactly if the order puts it after it. -/
theorem isBeyond_position_iff (s : SortOrder) (c d : Document) :
    s.IsBeyond (s.position c) d ↔ s.compare d c = .gt := by
  rw [isBeyond_iff, compare_eq_comparePositions]

/-- The cursor of a document holds its position. -/
theorem EndsWith.position_of_ofDocument {s : SortOrder} {idField : String}
    (h : s.EndsWith idField) (hdot : '.' ∉ idField.toList) {d : Document} {version : Nat}
    {c : Cursor} (hc : Cursor.ofDocument d s idField version = .ok c) :
    s.position d = c.values ++ [c.id] := by
  obtain ⟨hid, -, -, hvalues⟩ := Cursor.of_ofDocument hc
  rw [Collection.idOf?, Option.filter_eq_some_iff] at hid
  rw [Regular.position_eq h hdot hid.1, hvalues]

section After

variable {s : SortOrder} {base : Filter} {values : List Value} {id : Value} {idField : String}

theorem holds_after_iff {f : Filter} (h : s.after base values id idField = .ok f) (d : Document) :
    f.holds d = true ↔ base.holds d = true ∧ s.IsBeyond (values ++ [id]) d := by
  rw [holds_after h, Bool.and_eq_true, beq_iff_eq, isBeyond_iff]

/-- How building a keyset filter ends, and when. -/
theorem after_cases (s : SortOrder) (base : Filter) (values : List Value) (id : Value)
    (idField : String) :
    (s.names.getLast? ≠ some idField ∧
        ∃ message, s.after base values id idField = .error (.invalidSort message)) ∨
      (s.names.getLast? = some idField ∧ values.length + 1 ≠ s.fields.length ∧
        s.after base values id idField = .error .cursorSort) ∨
      (s.names.getLast? = some idField ∧ values.length + 1 = s.fields.length ∧
        ∃ f, s.after base values id idField = .ok f) := by
  have hlast : s.names.getLast? = s.fields.getLast?.map (·.field) := List.getLast?_map
  rw [hlast, after]
  by_cases hends : s.fields.getLast?.map (·.field) = some idField
  · rw [if_neg (not_not_intro hends)]
    by_cases hlength : values.length + 1 = s.fields.length
    · rw [if_neg (not_not_intro hlength)]
      exact Or.inr (Or.inr ⟨hends, hlength, _, rfl⟩)
    · rw [if_pos hlength]
      exact Or.inr (Or.inl ⟨hends, hlength, rfl⟩)
  · rw [if_pos hends]
    exact Or.inl ⟨hends, _, rfl⟩

/-- The filter for the cursor of a document selects what the order puts after the document. -/
theorem EndsWith.exists_after_ofDocument (h : s.EndsWith idField) (hdot : '.' ∉ idField.toList)
    (base : Filter) {c : Document} (hc : (Collection.idOf? idField c).isSome = true)
    (version : Nat) :
    ∃ cursor f, Cursor.ofDocument c s idField version = .ok cursor ∧
      s.after base cursor.values cursor.id idField = .ok f ∧
      ∀ d, f.holds d = true ↔ base.holds d = true ∧ s.compare d c = .gt := by
  obtain ⟨cursor, hcursor⟩ := Cursor.exists_ofDocument h hc version
  have hposition := h.position_of_ofDocument hdot hcursor
  have hlength : cursor.values.length + 1 = s.fields.length := by
    rw [← length_position s c, hposition, List.length_append, List.length_singleton]
  obtain ⟨f, hf⟩ := h.after_isOk base cursor.id hlength
  refine ⟨cursor, f, hcursor, hf, fun d => ?_⟩
  rw [holds_after_iff hf, ← hposition, isBeyond_position_iff]

end After

/-- The filter for a position is refused exactly where the order does not end with the identifier or
the number of values is wrong. Otherwise it selects the matching documents beyond the position, and
for the cursor of a document those that the order puts after the document. -/
theorem after_selects (s : SortOrder) (base : Filter) (idField : String) :
    (∀ values id,
      ((∃ message, s.after base values id idField = .error (.invalidSort message)) ↔
        s.names.getLast? ≠ some idField) ∧
      (s.after base values id idField = .error .cursorSort ↔
        s.names.getLast? = some idField ∧ values.length + 1 ≠ s.fields.length) ∧
      (s.names.getLast? = some idField → values.length + 1 = s.fields.length →
        ∃ f, s.after base values id idField = .ok f ∧
          ∀ d, f.holds d = true ↔ base.holds d = true ∧ s.IsBeyond (values ++ [id]) d)) ∧
    ∀ requested : SortOrder, requested.forKeyset idField = .ok s → '.' ∉ idField.toList →
      ∀ c version, (Collection.idOf? idField c).isSome = true →
        ∃ cursor f, Cursor.ofDocument c s idField version = .ok cursor ∧
          s.after base cursor.values cursor.id idField = .ok f ∧
          ∀ d, f.holds d = true ↔ base.holds d = true ∧ s.compare d c = .gt := by
  refine ⟨fun values id => ?_, fun requested hsort hdot c version hc =>
    (endsWith_forKeyset hsort).exists_after_ofDocument hdot base hc version⟩
  rcases s.after_cases base values id idField with
    ⟨hends, message, h⟩ | ⟨hends, hlength, h⟩ | ⟨hends, hlength, f, h⟩
  · exact ⟨iff_of_true ⟨message, h⟩ hends, iff_of_false (by simp [h]) fun hno => hends hno.1,
      fun hno => absurd hno hends⟩
  · exact ⟨iff_of_false (by simp [h]) (not_not_intro hends), iff_of_true h ⟨hends, hlength⟩,
      fun _ hno => absurd hno hlength⟩
  · exact ⟨iff_of_false (by simp [h]) (not_not_intro hends),
      iff_of_false (by simp [h]) fun hno => hno.2 hlength, fun _ _ => ⟨f, h, holds_after_iff h⟩⟩

/-- Largest numbers first, texts in their order. -/
def numbersThenTexts : SortOrder := ⟨[⟨"n", .desc⟩, ⟨"s", .asc⟩, ⟨"id", .desc⟩]⟩

/-- A filter with two conditions of its own. -/
def positiveRows : Filter := .and [.presence "id" true, .test .gt "n" (.int 0)]

/-- The filter for the position of a row without a text, from its values and from its cursor. -/
theorem after_selects_positiveRows :
    (∃ f, numbersThenTexts.after positiveRows [.int 5, .null] (.int 2) "id" = .ok f ∧
      ∀ d, f.holds d = true ↔ positiveRows.holds d = true ∧
        numbersThenTexts.IsBeyond [.int 5, .null, .int 2] d) ∧
    ∃ cursor f,
      Cursor.ofDocument [("id", .int 2), ("n", .int 5)] numbersThenTexts "id" 1 = .ok cursor ∧
      numbersThenTexts.after positiveRows cursor.values cursor.id "id" = .ok f ∧
      ∀ d, f.holds d = true ↔ positiveRows.holds d = true ∧
        numbersThenTexts.compare d [("id", .int 2), ("n", .int 5)] = .gt := by
  have hnormal : SortOrder.forKeyset ⟨[⟨"n", .desc⟩, ⟨"s", .asc⟩, ⟨"n", .desc⟩]⟩ "id" =
      .ok numbersThenTexts := by
    decide +kernel
  obtain ⟨hany, hdocument⟩ := after_selects numbersThenTexts positiveRows "id"
  exact ⟨(hany [.int 5, .null] (.int 2)).2.2 rfl rfl,
    hdocument _ hnormal (by decide) _ 1 (by decide)⟩

end SortOrder
end Quire
