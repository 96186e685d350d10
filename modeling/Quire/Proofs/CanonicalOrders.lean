import Mathlib.Data.List.Dedup
import Quire.Proofs.KeysetFilters

/-!
# Canonical sort orders

The sort order that keyset paging makes of a requested one names each field once, ends with the
identifier, and is left as it is when it is requested itself. On documents with different
identifiers it decides every comparison, and wherever the requested order decides, it decides alike:
a repeated field has nothing to add, and neither has a field behind the identifier. This needs a
name without a dot, for which a document's identifier is what the order reads of it.
-/
namespace Quire.SortOrder

/-! ## Comparing field by field -/

section Comparing

variable (a b : Document)

theorem compareBy_append (fs gs : List SortField) :
    compareBy a b (fs ++ gs) = (compareBy a b fs).then (compareBy a b gs) := by
  induction fs with
  | nil => rfl
  | cons f fs ih =>
    rw [List.cons_append, compareBy, compareBy]
    cases (a.fieldOrNull f.field).compare (b.fieldOrNull f.field) with
    | eq => exact ih
    | lt => cases f.direction <;> rfl
    | gt => cases f.direction <;> rfl

/-- Documents tie exactly if they tie in every field. -/
theorem compareBy_eq_eq_iff (fs : List SortField) :
    compareBy a b fs = .eq ↔
      ∀ f ∈ fs, (a.fieldOrNull f.field).equal (b.fieldOrNull f.field) = true := by
  induction fs with
  | nil => simp [compareBy]
  | cons f fs ih =>
    rw [compareBy, List.forall_mem_cons, Value.equal]
    cases hf : (a.fieldOrNull f.field).compare (b.fieldOrNull f.field) with
    | eq => simpa using ih
    | lt => cases f.direction <;> simp [Direction.orient]
    | gt => cases f.direction <;> simp [Direction.orient]

/-- A field that comes once more decides nothing. -/
theorem compareBy_insert_of_mem {f : SortField} {fs : List SortField} (h : f ∈ fs)
    (gs : List SortField) : compareBy a b (fs ++ f :: gs) = compareBy a b (fs ++ gs) := by
  rw [compareBy_append, compareBy_append]
  cases hfs : compareBy a b fs with
  | eq =>
    have hf := (compareBy_eq_eq_iff a b fs).mp hfs f h
    rw [Value.equal, beq_iff_eq] at hf
    rw [compareBy, hf]
  | lt => rfl
  | gt => rfl

end Comparing

/-! ## Fields without repetitions -/

/-- What the fields of a list become behind others that have been taken over already. -/
structure TakesOver (seen fields out : List SortField) : Prop where
  nodup : (out.map (·.field)).Nodup
  mem_iff : ∀ f, f ∈ out ↔ f ∈ seen ∨ f ∈ fields
  named : ∀ f ∈ fields, f.field ≠ ""
  head? : out.head? = (seen ++ fields).head?
  compareBy : ∀ a b, compareBy a b out = compareBy a b (seen ++ fields)

theorem takesOver_of_distinctFields {seen fields out : List SortField}
    (hseen : (seen.map (·.field)).Nodup) (h : distinctFields seen fields = .ok out) :
    TakesOver seen fields out := by
  induction fields generalizing seen with
  | nil =>
    cases h
    exact ⟨hseen, by simp, by simp, by simp, by simp⟩
  | cons f fs ih =>
    rw [distinctFields] at h
    split at h
    · cases h
    next hname =>
    split at h
    · next g hg =>
      split at h
      · next hdirection =>
        -- The field is there already, with its direction.
        have hfg : g = f := by
          have hfield : g.field = f.field := by simpa using List.find?_some hg
          cases g
          cases f
          simp_all
        have hmem : f ∈ seen := hfg ▸ List.mem_of_find?_eq_some hg
        have hrest := ih hseen h
        refine ⟨hrest.nodup, fun e => ?_, ?_, ?_, fun a b => ?_⟩
        · rw [hrest.mem_iff, List.mem_cons]
          refine or_congr_right' fun he => (or_iff_right ?_).symm
          rintro rfl
          exact he hmem
        · exact List.forall_mem_cons.mpr ⟨hname, hrest.named⟩
        · obtain ⟨e, es, rfl⟩ := List.exists_cons_of_ne_nil (List.ne_nil_of_mem hmem)
          exact hrest.head?
        · rw [hrest.compareBy, compareBy_insert_of_mem a b hmem]
      · cases h
    · next hnew =>
      have hfresh : f.field ∉ seen.map (·.field) := by
        simpa using List.find?_eq_none.mp hnew
      have hrest := ih (by simpa [List.nodup_append, hseen] using hfresh) h
      refine ⟨hrest.nodup, fun e => ?_, ?_, ?_, fun a b => ?_⟩
      · rw [hrest.mem_iff, List.mem_append, List.mem_singleton, List.mem_cons, or_assoc]
      · exact List.forall_mem_cons.mpr ⟨hname, hrest.named⟩
      · simpa using hrest.head?
      · simpa using hrest.compareBy a b

/-- A field that is refused has no name, or its name stands for both directions. -/
theorem clash_of_distinctFields {seen fields : List SortField} {e : Fault}
    (h : distinctFields seen fields = .error e) :
    (∃ message, e = .invalidSort message) ∧
      ∃ f ∈ fields, f.field = "" ∨
        ∃ g ∈ seen ++ fields, g.field = f.field ∧ g.direction ≠ f.direction := by
  induction fields generalizing seen with
  | nil => cases h
  | cons f fs ih =>
    -- A clash further on is a clash of the whole list.
    have hlater : ∀ {seen' : List SortField}, (∀ g ∈ seen', g ∈ seen ++ f :: fs) →
        distinctFields seen' fs = .error e →
        (∃ message, e = .invalidSort message) ∧ ∃ f' ∈ f :: fs, f'.field = "" ∨
          ∃ g ∈ seen ++ f :: fs, g.field = f'.field ∧ g.direction ≠ f'.direction := by
      intro seen' hseen' hfs
      obtain ⟨hmessage, f', hf', hclash⟩ := ih hfs
      refine ⟨hmessage, f', List.mem_cons_of_mem _ hf', hclash.imp_right ?_⟩
      rintro ⟨g, hg, hboth⟩
      refine ⟨g, ?_, hboth⟩
      rcases List.mem_append.mp hg with hg | hg
      · exact hseen' g hg
      · exact List.mem_append_right _ (List.mem_cons_of_mem _ hg)
    rw [distinctFields] at h
    split at h
    · next hname =>
      cases h
      exact ⟨⟨_, rfl⟩, f, List.mem_cons_self, Or.inl hname⟩
    split at h
    · next g hg =>
      split at h
      · exact hlater (fun g hg => List.mem_append_left _ hg) h
      · next hdirection =>
        cases h
        refine ⟨⟨_, rfl⟩, f, List.mem_cons_self, Or.inr ⟨g, ?_, ?_, hdirection⟩⟩
        · exact List.mem_append_left _ (List.mem_of_find?_eq_some hg)
        · simpa using List.find?_some hg
    · refine hlater (fun g hg => ?_) h
      rw [List.append_cons]
      exact List.mem_append_left _ hg

/-- Fields with names of their own are taken over as they are. -/
theorem distinctFields_of_nodup {seen fields : List SortField}
    (hnodup : ((seen ++ fields).map (·.field)).Nodup) (hnamed : ∀ f ∈ fields, f.field ≠ "") :
    distinctFields seen fields = .ok (seen ++ fields) := by
  induction fields generalizing seen with
  | nil => rw [distinctFields, List.append_nil]
  | cons f fs ih =>
    rw [List.forall_mem_cons] at hnamed
    have hnew : seen.find? (·.field == f.field) = none := by
      rw [List.map_append, List.nodup_append] at hnodup
      refine List.find?_eq_none.mpr fun g hg => ?_
      simpa using hnodup.2.2 g.field (List.mem_map_of_mem hg) f.field (by simp)
    rw [List.append_cons] at hnodup ⊢
    rw [distinctFields, if_neg hnamed.1, hnew]
    exact ih hnodup hnamed.2

/-! ## The direction of most fields -/

/-- A direction that no other one outnumbers among the different fields. In a tie it is that of the
first field. -/
structure IsMajority (fields : List SortField) (d : Direction) : Prop where
  most : ∀ e, fields.dedup.countP (·.direction == e) ≤ fields.dedup.countP (·.direction == d)
  tie : ∀ e ≠ d, fields.dedup.countP (·.direction == e) = fields.dedup.countP (·.direction == d) →
    fields.head?.map (·.direction) = some d

theorem isMajority_dominant {fields : List SortField} (hne : fields ≠ []) (hnodup : fields.Nodup) :
    IsMajority fields (dominant fields) := by
  obtain ⟨f, fs, rfl⟩ := List.exists_cons_of_ne_nil hne
  have hdedup : (f :: fs).dedup = f :: fs := List.dedup_eq_self.mpr hnodup
  have hsum : (f :: fs).length = (f :: fs).countP (·.direction == .desc) +
      (f :: fs).countP (·.direction == .asc) := by
    rw [List.length_eq_countP_add_countP (·.direction == .desc)]
    congr 2
    funext g
    cases g.direction <;> rfl
  have hhead : (f :: fs).head?.map (·.direction) = some f.direction := rfl
  rw [dominant, hsum, Nat.add_sub_cancel_left, hhead, Option.getD_some]
  split
  · next hmore =>
    constructor <;> rw [hdedup]
    · rintro (_ | _) <;> omega
    · rintro (_ | _) hother htie
      · omega
      · exact absurd rfl hother
  split
  · next hmore =>
    constructor <;> rw [hdedup]
    · rintro (_ | _) <;> omega
    · rintro (_ | _) hother htie
      · exact absurd rfl hother
      · omega
  · constructor <;> rw [hdedup]
    · rintro (_ | _) <;> cases f.direction <;> omega
    · exact fun _ _ _ => hhead

/-- The majority counts each field once, however often it comes. -/
theorem IsMajority.of_mem_iff {fields out : List SortField} {d : Direction}
    (h : IsMajority out d) (hnodup : out.Nodup) (hmem : ∀ f, f ∈ out ↔ f ∈ fields)
    (hhead : out.head? = fields.head?) : IsMajority fields d := by
  have hperm : fields.dedup.Perm out := by
    refine (List.perm_ext_iff_of_nodup (List.nodup_dedup fields) hnodup).mpr fun f => ?_
    rw [List.mem_dedup, hmem]
  have hcount : ∀ e, fields.dedup.countP (·.direction == e) =
      out.dedup.countP (·.direction == e) := by
    intro e
    rw [hperm.countP_eq, List.dedup_eq_self.mpr hnodup]
  constructor
  · intro e
    rw [hcount, hcount]
    exact h.most e
  · intro e he htie
    rw [hcount, hcount] at htie
    rw [← hhead]
    exact h.tie e he htie

/-! ## The normal form -/

/-- What follows the identifier falls away. -/
theorem endWith_append {idField : String} {front : List SortField} {f : SortField}
    (hfront : ∀ g ∈ front, g.field ≠ idField) (hname : f.field = idField)
    (rest : List SortField) : endWith idField (front ++ f :: rest) = front ++ [f] := by
  have hskip : front.find? (·.field == idField) = none :=
    List.find?_eq_none.mpr (by simpa using hfront)
  rw [endWith, if_pos (by simp [hname]), List.find?_append, hskip,
    List.takeWhile_append_of_pos (by simpa using hfront),
    List.takeWhile_cons_of_neg (by simp [hname]), List.find?_cons_of_pos (by simp [hname]),
    List.append_nil]
  rfl

/-- Where the identifier is missing, it comes last. -/
theorem endWith_of_absent {idField : String} {fields : List SortField}
    (h : ∀ g ∈ fields, g.field ≠ idField) :
    endWith idField fields = fields ++ [⟨idField, dominant fields⟩] := by
  rw [endWith, if_neg (by simpa using h)]

theorem endWith_cases (idField : String) (fields : List SortField) :
    (∃ front f rest, fields = front ++ f :: rest ∧ f.field = idField ∧
        endWith idField fields = front ++ [f]) ∨
      (∀ g ∈ fields, g.field ≠ idField) ∧
        endWith idField fields = fields ++ [⟨idField, dominant fields⟩] := by
  cases hfind : fields.find? (·.field == idField) with
  | none =>
    have habsent : ∀ g ∈ fields, g.field ≠ idField := by
      simpa using List.find?_eq_none.mp hfind
    exact Or.inr ⟨habsent, endWith_of_absent habsent⟩
  | some f =>
    obtain ⟨hf, front, rest, rfl, hfront⟩ := List.find?_eq_some_iff_append.mp hfind
    have hname : f.field = idField := by simpa using hf
    exact Or.inl ⟨front, f, rest, rfl, hname, endWith_append (by simpa using hfront) hname rest⟩

theorem exists_mem_endWith (idField : String) (fields : List SortField) :
    ∃ d, ⟨idField, d⟩ ∈ endWith idField fields := by
  rcases endWith_cases idField fields with ⟨front, ⟨name, d⟩, rest, -, rfl, hend⟩ | ⟨-, hend⟩
  · exact ⟨d, by simp [hend]⟩
  · exact ⟨dominant fields, by simp [hend]⟩

theorem EndsWith.endWith_eq {n : SortOrder} {idField : String} (h : n.EndsWith idField) :
    endWith idField n.fields = n.fields := by
  obtain ⟨init, direction, hfields, hinit⟩ := h
  rw [hfields, endWith_append hinit rfl]

section EndWith

variable {idField : String} {fields : List SortField}

theorem nodup_endWith (h : (fields.map (·.field)).Nodup) :
    ((endWith idField fields).map (·.field)).Nodup := by
  rcases endWith_cases idField fields with ⟨front, f, rest, rfl, -, hend⟩ | ⟨habsent, hend⟩
  · rw [hend]
    rw [List.append_cons, List.map_append] at h
    exact h.sublist (List.sublist_append_left _ _)
  · rw [hend, List.map_append, List.nodup_append]
    refine ⟨h, List.nodup_singleton _, fun name hname other hother => ?_⟩
    obtain ⟨f, hf, rfl⟩ := List.mem_map.mp hname
    rw [List.map_cons, List.map_nil, List.mem_singleton] at hother
    exact hother ▸ habsent f hf

theorem named_endWith (hid : idField ≠ "") (h : ∀ f ∈ fields, f.field ≠ "") :
    ∀ f ∈ endWith idField fields, f.field ≠ "" := by
  intro f hf
  rcases endWith_cases idField fields with ⟨front, g, rest, rfl, -, hend⟩ | ⟨-, hend⟩
  · rw [hend] at hf
    exact h f (by rw [List.append_cons]; exact List.mem_append_left _ hf)
  · rw [hend, List.mem_append, List.mem_singleton] at hf
    rcases hf with hf | rfl
    · exact h f hf
    · exact hid

/-- Documents with different identifiers do not tie, and compare as under the fields before them. -/
theorem compareBy_endWith {a b : Document}
    (hids : (a.fieldOrNull idField).equal (b.fieldOrNull idField) = false) :
    compareBy a b (endWith idField fields) ≠ .eq ∧
      (compareBy a b fields ≠ .eq →
        compareBy a b (endWith idField fields) = compareBy a b fields) := by
  have hdecides : compareBy a b (endWith idField fields) ≠ .eq := by
    intro heq
    obtain ⟨direction, hmem⟩ := exists_mem_endWith idField fields
    have hlast := (compareBy_eq_eq_iff a b _).mp heq _ hmem
    exact absurd (hlast.symm.trans hids) (by decide)
  refine ⟨hdecides, fun hdecided => ?_⟩
  rcases endWith_cases idField fields with ⟨front, f, rest, hfields, -, hend⟩ | ⟨-, hend⟩
  · have hall : compareBy a b fields =
        (compareBy a b (front ++ [f])).then (compareBy a b rest) := by
      rw [hfields, List.append_cons, compareBy_append]
    rw [hend] at hdecides ⊢
    rw [hall]
    cases hfront : compareBy a b (front ++ [f]) with
    | eq => exact absurd hfront hdecides
    | lt => rfl
    | gt => rfl
  · rw [hend, compareBy_append]
    cases hall : compareBy a b fields with
    | eq => exact absurd hall hdecided
    | lt => rfl
    | gt => rfl

end EndWith

/-- What the sort order for keyset paging has to do with the requested one. -/
structure IsNormalForm (s n : SortOrder) (idField : String) : Prop where
  nodup : n.names.Nodup
  last : n.names.getLast? = some idField
  normal : n.forKeyset idField = .ok n
  direction : ∀ d, ⟨idField, d⟩ ∈ n.fields →
    ⟨idField, d⟩ ∈ s.fields ∨ idField ∉ s.names ∧ IsMajority s.fields d
  /-- Documents that differ at the path of the identifier. -/
  compare : ∀ a b : Document, (a.fieldOrNull idField).equal (b.fieldOrNull idField) = false →
    n.compare a b ≠ .eq ∧ (s.compare a b ≠ .eq → n.compare a b = s.compare a b)
  /-- Documents with different identifiers. Without a dot the name is its own path. -/
  compareIds : '.' ∉ idField.toList → ∀ a b : Document,
    ((a.get? idField).getD .null).equal ((b.get? idField).getD .null) = false →
      n.compare a b ≠ .eq ∧ (s.compare a b ≠ .eq → n.compare a b = s.compare a b)

theorem isNormalForm_endWith {s : SortOrder} {idField : String} (hid : idField ≠ "")
    (hne : s.fields ≠ []) {fields : List SortField} (h : TakesOver [] s.fields fields) :
    IsNormalForm s ⟨endWith idField fields⟩ idField := by
  have hmem : ∀ f, f ∈ fields ↔ f ∈ s.fields := by simpa using h.mem_iff
  have hhead : fields.head? = s.fields.head? := by simpa using h.head?
  have hends := endsWith_endWith idField fields
  have hnamed := named_endWith hid fun f hf => h.named f ((hmem f).mp hf)
  have hnodup : ((endWith idField fields).map (·.field)).Nodup := nodup_endWith h.nodup
  have hcompare : ∀ a b : Document,
      (a.fieldOrNull idField).equal (b.fieldOrNull idField) = false →
        SortOrder.compare ⟨endWith idField fields⟩ a b ≠ .eq ∧ (s.compare a b ≠ .eq →
          SortOrder.compare ⟨endWith idField fields⟩ a b = s.compare a b) := by
    intro a b hids
    have htaken : s.compare a b = compareBy a b fields := (h.compareBy a b).symm
    rw [htaken]
    exact compareBy_endWith hids
  refine ⟨hnodup, ?_, ?_, ?_, hcompare, fun hdot a b hids => hcompare a b ?_⟩
  · rw [names, List.getLast?_map]
    exact hends.getLast?
  · have hkept : distinctFields [] (endWith idField fields) = .ok (endWith idField fields) :=
      distinctFields_of_nodup hnodup hnamed
    rw [forKeyset, if_neg (by simpa [isEmpty] using hends.fields_ne_nil), hkept]
    have hend : endWith idField (endWith idField fields) = endWith idField fields :=
      hends.endWith_eq
    rw [Except.map, hend]
  · intro d hd
    rcases endWith_cases idField fields with ⟨front, f, rest, hfields, -, hend⟩ | ⟨habsent, hend⟩
    · have hd' : ⟨idField, d⟩ ∈ front ++ [f] := hend ▸ hd
      refine Or.inl ((hmem _).mp ?_)
      rw [hfields, List.append_cons]
      exact List.mem_append_left _ hd'
    · have hd' : ⟨idField, d⟩ ∈ fields ++ [⟨idField, dominant fields⟩] := hend ▸ hd
      refine Or.inr ⟨fun hname => ?_, ?_⟩
      · obtain ⟨f, hf, hname⟩ := List.mem_map.mp hname
        exact habsent f ((hmem f).mpr hf) hname
      · rcases List.mem_append.mp hd' with hd' | hd'
        · exact absurd rfl (habsent _ hd')
        · cases List.mem_singleton.mp hd'
          refine IsMajority.of_mem_iff (isMajority_dominant ?_ h.nodup.of_map) h.nodup.of_map
            hmem hhead
          rintro rfl
          exact hne (List.eq_nil_iff_forall_not_mem.mpr (by simpa using hmem))
  · rwa [Document.fieldOrNull, Document.fieldOrNull, Document.getPath?_of_undotted hdot,
      Document.getPath?_of_undotted hdot]

/-- A field without a name, or a name for both directions. -/
def Clashes (s : SortOrder) : Prop :=
  "" ∈ s.names ∨ ∃ name, ⟨name, .asc⟩ ∈ s.fields ∧ ⟨name, .desc⟩ ∈ s.fields

theorem clashes_of_directions {s : SortOrder} {f g : SortField} (hf : f ∈ s.fields)
    (hg : g ∈ s.fields) (hname : g.field = f.field) (hne : g.direction ≠ f.direction) :
    s.Clashes := by
  obtain ⟨name, d⟩ := f
  obtain ⟨other, e⟩ := g
  cases hname
  refine Or.inr ⟨name, ?_⟩
  cases d <;> cases e
  · exact absurd rfl hne
  · exact ⟨hf, hg⟩
  · exact ⟨hg, hf⟩
  · exact absurd rfl hne

theorem TakesOver.not_clashes {s : SortOrder} {fields : List SortField}
    (h : TakesOver [] s.fields fields) : ¬ s.Clashes := by
  rintro (hname | ⟨name, hasc, hdesc⟩)
  · obtain ⟨f, hf, hname⟩ := List.mem_map.mp hname
    exact h.named f hf hname
  · have hsame := List.inj_on_of_nodup_map h.nodup ((h.mem_iff _).mpr (Or.inr hasc))
      ((h.mem_iff _).mpr (Or.inr hdesc)) rfl
    cases hsame

/-- A sort order is missing exactly if it is empty, and refused exactly if it clashes. Any other
order has a normal form, under which documents with different identifiers never tie if the name of
the identifier has no dot. -/
theorem forKeyset_canonical (s : SortOrder) {idField : String} (hid : idField ≠ "") :
    (s.forKeyset idField = .error .missingSort ↔ s.fields = []) ∧
    ((∃ message, s.forKeyset idField = .error (.invalidSort message)) ↔ s.Clashes) ∧
    (s.fields ≠ [] → ¬ s.Clashes →
      ∃ n, s.forKeyset idField = .ok n ∧ s.IsNormalForm n idField) := by
  by_cases hne : s.fields = []
  · have hmissing : s.forKeyset idField = .error .missingSort := by
      rw [forKeyset, if_pos (by simp [isEmpty, hne])]
    have hclash : ¬ s.Clashes := by simp [Clashes, names, hne]
    rw [hmissing]
    exact ⟨iff_of_true rfl hne, iff_of_false (by simp) hclash, fun h => absurd hne h⟩
  have hforms : s.forKeyset idField =
      (distinctFields [] s.fields).map fun fields => ⟨endWith idField fields⟩ := by
    rw [forKeyset, if_neg (by simpa [isEmpty] using hne)]
  rw [hforms]
  cases hfields : distinctFields [] s.fields with
  | error e =>
    obtain ⟨⟨message, rfl⟩, f, hf, hclash⟩ := clash_of_distinctFields hfields
    have hclashes : s.Clashes := by
      rcases hclash with hname | ⟨g, hg, hname, hdirection⟩
      · exact Or.inl (hname ▸ List.mem_map_of_mem hf)
      · exact clashes_of_directions hf hg hname hdirection
    exact ⟨iff_of_false (by simp [Except.map]) hne, iff_of_true ⟨message, rfl⟩ hclashes,
      fun _ h => absurd hclashes h⟩
  | ok fields =>
    have htaken : TakesOver [] s.fields fields :=
      takesOver_of_distinctFields List.nodup_nil hfields
    exact ⟨iff_of_false (by simp [Except.map]) hne,
      iff_of_false (by simp [Except.map]) htaken.not_clashes,
      fun _ _ => ⟨_, rfl, isNormalForm_endWith hid hne htaken⟩⟩

/-- Two different fields, of which the second one is repeated. -/
def repeatedField : SortOrder := ⟨[⟨"a", .asc⟩, ⟨"n", .desc⟩, ⟨"n", .desc⟩]⟩

/-- The first of two fields with opposite directions decides the direction of the identifier. -/
theorem forKeyset_canonical_repeatedField :
    repeatedField.forKeyset "id" = .ok ⟨[⟨"a", .asc⟩, ⟨"n", .desc⟩, ⟨"id", .asc⟩]⟩ ∧
      repeatedField.IsNormalForm ⟨[⟨"a", .asc⟩, ⟨"n", .desc⟩, ⟨"id", .asc⟩]⟩ "id" := by
  have hnormal : repeatedField.forKeyset "id" =
      .ok ⟨[⟨"a", .asc⟩, ⟨"n", .desc⟩, ⟨"id", .asc⟩]⟩ := by
    decide +kernel
  have hid : "id" ≠ "" := by decide
  obtain ⟨-, -, hform⟩ := forKeyset_canonical repeatedField hid
  obtain ⟨n, hn, hform⟩ :=
    hform (by simp [repeatedField]) (by simp [repeatedField, Clashes, names])
  cases hnormal.symm.trans hn
  exact ⟨hnormal, hform⟩

/-- With a dot in the name, the order reads a path where documents have no identifiers. Fields
behind it are dropped though they tell the documents apart. -/
theorem forKeyset_ties_dottedName :
    ∃ (s n : SortOrder) (a b : Document), s.forKeyset "meta.id" = .ok n ∧
      a.get? "meta.id" = some (.int 1) ∧ b.get? "meta.id" = some (.int 2) ∧
      n.compare a b = .eq ∧ s.compare a b = .lt :=
  ⟨⟨[⟨"meta.id", .asc⟩, ⟨"n", .asc⟩]⟩, ⟨[⟨"meta.id", .asc⟩]⟩,
    [("meta.id", .int 1), ("n", .int 1)], [("meta.id", .int 2), ("n", .int 2)],
    by decide +kernel, rfl, rfl, by decide +kernel, by decide +kernel⟩

end Quire.SortOrder
