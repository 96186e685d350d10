import Quire.Proofs.ResultTexts
import Quire.Wire.Hook

/-!
# Written forms

Filters, pipelines, list modes, list results and served results are read back from the values they
are written as. The fields of the objects in between may stand in the order in which they are
written or in the order of their names, as a value lists them.
-/
namespace Quire

/-! ## Arrangements -/

namespace Value

/-- A way to arrange the fields of objects. What stands under a name stays there, and is itself
arranged. -/
structure Arranges (g : Value → Value) : Prop where
  null : g .null = .null
  bool : ∀ b, g (.bool b) = .bool b
  int : ∀ n, g (.int n) = .int n
  str : ∀ s, g (.str s) = .str s
  arr : ∀ items, g (.arr items) = .arr (items.map g)
  single : ∀ name v, g (.obj [(name, v)]) = .obj [(name, g v)]
  obj : ∀ fields : List (String × Value), (fields.map Prod.fst).Nodup → ∃ d : Document,
    g (.obj fields) = .obj d ∧ ∀ name, d.get? name = (Document.get? name fields).map g

theorem arranges_id : Arranges id where
  null := rfl
  bool _ := rfl
  int _ := rfl
  str _ := rfl
  arr items := by rw [id_def, List.map_id]
  single _ _ := rfl
  obj fields _ := ⟨fields, rfl, fun name => by rw [Option.map_id_fun, id_def]⟩

theorem arranges_normalize : Arranges normalize where
  null := rfl
  bool _ := rfl
  int _ := rfl
  str _ := rfl
  arr items := by rw [normalize, normalizeItems_eq_map]
  single _ _ := rfl
  obj fields hnames := by
    have hnormal : ((normalizeFields fields).map Prod.fst).Nodup := by
      rwa [normalizeFields_eq_map, List.map_map]
    refine ⟨_, rfl, fun name => ?_⟩
    rw [Document.get?_ofFields hnormal, Document.get?_normalizeFields]

/-- What a record with arranged fields holds for one of them. -/
def arrangedSlot (g : Value → Value) (fields : List (String × Value)) (name : String) : Wire.Slot :=
  match Document.get? name fields with
  | some v => .given (g v)
  | none => .absent

namespace Arranges

open Wire

variable {g : Value → Value} (hg : Arranges g)

include hg

theorem slots? {fields : List (String × Value)} (hnames : (fields.map Prod.fst).Nodup)
    (names : List String) :
    Wire.slots? names (g (.obj fields)) = some (names.map (arrangedSlot g fields)) := by
  obtain ⟨d, hd, hget⟩ := hg.obj fields hnames
  rw [hd, Wire.slots?]
  refine congrArg some (List.map_congr_left fun name _ => ?_)
  rw [objectSlot, arrangedSlot, hget]
  cases Document.get? name fields <;> rfl

theorem contentSlots? {fields : List (String × Value)} (hnames : (fields.map Prod.fst).Nodup)
    (reading : Reading) (names : List String) :
    Wire.contentSlots? reading names (g (.obj fields)) =
      some (names.map (arrangedSlot g fields)) := by
  rw [← hg.slots? hnames]
  obtain ⟨d, hd, -⟩ := hg.obj fields hnames
  rw [hd]
  cases reading <;> rfl

variable {tag word : String} {fields : List (String × Value)}

theorem splitTag? (hnames : (fields.map Prod.fst).Nodup)
    (htag : Document.get? tag fields = some (.str word)) :
    Wire.splitTag? tag (g (.obj fields)) = some (word, g (.obj fields)) := by
  obtain ⟨d, hd, hget⟩ := hg.obj fields hnames
  have hfound : d.get? tag = some (.str word) := by rw [hget, htag, Option.map_some, hg.str]
  rw [hd]
  simp only [Wire.splitTag?, hfound, Option.bind_eq_bind, Option.bind_some, string?]

variable {α : Type}

theorem tagged? {words : List (String × α)} {a : α} (hnames : (fields.map Prod.fst).Nodup)
    (htag : Document.get? tag fields = some (.str word)) (hword : words.lookup word = some a)
    (content : String) :
    Wire.tagged? tag content words (g (.obj fields)) =
      some (a, arrangedSlot g fields content) := by
  have hslots := hg.slots? hnames [tag, content]
  obtain ⟨d, hd, -⟩ := hg.obj fields hnames
  rw [hd] at hslots ⊢
  simp only [Wire.tagged?, hslots, List.map_cons, List.map_nil, Option.bind_eq_bind,
    Option.bind_some, arrangedSlot, htag, hg.str, Slot.required, word?, hword]

theorem list? {read : Value → Option α} {write : α → Value} {xs : List α}
    (h : ∀ x ∈ xs, read (g (write x)) = some x) :
    Wire.list? read (g (.arr (xs.map write))) = some xs := by
  rw [hg.arr, List.map_map]
  exact mapM_map_eq_some h

/-- A value that cannot be read from null is told from an absent one. -/
theorem optional {read : Value → Option α} {write : α → Value} (hnull : read .null = none)
    {o : Option α} (h : ∀ a, o = some a → read (g (write a)) = some a) :
    (Slot.given (g (.ofOption write o))).optional read = some o := by
  cases o with
  | none => rw [ofOption, hg.null]; rfl
  | some a =>
    have hread := h a rfl
    rw [ofOption]
    cases hwritten : g (write a) with
    | null =>
      rw [hwritten, hnull] at hread
      cases hread
    | _ =>
      rw [hwritten] at hread
      simp only [Slot.optional, hread, Option.map_some]

end Arranges

end Value

/-! ## Leaves -/

namespace Wire

/-- What a written form takes over as it is: a schemaless value or a count. -/
inductive Leaf where
  | value (v : Value)
  | count (n : Nat)

/-- The value is the same when it is arranged, the count has 64 bits. -/
def Leaf.Fits (g : Value → Value) : Leaf → Prop
  | value v => g v = v
  | count n => n < twoPow 64

/-- The leaves of documents. -/
def documentLeaves (docs : List Document) : List Leaf := docs.map fun d => .value (.obj d)

end Wire

open Wire

variable {g : Value → Value}

/-- Counts are read back from their written forms. -/
theorem Value.Arranges.nat64? (hg : Value.Arranges g) {n : Nat} (h : (Leaf.count n).Fits g) :
    Wire.nat64? (g (.nat n)) = some n := by
  rw [Value.nat, hg.int]
  exact Value.unsigned64?_nat h

theorem Value.Arranges.documents (hg : Value.Arranges g) {docs : List Document}
    (h : ∀ l ∈ documentLeaves docs, l.Fits g) :
    Wire.list? Wire.document? (g (.documents docs)) = some docs := by
  refine hg.list? fun d hd => ?_
  have hsame : g (.obj d) = .obj d := h _ (List.mem_map_of_mem hd)
  rw [hsame]
  rfl

theorem Value.Arranges.strings (hg : Value.Arranges g) (texts : List String) :
    Wire.list? string? (g (.arr (texts.map .str))) = some texts :=
  hg.list? fun text _ => by rw [hg.str]; rfl

/-! ## Filters -/

namespace Filter

mutual
/-- The leaves of a filter. -/
def leaves : Filter → List Leaf
  | .test _ _ v => [.value v]
  | .oneOf _ vs => vs.map .value
  | .and parts => leavesAll parts
  | .or parts => leavesAll parts
  | _ => []

/-- The leaves of several filters. -/
def leavesAll : List Filter → List Leaf
  | [] => []
  | f :: fs => f.leaves ++ leavesAll fs
end

section

variable (hg : Value.Arranges g) (reading : Reading) (field : String)

include hg

theorem read?_test (r : Relation) {v : Value} (hv : g v = v) :
    read? reading (g (test r field v).toValue) = some (.test r field v) := by
  have hread : ∀ body, read? reading (.obj [(r.name, body)]) = readTest? reading r.name body := by
    intro body
    cases r <;> simp [read?, Relation.name]
  have hword : Relation.words.lookup r.name = some r := by cases r <;> decide
  rw [toValue, hg.single, hread, readTest?, hword]
  dsimp only
  rw [hg.contentSlots? (by simp)]
  simp [Value.arrangedSlot, Document.get?, hg.str, hv, Slot.required, string?, Wire.value?]

theorem read?_oneOf {vs : List Value} (hvs : ∀ v ∈ vs, g v = v) :
    read? reading (g (oneOf field vs).toValue) = some (.oneOf field vs) := by
  have hlist : Wire.list? Wire.value? (g (.arr vs)) = some vs := by
    have hmap : Wire.list? Wire.value? (g (.arr (vs.map id))) = some vs :=
      hg.list? fun v hv => congrArg some (hvs v hv)
    rwa [List.map_id] at hmap
  have hread : ∀ body, read? reading (.obj [("in", body)]) = readTest? reading "in" body := by
    intro body
    simp [read?]
  have hword : Relation.words.lookup "in" = none := by decide
  rw [toValue, hg.single, hread, readTest?, hword]
  dsimp only
  rw [if_pos rfl, hg.contentSlots? (by simp)]
  simp [Value.arrangedSlot, Document.get?, hg.str, hlist, Slot.required, string?]

theorem read?_presence (present : Bool) :
    read? reading (g (presence field present).toValue) = some (.presence field present) := by
  have hread : ∀ body, read? reading (.obj [("exists", body)]) =
      readTest? reading "exists" body := by
    intro body
    simp [read?]
  have hword : Relation.words.lookup "exists" = none := by decide
  rw [toValue, hg.single, hread, readTest?, hword]
  dsimp only
  rw [if_neg (by decide), if_pos rfl, hg.contentSlots? (by simp)]
  simp [Value.arrangedSlot, Document.get?, hg.str, hg.bool, Slot.required, string?, bool?]

end

mutual
/-- A filter is read back from its written form, whichever way choices are read. -/
theorem read?_toValue (hg : Value.Arranges g) (reading : Reading) : ∀ f : Filter,
    (∀ l ∈ f.leaves, l.Fits g) → read? reading (g f.toValue) = some f
  | .all, _ => by rw [toValue, hg.str]; rfl
  | .test r field v, h => read?_test hg reading field r (h _ List.mem_cons_self)
  | .oneOf field vs, h => read?_oneOf hg reading field fun v hv => h _ (List.mem_map_of_mem hv)
  | .presence field present, _ => read?_presence hg reading field present
  | .and parts, h => by
    rw [toValue, hg.single, hg.arr, read?, readAll?_toValues hg reading parts h]
    rfl
  | .or parts, h => by
    rw [toValue, hg.single, hg.arr, read?, readAll?_toValues hg reading parts h]
    rfl

theorem readAll?_toValues (hg : Value.Arranges g) (reading : Reading) : ∀ fs : List Filter,
    (∀ l ∈ leavesAll fs, l.Fits g) → readAll? reading ((toValues fs).map g) = some fs
  | [], _ => rfl
  | f :: fs, h => by
    rw [leavesAll, List.forall_mem_append] at h
    rw [toValues, List.map_cons, readAll?, read?_toValue hg reading f h.1,
      readAll?_toValues hg reading fs h.2]
    rfl
end

end Filter

/-! ## Sort orders and projections -/

theorem Direction.lookup_name (d : Direction) : words.lookup d.name = some d := by
  cases d <;> decide

theorem SortField.read?_toValue (hg : Value.Arranges g) (reading : Reading) (f : SortField) :
    read? reading (g f.toValue) = some f := by
  rw [toValue, read?, hg.slots? (by simp)]
  simp [Value.arrangedSlot, Document.get?, hg.str, Slot.required, string?, word?,
    Direction.lookup_name]

theorem SortOrder.read?_toValue (hg : Value.Arranges g) (reading : Reading) (s : SortOrder) :
    read? reading (g s.toValue) = some s := by
  rw [toValue, read?, hg.list? fun f _ => f.read?_toValue hg reading]
  rfl

theorem Projection.read?_toValue (hg : Value.Arranges g) (p : Projection) :
    read? (g p.toValue) = some p := by
  rw [toValue, read?, hg.strings]
  rfl

/-! ## Pipelines -/

namespace Accumulator

/-- An operation over a field is read back by its name. -/
theorem read?_over (hg : Value.Arranges g) {name : String} {make : String → Accumulator}
    (hword : words.lookup name = some (some make)) (field : String) :
    read? (g (.obj [("op", .str name), ("field", .str field)])) = some (make field) := by
  rw [read?, hg.tagged? (by simp) rfl hword]
  simp [Value.arrangedSlot, Document.get?, hg.str, Slot.required, string?]

theorem read?_toValue (hg : Value.Arranges g) (a : Accumulator) : read? (g a.toValue) = some a := by
  cases a with
  | count =>
    have hcount : read? (g (.obj [("op", .str "count")])) = some .count := by
      have hword : words.lookup "count" = some none := rfl
      rw [read?, hg.tagged? (by simp) rfl hword]
      rfl
    exact hcount
  | sum field => exact read?_over hg rfl field
  | avg field => exact read?_over hg rfl field
  | min field => exact read?_over hg rfl field
  | max field => exact read?_over hg rfl field
  | first field => exact read?_over hg rfl field

end Accumulator

namespace Stage

mutual
/-- The leaves of a stage. -/
def leaves : Stage → List Leaf
  | .filter f => f.leaves
  | .skip n => [.count n]
  | .limit n => [.count n]
  | .facet branches => leavesOfBranches branches
  | _ => []

/-- The leaves of several stages. -/
def leavesAll : List Stage → List Leaf
  | [] => []
  | s :: rest => s.leaves ++ leavesAll rest

/-- The leaves of named pipelines. -/
def leavesOfBranches : List (String × List Stage) → List Leaf
  | [] => []
  | (_, stages) :: rest => leavesAll stages ++ leavesOfBranches rest
end

/-- A stage that is not a facet is read by its name. -/
theorem read?_single {name : String} (hname : name ≠ "facet") (body : Value) :
    read? (.obj [(name, body)]) = readPlain? name body := by
  rw [read?]
  exact fun _ hfacet _ => hname hfacet

theorem read?_group (hg : Value.Arranges g) (field : Option String)
    (accumulators : List (String × Accumulator)) :
    read? (g (group field accumulators).toValue) = some (.group field accumulators) := by
  have hfield : (Slot.given (g (.ofOption .str field))).optional string? = some field :=
    hg.optional rfl fun name _ => by rw [hg.str]; rfl
  have hlist : Wire.list? (pair? string? Accumulator.read?)
      (g (.arr (accumulators.map namedAccumulator))) = some accumulators := by
    refine hg.list? fun a _ => ?_
    rw [namedAccumulator, hg.arr, List.map_cons, List.map_singleton, hg.str, pair?,
      a.2.read?_toValue hg]
    rfl
  rw [toValue, hg.single, read?_single (by decide)]
  simp [readPlain?, hg.contentSlots?, Value.arrangedSlot, Document.get?, hfield, hlist,
    Slot.required]

mutual
/-- A stage is read back from its written form. -/
theorem read?_toValue (hg : Value.Arranges g) : ∀ s : Stage, (∀ l ∈ s.leaves, l.Fits g) →
    read? (g s.toValue) = some s
  | .filter f, h => by
    rw [toValue, hg.single, read?_single (by decide), readPlain?, if_pos rfl,
      f.read?_toValue hg .strict h]
    rfl
  | .sort s, _ => by
    rw [toValue, hg.single, read?_single (by decide)]
    simp [readPlain?, s.read?_toValue hg]
  | .skip n, h => by
    rw [toValue, hg.single, read?_single (by decide)]
    simp [readPlain?, hg.nat64? (h _ List.mem_cons_self)]
  | .limit n, h => by
    rw [toValue, hg.single, read?_single (by decide)]
    simp [readPlain?, hg.nat64? (h _ List.mem_cons_self)]
  | .project p, _ => by
    rw [toValue, hg.single, read?_single (by decide)]
    simp [readPlain?, p.read?_toValue hg]
  | .group field accumulators, _ => read?_group hg field accumulators
  | .count name, _ => by
    rw [toValue, hg.single, read?_single (by decide), hg.str]
    simp [readPlain?, string?]
  | .facet branches, h => by
    rw [toValue, hg.single, hg.arr, read?, readBranches?_branchValues hg branches h]
    rfl

theorem readAll?_toValues (hg : Value.Arranges g) : ∀ stages : List Stage,
    (∀ l ∈ leavesAll stages, l.Fits g) → readAll? ((toValues stages).map g) = some stages
  | [], _ => rfl
  | s :: rest, h => by
    rw [leavesAll, List.forall_mem_append] at h
    rw [toValues, List.map_cons, readAll?, read?_toValue hg s h.1, readAll?_toValues hg rest h.2]
    rfl

theorem readBranches?_branchValues (hg : Value.Arranges g) :
    ∀ branches : List (String × List Stage), (∀ l ∈ leavesOfBranches branches, l.Fits g) →
      readBranches? ((branchValues branches).map g) = some branches
  | [], _ => rfl
  | (name, stages) :: rest, h => by
    rw [leavesOfBranches, List.forall_mem_append] at h
    rw [branchValues, List.map_cons, hg.arr, List.map_cons, List.map_singleton, hg.str, hg.arr,
      readBranches?, readAll?_toValues hg stages h.1, readBranches?_branchValues hg rest h.2]
    rfl
end

end Stage

/-! ## List modes -/

/-- The leaves of a count that may be missing. -/
def Wire.countLeaves (n : Option Nat) : List Leaf := (n.map Leaf.count).toList

theorem Value.Arranges.optional_nat64? (hg : Value.Arranges g) {n : Option Nat}
    (h : ∀ l ∈ countLeaves n, l.Fits g) :
    (Slot.given (g (.ofOption .nat n))).optional Wire.nat64? = some n := by
  refine hg.optional rfl fun m hm => hg.nat64? (h _ ?_)
  rw [hm]
  exact List.mem_cons_self

namespace OffsetRequest

def leaves (r : OffsetRequest) : List Leaf :=
  r.filter.leaves ++ (countLeaves r.page ++ countLeaves r.limit)

theorem nodup_names (r : OffsetRequest) (method : String) :
    ((("method", .str method) :: r.toFields).map Prod.fst).Nodup := by
  simp [toFields]

/-- A request is read back from its fields and a tag before them. -/
theorem read?_toFields (hg : Value.Arranges g) (reading : Reading) (r : OffsetRequest)
    (method : String) (h : ∀ l ∈ r.leaves, l.Fits g) :
    read? reading (g (.obj (("method", .str method) :: r.toFields))) = some r := by
  rw [leaves, List.forall_mem_append, List.forall_mem_append] at h
  obtain ⟨hfilter, hpage, hlimit⟩ := h
  have hsort : (Slot.given (g (.ofOption SortOrder.toValue r.sort))).optional
      (SortOrder.read? reading) = some r.sort :=
    hg.optional rfl fun s _ => s.read?_toValue hg reading
  have hprojection : (Slot.given (g (.ofOption Projection.toValue r.projection))).optional
      Projection.read? = some r.projection :=
    hg.optional rfl fun p _ => p.read?_toValue hg
  rw [read?, hg.slots? (r.nodup_names method)]
  simp [Value.arrangedSlot, Document.get?, toFields, Slot.required,
    r.filter.read?_toValue hg reading hfilter, hsort, hg.optional_nat64? hpage,
    hg.optional_nat64? hlimit, hprojection, hg.strings, hg.bool, bool?]

end OffsetRequest

namespace KeysetRequest

def leaves (r : KeysetRequest) : List Leaf := r.filter.leaves ++ countLeaves r.limit

theorem nodup_names (r : KeysetRequest) (method : String) :
    ((("method", .str method) :: r.toFields).map Prod.fst).Nodup := by
  simp [toFields]

/-- A request is read back from its fields and a tag before them. -/
theorem read?_toFields (hg : Value.Arranges g) (reading : Reading) (r : KeysetRequest)
    (method : String) (h : ∀ l ∈ r.leaves, l.Fits g) :
    read? reading (g (.obj (("method", .str method) :: r.toFields))) = some r := by
  rw [leaves, List.forall_mem_append] at h
  obtain ⟨hfilter, hlimit⟩ := h
  have hsort : (Slot.given (g (.ofOption SortOrder.toValue r.sort))).optional
      (SortOrder.read? reading) = some r.sort :=
    hg.optional rfl fun s _ => s.read?_toValue hg reading
  have hafter : (Slot.given (g (.ofOption .str r.after))).optional string? = some r.after :=
    hg.optional rfl fun token _ => by rw [hg.str]; rfl
  have hprojection : (Slot.given (g (.ofOption Projection.toValue r.projection))).optional
      Projection.read? = some r.projection :=
    hg.optional rfl fun p _ => p.read?_toValue hg
  rw [read?, hg.slots? (r.nodup_names method)]
  simp [Value.arrangedSlot, Document.get?, toFields, Slot.required,
    r.filter.read?_toValue hg reading hfilter, hsort, hafter, hg.optional_nat64? hlimit,
    hprojection, hg.strings]

end KeysetRequest

namespace ListMode

def leaves : ListMode → List Leaf
  | .offset r => r.leaves
  | .keyset r => r.leaves

theorem read?_toValue (hg : Value.Arranges g) (m : ListMode) (h : ∀ l ∈ m.leaves, l.Fits g) :
    read? (g m.toValue) = some m := by
  cases m with
  | offset r =>
    rw [toValue, read?, hg.splitTag? (r.nodup_names "offset") rfl]
    simp [r.read?_toFields hg .loose "offset" h]
  | keyset r =>
    rw [toValue, read?, hg.splitTag? (r.nodup_names "keyset") rfl]
    simp [r.read?_toFields hg .loose "keyset" h]

end ListMode

/-! ## List results -/

namespace OffsetPage

def leaves (p : OffsetPage) : List Leaf :=
  documentLeaves p.docs ++ [.count p.page, .count p.limit, .count p.total, .count p.pages]

theorem read?_toFields (hg : Value.Arranges g) (p : OffsetPage) (method : String)
    (hnames : ((ListResult.methodField method :: p.toFields).map Prod.fst).Nodup)
    (h : ∀ l ∈ p.leaves, l.Fits g) :
    read? (g (.obj (ListResult.methodField method :: p.toFields))) = some p := by
  simp only [leaves, List.forall_mem_append, List.forall_mem_cons] at h
  obtain ⟨hdocs, hpage, hlimit, htotal, hpages, -⟩ := h
  have hwarning : (Value.arrangedSlot g (ListResult.methodField method :: p.toFields)
      "warning").optionalOrMissing string? = some p.warning := by
    cases hw : p.warning <;>
      simp [Value.arrangedSlot, ListResult.methodField, toFields, Document.get?, hw, present,
        Slot.optionalOrMissing, hg.str, string?]
  rw [read?, hg.slots? hnames, Option.bind_some]
  simp only [fieldNames, List.map_cons, List.map_nil, ofSlots?, hwarning]
  simp [Value.arrangedSlot, Document.get?, ListResult.methodField, toFields, Slot.required,
    hg.documents hdocs, hg.nat64? hpage, hg.nat64? hlimit, hg.nat64? htotal, hg.nat64? hpages,
    hg.bool, bool?]

end OffsetPage

namespace KeysetPage

def leaves (p : KeysetPage) : List Leaf := documentLeaves p.docs ++ [.count p.limit]

theorem read?_toFields (hg : Value.Arranges g) (p : KeysetPage) (method : String)
    (hnames : ((ListResult.methodField method :: p.toFields).map Prod.fst).Nodup)
    (h : ∀ l ∈ p.leaves, l.Fits g) :
    read? (g (.obj (ListResult.methodField method :: p.toFields))) = some p := by
  simp only [leaves, List.forall_mem_append, List.forall_mem_singleton] at h
  obtain ⟨hdocs, hlimit⟩ := h
  have hnext : (Slot.given (g (.ofOption .str p.next))).optional string? = some p.next :=
    hg.optional rfl fun token _ => by rw [hg.str]; rfl
  rw [read?, hg.slots? hnames, Option.bind_some]
  simp [fieldNames, ofSlots?, Value.arrangedSlot, Document.get?, ListResult.methodField, toFields,
    Slot.required, hg.documents hdocs, hg.nat64? hlimit, hnext, hg.bool, bool?]

end KeysetPage

namespace ListResult

def leaves : ListResult → List Leaf
  | .offset p => p.leaves
  | .keyset p => p.leaves
  | .aggregate p => p.leaves

theorem read?_toValue (hg : Value.Arranges g) (r : ListResult) (h : ∀ l ∈ r.leaves, l.Fits g) :
    read? (g r.toValue) = some r := by
  have hnames := r.nodup_names
  have hmethod : splitTag? "method" (g (.obj (methodField r.method :: r.pageFields))) =
      some (r.method, g (.obj (methodField r.method :: r.pageFields))) :=
    hg.splitTag? hnames rfl
  rw [toValue_eq_obj, read?, hmethod]
  cases r with
  | offset p => simp [method, pageFields, p.read?_toFields hg "offset" hnames h]
  | keyset p => simp [method, pageFields, p.read?_toFields hg "keyset" hnames h]
  | aggregate p => simp [method, pageFields, p.read?_toFields hg "aggregate" hnames h]

end ListResult

/-! ## Served results -/

namespace HookResult

def leaves : HookResult → List Leaf
  | .document d => [.value (.obj d)]
  | .list r => r.leaves

theorem read?_toValue (hg : Value.Arranges g) (r : HookResult) (h : ∀ l ∈ r.leaves, l.Fits g) :
    read? (g r.toValue) = some r := by
  cases r with
  | document d =>
    have hsame : g (.obj d) = .obj d := h _ List.mem_cons_self
    have hword : words.lookup "document" =
        some fun v => (Value.document? v).map .document := rfl
    rw [toValue, read?, hg.tagged? (by simp) rfl hword]
    simp [Value.arrangedSlot, Document.get?, Slot.required, hsame, Value.document?]
  | list r =>
    have hword : words.lookup "list" = some fun v => (ListResult.read? v).map .list := rfl
    rw [toValue, read?, hg.tagged? (by simp) rfl hword]
    simp [Value.arrangedSlot, Document.get?, Slot.required, r.read?_toValue hg h]

end HookResult

/-! ## Reading back -/

namespace Wire

/-- A schemaless value lists its fields by name, a count has 64 bits. -/
def Leaf.Plain : Leaf → Prop
  | value v => v.Ordered
  | count n => n < twoPow 64

instance : (l : Leaf) → Decidable l.Plain
  | .value v => inferInstanceAs (Decidable v.Ordered)
  | .count n => inferInstanceAs (Decidable (n < twoPow 64))

theorem Leaf.Plain.fits_id {l : Leaf} (h : l.Plain) : l.Fits id := by
  cases l with
  | value v => rfl
  | count n => exact h

theorem Leaf.Plain.fits_normalize {l : Leaf} (h : l.Plain) : l.Fits Value.normalize := by
  cases l with
  | value v => exact Value.Ordered.normalize_eq h
  | count n => exact h

/-- What was written is read again, both from the written form and from the value of it that lists
all fields by name. -/
def ReadsBack {α : Type} [Written α] (x : α) : Prop :=
  Written.read? (Written.toValue x) = some x ∧
    Written.read? (Written.toValue x).normalize = some x

theorem readsBack_of_leaves {α : Type} [Written α] {x : α} {leaves : List Leaf}
    (h : ∀ g, Value.Arranges g → (∀ l ∈ leaves, l.Fits g) →
      Written.read? (g (Written.toValue x)) = some x)
    (hplain : ∀ l ∈ leaves, l.Plain) : ReadsBack x :=
  ⟨h id Value.arranges_id fun l hl => (hplain l hl).fits_id,
    h Value.normalize Value.arranges_normalize fun l hl => (hplain l hl).fits_normalize⟩

theorem read?_stages {g : Value → Value} (hg : Value.Arranges g) (stages : List Stage)
    (h : ∀ l ∈ Stage.leavesAll stages, l.Fits g) :
    Written.read? (g (Written.toValue stages)) = some stages := by
  have hstage : ∀ s ∈ stages, Stage.read? (g s.toValue) = some s := by
    refine fun s hs => s.read?_toValue hg fun l hl => h l ?_
    induction stages with
    | nil => cases hs
    | cons first rest ih =>
      rw [Stage.leavesAll, List.forall_mem_append] at h
      rw [Stage.leavesAll, List.mem_append]
      rcases List.mem_cons.mp hs with rfl | hs
      · exact Or.inl hl
      · exact Or.inr (ih h.2 hs)
  exact hg.list? hstage

/-- Every filter, every list of stages, every list mode, every list result and every served result
is read back from what it is written as, however deep filters and facets are nested and whichever
optional parts are missing. -/
theorem readsBack_of_plain :
    (∀ f : Filter, (∀ l ∈ f.leaves, l.Plain) → ReadsBack f) ∧
    (∀ stages : List Stage, (∀ l ∈ Stage.leavesAll stages, l.Plain) → ReadsBack stages) ∧
    (∀ m : ListMode, (∀ l ∈ m.leaves, l.Plain) → ReadsBack m) ∧
    (∀ r : ListResult, (∀ l ∈ r.leaves, l.Plain) → ReadsBack r) ∧
    ∀ r : HookResult, (∀ l ∈ r.leaves, l.Plain) → ReadsBack r :=
  ⟨fun f => readsBack_of_leaves fun _ hg => f.read?_toValue hg .strict,
    fun stages => readsBack_of_leaves fun _ hg => read?_stages hg stages,
    fun m => readsBack_of_leaves fun _ hg => m.read?_toValue hg,
    fun r => readsBack_of_leaves fun _ hg => r.read?_toValue hg,
    fun r => readsBack_of_leaves fun _ hg => r.read?_toValue hg⟩

/-- Two pipelines inside a facet, one of them with a facet of its own. -/
def nestedStages : List Stage :=
  [.filter (.and [.test .gt "age" (.int 3), .or [.all, .oneOf "tag" [.obj [("a", .null)]]]]),
    .facet [("docs", [.skip 2, .limit 3, .group none [("n", .count), ("top", .max "age")]]),
      ("rest", [.facet [("total", [.count "count"])]])]]

theorem readsBack_of_plain_nestedStages :
    (∀ l ∈ Stage.leavesAll nestedStages, l.Plain) ∧ ReadsBack nestedStages := by
  have hplain : ∀ l ∈ Stage.leavesAll nestedStages, l.Plain := by decide +kernel
  exact ⟨hplain, readsBack_of_plain.2.1 nestedStages hplain⟩

end Wire

end Quire
