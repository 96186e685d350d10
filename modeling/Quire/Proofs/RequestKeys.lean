import Mathlib.Logic.Relation
import Quire.Proofs.ClearedCollections
import Quire.Proofs.CopiedFields
import Quire.Proofs.WrittenForms

/-!
# Keys of requests

The key of a read identifies the request, as long as no two texts have the same short name: values
with whole numbers are determined by their texts, and filters, options and list modes by their
written forms. The order in which a value lists its fields does not matter.
-/
namespace Quire

/-! ## Normal forms -/

namespace Value

theorem every_ofFields {p : Value → Bool} (hp : KeptBySet p) {fields : List (String × Value)}
    (h : ∀ f ∈ fields, f.2.every p = true) :
    (Value.obj (Document.ofFields fields)).every p = true := by
  have hfold : ∀ (fs : List (String × Value)) (d : Document), (∀ f ∈ fs, f.2.every p = true) →
      (Value.obj d).every p = true →
      (Value.obj (fs.foldl (fun d f => Document.set f.1 f.2 d) d)).every p = true := by
    intro fs
    induction fs with
    | nil => exact fun d _ hd => hd
    | cons f fs ih =>
      intro d hfs hd
      rw [List.forall_mem_cons] at hfs
      exact ih _ hfs.2 (every_set hp hd f.1 hfs.1)
  exact hfold fields [] h (every_obj_nil hp)

/-- A normal form is ordered. -/
theorem ordered_normalize (v : Value) : v.normalize.Ordered := by
  induction v using byParts with
  | arr items ih =>
    rw [normalize, normalizeItems_eq_map]
    refine (every_arr _ _).mpr ⟨rfl, fun w hw => ?_⟩
    obtain ⟨v, hv, rfl⟩ := List.mem_map.mp hw
    exact ih v hv
  | obj fields ih =>
    rw [normalize, normalizeFields_eq_map]
    refine every_ofFields keptBySet_hasOrder fun f hf => ?_
    obtain ⟨g, hg, rfl⟩ := List.mem_map.mp hf
    exact ih g hg
  | _ => rfl

theorem Whole.normalize {v : Value} (h : v.Whole) : v.normalize.Whole := by
  induction v using byParts with
  | arr items ih =>
    rw [Value.normalize, normalizeItems_eq_map]
    refine (every_arr _ _).mpr ⟨rfl, fun w hw => ?_⟩
    obtain ⟨v, hv, rfl⟩ := List.mem_map.mp hw
    exact ih v hv (((every_arr _ _).mp h).2 v hv)
  | obj fields ih =>
    rw [Value.normalize, normalizeFields_eq_map]
    refine every_ofFields keptBySet_isWhole64 fun f hf => ?_
    obtain ⟨g, hg, rfl⟩ := List.mem_map.mp hf
    exact ih g hg (((every_obj _ _).mp h).2 g hg)
  | _ => exact h

/-- Values with whole numbers are determined by their texts. -/
theorem Whole.text_inj {v w : Value} (hv : v.Whole) (hw : w.Whole) (h : v.text = w.text) :
    v = w := by
  have hraw : v.raw = w.raw := by
    have hread := read?_chars v
    rw [String.ofList_injective h, read?_chars] at hread
    exact (Option.some.inj hread).symm
  have hsame := value?_raw hv (max v.depth w.depth)
  rw [hraw, value?_raw hw, if_pos (Nat.le_max_left _ _), if_pos (Nat.le_max_right _ _)] at hsame
  exact (Option.some.inj hsame).symm

/-! ## Orders of fields -/

/-- The fields of one object, anywhere in a value, are put in another order. -/
inductive Reorders : Value → Value → Prop
  | here {fields others : List (String × Value)} : (fields.map Prod.fst).Nodup →
      fields.Perm others → Reorders (.obj fields) (.obj others)
  | item (before after : List Value) {v w : Value} : Reorders v w →
      Reorders (.arr (before ++ v :: after)) (.arr (before ++ w :: after))
  | field (before after : List (String × Value)) (name : String) {v w : Value} : Reorders v w →
      Reorders (.obj (before ++ (name, v) :: after)) (.obj (before ++ (name, w) :: after))

theorem normalize_obj_perm {fields others : List (String × Value)}
    (hnames : (fields.map Prod.fst).Nodup) (hperm : fields.Perm others) :
    (Value.obj fields).normalize = (Value.obj others).normalize := by
  obtain ⟨d, hd, hget⟩ := arranges_normalize.obj fields hnames
  obtain ⟨e, he, hget'⟩ := arranges_normalize.obj others ((hperm.map Prod.fst).nodup hnames)
  have hsame : ∀ name, Document.get? name fields = Document.get? name others := by
    intro name
    cases hother : Document.get? name others with
    | some v =>
      have hmem := hperm.mem_iff.mpr (Document.mem_of_get? hother)
      exact Document.get?_of_mem_of_nodup hnames hmem
    | none =>
      rw [Document.get?_eq_none_iff] at hother ⊢
      exact fun hmem => hother ((hperm.map Prod.fst).subset hmem)
  have hordered := ordered_normalize (.obj fields)
  have hordered' := ordered_normalize (.obj others)
  rw [hd] at hordered ⊢
  rw [he] at hordered' ⊢
  rw [Document.ext_get? hordered hordered' fun name => by rw [hget, hget', hsame]]

theorem Reorders.normalize_eq {v w : Value} (h : Reorders v w) : v.normalize = w.normalize := by
  induction h with
  | here hnames hperm => exact normalize_obj_perm hnames hperm
  | item before after _ ih =>
    simp only [normalize, normalizeItems_eq_map, List.map_append, List.map_cons, ih]
  | field before after name _ ih =>
    simp only [normalize, normalizeFields_eq_map, List.map_append, List.map_cons, ih]

end Value

/-! ## Short names -/

namespace Sha256

theorem digitChar_inj_of_lt : ∀ n < 16, ∀ m < 16, Nat.digitChar n = Nat.digitChar m → n = m := by
  decide

/-- Bytes are determined by their hexadecimal digits. -/
theorem hex_injective : Function.Injective hex := by
  intro xs
  induction xs with
  | nil =>
    intro ys h
    cases ys with
    | nil => rfl
    | cons y ys => exact absurd h (List.cons_ne_nil _ _).symm
  | cons x xs ih =>
    intro ys h
    cases ys with
    | nil => exact absurd h (List.cons_ne_nil _ _)
    | cons y ys =>
      simp only [hex, List.flatMap_cons, List.cons_append, List.nil_append, List.cons.injEq] at h
      obtain ⟨hhigh, hlow, hrest⟩ := h
      have hx := x.toNat_lt
      have hy := y.toNat_lt
      have hdiv := digitChar_inj_of_lt _ (by omega) _ (by omega) hhigh
      have hmod := digitChar_inj_of_lt _ (by omega) _ (by omega) hlow
      have hbyte : x = y := UInt8.toNat.inj (by omega)
      rw [hbyte, ih hrest]

end Sha256

namespace Value

/-- The text that is hashed for the short name of a value. -/
def canonicalText (v : Value) : String := v.normalize.text

/-- Two values have different canonical texts but the same first half of the digest. -/
def Collide (v w : Value) : Prop :=
  v.canonicalText ≠ w.canonicalText ∧
    (Sha256.digest (Text.utf8 v.canonicalText.toList)).take 16 =
      (Sha256.digest (Text.utf8 w.canonicalText.toList)).take 16

theorem fingerprint_eq_iff {v w : Value} :
    fingerprint v = fingerprint w ↔ v.canonicalText = w.canonicalText ∨ Collide v w := by
  have hchars : ∀ u : Value, u.canonicalText.toList = u.normalize.chars := fun u =>
    String.toList_ofList
  have hdigest : fingerprint v = fingerprint w ↔
      (Sha256.digest (Text.utf8 v.canonicalText.toList)).take 16 =
        (Sha256.digest (Text.utf8 w.canonicalText.toList)).take 16 := by
    rw [hchars, hchars, fingerprint, fingerprint, String.ofList_inj,
      Sha256.hex_injective.eq_iff]
  rw [hdigest]
  constructor
  · intro h
    by_cases htext : v.canonicalText = w.canonicalText
    · exact Or.inl htext
    · exact Or.inr ⟨htext, h⟩
  · rintro (htext | ⟨-, h⟩)
    · rw [htext]
    · exact h

end Value

/-! ## Written requests -/

namespace Wire

/-- A schemaless value is ordered and has only whole numbers, a count has 64 bits. -/
def Leaf.Integral : Leaf → Prop
  | value v => v.Ordered ∧ v.Whole
  | count n => n < twoPow 64

instance : (l : Leaf) → Decidable l.Integral
  | .value v => inferInstanceAs (Decidable (v.Ordered ∧ v.Whole))
  | .count n => inferInstanceAs (Decidable (n < twoPow 64))

theorem Leaf.Integral.fits {l : Leaf} (h : l.Integral) : l.Fits Value.normalize := by
  cases l with
  | value v => exact h.1.normalize_eq
  | count n => exact h

end Wire

open Wire

namespace Value

theorem whole_arr {items : List Value} : (arr items).Whole ↔ ∀ v ∈ items, v.Whole :=
  (every_arr _ _).trans (and_iff_right rfl)

theorem whole_obj_nil : (obj []).Whole := rfl

theorem whole_obj_cons {name : String} {v : Value} {fields : List (String × Value)} :
    (obj ((name, v) :: fields)).Whole ↔ v.Whole ∧ (obj fields).Whole := by
  simp only [Whole, every, everyField, isWhole64, Bool.true_and, Bool.and_eq_true]

theorem whole_nat {n : Nat} (h : n < twoPow 64) : (nat n).Whole := by
  simp only [Whole, nat, every, isWhole64, Bool.and_eq_true, decide_eq_true_eq]
  omega

theorem whole_strings (texts : List String) : (arr (texts.map .str)).Whole := by
  rw [whole_arr, List.forall_mem_map]
  exact fun _ _ => rfl

theorem whole_ofOption {α : Type} {write : α → Value} {o : Option α}
    (h : ∀ a, o = some a → (write a).Whole) : (ofOption write o).Whole := by
  cases o with
  | none => rfl
  | some a => exact h a rfl

end Value

namespace Filter

mutual
/-- The written form of a filter over whole numbers has only whole numbers. -/
theorem whole_toValue : ∀ f : Filter, (∀ l ∈ f.leaves, l.Integral) → f.toValue.Whole
  | .all, _ => rfl
  | .test r field v, h => by
    have hv : v.Whole := (h _ List.mem_cons_self).2
    simp only [toValue, Value.whole_obj_cons, Value.whole_obj_nil, and_true]
    exact ⟨rfl, hv⟩
  | .oneOf field vs, h => by
    have hvs : ∀ v ∈ vs, v.Whole := fun v hv => (h _ (List.mem_map_of_mem hv)).2
    simp only [toValue, Value.whole_obj_cons, Value.whole_obj_nil, and_true]
    exact ⟨rfl, Value.whole_arr.mpr hvs⟩
  | .presence field present, _ => rfl
  | .and parts, h => by
    simp only [toValue, Value.whole_obj_cons, Value.whole_obj_nil, and_true, Value.whole_arr]
    exact whole_toValues parts h
  | .or parts, h => by
    simp only [toValue, Value.whole_obj_cons, Value.whole_obj_nil, and_true, Value.whole_arr]
    exact whole_toValues parts h

theorem whole_toValues : ∀ fs : List Filter, (∀ l ∈ leavesAll fs, l.Integral) →
    ∀ v ∈ toValues fs, v.Whole
  | [], _ => fun v hv => absurd hv List.not_mem_nil
  | f :: fs, h => by
    rw [leavesAll, List.forall_mem_append] at h
    rw [toValues, List.forall_mem_cons]
    exact ⟨whole_toValue f h.1, whole_toValues fs h.2⟩
end

end Filter

theorem SortOrder.whole_toValue (s : SortOrder) : s.toValue.Whole := by
  rw [toValue, Value.whole_arr, List.forall_mem_map]
  exact fun _ _ => rfl

theorem Wire.whole_count {n : Option Nat} (h : ∀ l ∈ countLeaves n, l.Integral) :
    (Value.ofOption .nat n).Whole := by
  refine Value.whole_ofOption fun m hm => Value.whole_nat (h (.count m) ?_)
  rw [hm]
  exact List.mem_cons_self

/-- The written form of a list mode over whole numbers has only whole numbers. -/
theorem ListMode.whole_toValue (m : ListMode) (h : ∀ l ∈ m.leaves, l.Integral) :
    m.toValue.Whole := by
  cases m with
  | offset r =>
    simp only [leaves, OffsetRequest.leaves, List.forall_mem_append] at h
    obtain ⟨hfilter, hpage, hlimit⟩ := h
    simp only [toValue, OffsetRequest.toFields, Value.whole_obj_cons, Value.whole_obj_nil, and_true]
    exact ⟨rfl, r.filter.whole_toValue hfilter,
      Value.whole_ofOption fun s _ => s.whole_toValue, whole_count hpage, whole_count hlimit,
      Value.whole_ofOption fun p _ => Value.whole_strings p.fields, Value.whole_strings r.populate,
      rfl⟩
  | keyset r =>
    simp only [leaves, KeysetRequest.leaves, List.forall_mem_append] at h
    obtain ⟨hfilter, hlimit⟩ := h
    simp only [toValue, KeysetRequest.toFields, Value.whole_obj_cons, Value.whole_obj_nil, and_true]
    exact ⟨rfl, r.filter.whole_toValue hfilter,
      Value.whole_ofOption fun s _ => s.whole_toValue, Value.whole_ofOption fun _ _ => rfl,
      whole_count hlimit, Value.whole_ofOption fun p _ => Value.whole_strings p.fields,
      Value.whole_strings r.populate⟩

/-- A list mode over whole numbers is determined by its canonical text. -/
theorem ListMode.eq_of_canonicalText {m m' : ListMode} (h : ∀ l ∈ m.leaves, l.Integral)
    (h' : ∀ l ∈ m'.leaves, l.Integral)
    (htext : m.toValue.canonicalText = m'.toValue.canonicalText) : m = m' := by
  have hnormal := Value.Whole.text_inj (m.whole_toValue h).normalize
    (m'.whole_toValue h').normalize htext
  have hread := m.read?_toValue Value.arranges_normalize fun l hl => (h l hl).fits
  rw [hnormal, m'.read?_toValue Value.arranges_normalize fun l hl => (h' l hl).fits] at hread
  exact (Option.some.inj hread).symm

namespace CacheKeys

theorem whole_queryValue {f : Filter} (h : ∀ l ∈ f.leaves, l.Integral) (o : ReadOptions) :
    (queryValue f o).Whole := by
  simp only [queryValue, Value.whole_obj_cons, Value.whole_obj_nil, and_true]
  exact ⟨f.whole_toValue h, Value.whole_ofOption fun p _ => Value.whole_strings p.fields,
    Value.whole_strings o.populate⟩

/-- The parts of a query by which its answers are kept. -/
def readQuery? (v : Value) : Option (Filter × Option Projection × List String) := do
  match ← slots? ["filter", "projection", "populate"] v with
  | [filter, projection, populate] =>
    some (← filter.required (Filter.read? .strict), ← projection.optional Projection.read?,
      ← populate.required (list? string?))
  | _ => none

theorem readQuery?_queryValue {g : Value → Value} (hg : Value.Arranges g) {f : Filter}
    (h : ∀ l ∈ f.leaves, l.Fits g) (o : ReadOptions) :
    readQuery? (g (queryValue f o)) = some (f, o.projection, o.populate) := by
  have hprojection : (Slot.given (g (.ofOption Projection.toValue o.projection))).optional
      Projection.read? = some o.projection :=
    hg.optional rfl fun p _ => p.read?_toValue hg
  rw [readQuery?, queryValue, hg.slots? (by simp)]
  simp [Value.arrangedSlot, Document.get?, Slot.required, f.read?_toValue hg .strict h,
    hprojection, hg.strings]

/-- A query over whole numbers is determined by its canonical text. -/
theorem eq_of_canonicalText {f f' : Filter} {o o' : ReadOptions}
    (h : ∀ l ∈ f.leaves, l.Integral) (h' : ∀ l ∈ f'.leaves, l.Integral)
    (htext : (queryValue f o).canonicalText = (queryValue f' o').canonicalText) :
    f = f' ∧ o.projection = o'.projection ∧ o.populate = o'.populate := by
  have hnormal := Value.Whole.text_inj (whole_queryValue h o).normalize
    (whole_queryValue h' o').normalize htext
  have hread := readQuery?_queryValue Value.arranges_normalize (fun l hl => (h l hl).fits) o
  rw [hnormal, readQuery?_queryValue Value.arranges_normalize
    (fun l hl => (h' l hl).fits) o'] at hread
  simp only [Option.some.injEq, Prod.mk.injEq] at hread
  exact ⟨hread.1.symm, hread.2.1.symm, hread.2.2.symm⟩

/-! ## Keys -/

variable (k : CacheKeys)

theorem byQuery_eq_iff {f f' : Filter} (h : ∀ l ∈ f.leaves, l.Integral)
    (h' : ∀ l ∈ f'.leaves, l.Integral) (o o' : ReadOptions) :
    k.byQuery f o = k.byQuery f' o' ↔
      (f = f' ∧ o.projection = o'.projection ∧ o.populate = o'.populate) ∨
        Value.Collide (queryValue f o) (queryValue f' o') := by
  rw [byQuery_eq, byQuery_eq, String.append_right_inj, String.append_right_inj,
    Value.fingerprint_eq_iff]
  refine or_congr_left ⟨eq_of_canonicalText h h', ?_⟩
  rintro ⟨rfl, hprojection, hpopulate⟩
  rw [queryValue, queryValue, hprojection, hpopulate]

theorem list_eq_iff {m m' : ListMode} (h : ∀ l ∈ m.leaves, l.Integral)
    (h' : ∀ l ∈ m'.leaves, l.Integral) (version version' : Nat) :
    k.list version m = k.list version' m' ↔
      version = version' ∧ (m = m' ∨ Value.Collide m.toValue m'.toValue) := by
  have hmodes : fingerprint m.toValue = fingerprint m'.toValue ↔
      m = m' ∨ Value.Collide m.toValue m'.toValue := by
    rw [Value.fingerprint_eq_iff]
    exact or_congr_left ⟨ListMode.eq_of_canonicalText h h', fun heq => by rw [heq]⟩
  rw [← hmodes]
  refine ⟨k.eq_of_list, ?_⟩
  rintro ⟨rfl, hfingerprint⟩
  rw [list, list, hfingerprint]

/-- The kinds of keys. -/
inductive Kind where
  | byId
  | byQuery
  | list
  | version
deriving DecidableEq

/-- The kind of the key of a subject. -/
def kind : CacheSubject → Kind
  | .byId _ => .byId
  | .byQuery _ _ => .byQuery
  | .list _ _ => .list
  | .version => .version

theorem kind_eq_of_key {x y : CacheSubject} (h : k.key x = k.key y) : kind x = kind y := by
  cases x <;> cases y <;> try rfl
  · exact absurd h.symm (k.byQuery_ne_byId _ _ _)
  · exact absurd h (k.byId_ne_list _ _ _)
  · exact absurd h.symm (k.version_ne_byId _)
  · exact absurd h (k.byQuery_ne_byId _ _ _)
  · exact absurd h (k.byQuery_ne_list _ _ _ _)
  · exact absurd h.symm (k.version_ne_key (by simp))
  · exact absurd h.symm (k.byId_ne_list _ _ _)
  · exact absurd h.symm (k.byQuery_ne_list _ _ _ _)
  · exact absurd h.symm (k.version_ne_list _ _)
  · exact absurd h (k.version_ne_byId _)
  · exact absurd h (k.version_ne_key (by simp))
  · exact absurd h (k.version_ne_list _ _)

/-- The keys of a collection identify what they are for. Unless two canonical texts share half a
digest, equal keys of queries come from the same filter, projection and relations to resolve, and
equal keys of lists from the same version and mode; keys of two kinds are never equal. The order
of fields has no part in a key. -/
theorem keys_identify (k : CacheKeys) :
    (∀ f f' : Filter, (∀ l ∈ f.leaves, l.Integral) → (∀ l ∈ f'.leaves, l.Integral) →
      ∀ o o' : ReadOptions, k.byQuery f o = k.byQuery f' o' ↔
        (f = f' ∧ o.projection = o'.projection ∧ o.populate = o'.populate) ∨
          Value.Collide (queryValue f o) (queryValue f' o')) ∧
    (∀ m m' : ListMode, (∀ l ∈ m.leaves, l.Integral) → (∀ l ∈ m'.leaves, l.Integral) →
      ∀ version version', k.list version m = k.list version' m' ↔
        version = version' ∧ (m = m' ∨ Value.Collide m.toValue m'.toValue)) ∧
    (∀ x y : CacheSubject, k.key x = k.key y → kind x = kind y) ∧
    ∀ v w : Value, Relation.ReflTransGen Value.Reorders v w → fingerprint v = fingerprint w := by
  refine ⟨fun f f' h h' o o' => k.byQuery_eq_iff h h' o o',
    fun m m' h h' version version' => k.list_eq_iff h h' version version',
    fun x y => k.kind_eq_of_key, fun v w hvw => ?_⟩
  have hnormal : v.normalize = w.normalize := by
    induction hvw with
    | refl => rfl
    | tail _ hstep ih => exact ih.trans hstep.normalize_eq
  rw [fingerprint, fingerprint, hnormal]

/-- The keys of a collection of people. -/
def people : CacheKeys := ⟨"app", "people", rfl, rfl⟩

/-- The first page of those who are of an age and have a name. -/
def aged : OffsetRequest where
  filter := .and [.test .gte "age" (.int 18), .presence "name" true]
  page := some 1

theorem keys_identify_people :
    ((∀ l ∈ aged.filter.leaves, l.Integral) ∧ ∀ l ∈ (ListMode.offset aged).leaves, l.Integral) ∧
    people.byQuery aged.filter {} = people.byQuery aged.filter .uncached ∧
    people.list 1 (.offset aged) ≠ people.list 2 (.offset aged) ∧
    people.version ≠ people.byId (.text "version") ∧
    fingerprint (.arr [.obj [("b", .null), ("a", .int 1)]]) =
      fingerprint (.arr [.obj [("a", .int 1), ("b", .null)]]) := by
  have hfilter : ∀ l ∈ aged.filter.leaves, l.Integral := by decide +kernel
  have hmode : ∀ l ∈ (ListMode.offset aged).leaves, l.Integral := by decide +kernel
  obtain ⟨hquery, hlist, hkind, horder⟩ := keys_identify people
  refine ⟨⟨hfilter, hmode⟩, (hquery _ _ hfilter hfilter _ _).mpr (Or.inl ⟨rfl, rfl, rfl⟩),
    fun h => absurd ((hlist _ _ hmode hmode _ _).mp h).1 (by decide),
    fun h => absurd (hkind .version (.byId (.text "version")) h) (by decide), ?_⟩
  exact horder _ _ (.single (.item [] [] (.here (by decide) (.swap _ _ _))))

end CacheKeys

end Quire
