import Mathlib.Data.List.Infix
import Quire.Proofs.IssuedTokens

/-!
# Texts of sort orders

The canonical text of a sort order writes a mark after every name: a colon, the sign of the
direction and a bar, which falls away at the end. A name that holds a mark itself reads as two
fields. Where the names of one of two orders hold no mark, the orders have different texts or
numbers of fields, so that a token issued for one is accepted for the other only if two different
texts have the same digest.
-/
namespace Quire

/-! ## Marks -/

/-- What stands after the name of a field. -/
def Direction.mark (d : Direction) : List Char := ':' :: (Value.intChars d.sign ++ ['|'])

namespace Direction

theorem mark_asc : asc.mark = [':', '1', '|'] := rfl

theorem mark_desc : desc.mark = [':', '-', '1', '|'] := rfl

/-- A mark holds one colon, in front. -/
theorem mark_eq_cons (d : Direction) : ∃ rest, d.mark = ':' :: rest ∧ ':' ∉ rest := by
  cases d with
  | asc => exact ⟨_, mark_asc, by decide⟩
  | desc => exact ⟨_, mark_desc, by decide⟩

theorem mark_append_inj {d e : Direction} {r t : List Char} (h : d.mark ++ r = e.mark ++ t) :
    d = e ∧ r = t := by
  cases d <;> cases e <;> simp_all [mark_asc, mark_desc]

/-- No mark begins within another one. -/
theorem mark_prefix_of_append_eq {d e : Direction} {z r t : List Char} (hz : z ≠ [])
    (h : z ++ (d.mark ++ r) = e.mark ++ t) : e.mark <+: z := by
  rcases List.append_eq_append_iff.mp h with ⟨a, hmark, hrest⟩ | ⟨c, rfl, -⟩
  · cases a with
    | nil =>
      rw [hmark, List.append_nil]
    | cons b a =>
      obtain ⟨u, hd, -⟩ := d.mark_eq_cons
      obtain ⟨w, he, hcolon⟩ := e.mark_eq_cons
      obtain ⟨x, z, rfl⟩ := List.exists_cons_of_ne_nil hz
      rw [hd] at hrest
      rw [he] at hmark
      obtain rfl : ':' = b := (List.cons.inj hrest).1
      have hw : w = z ++ ':' :: a := (List.cons.inj hmark).2
      exact absurd (by simp [hw]) hcolon
  · exact List.prefix_append _ _

end Direction

namespace SortField

/-- The name of the field holds no mark. -/
def Unmarked (f : SortField) : Prop := ∀ d : Direction, ¬ d.mark <:+: f.field.toList

instance (f : SortField) : Decidable f.Unmarked :=
  decidable_of_iff
    (¬ Direction.asc.mark <:+: f.field.toList ∧ ¬ Direction.desc.mark <:+: f.field.toList)
    ⟨fun h d => by cases d; exacts [h.1, h.2], fun h => ⟨h .asc, h .desc⟩⟩

/-- Any reading of a text that begins with an unmarked name begins with the same field, or with a
name that runs over its mark. -/
theorem Unmarked.append_eq {f g : SortField} (hf : f.Unmarked) {r t : List Char}
    (h : f.field.toList ++ (f.direction.mark ++ r) = g.field.toList ++ (g.direction.mark ++ t)) :
    (f = g ∧ r = t) ∨ ∃ name : List Char, r = name ++ (g.direction.mark ++ t) := by
  by_cases hfield : f.field = g.field
  · rw [hfield] at h
    obtain ⟨hdirection, hrest⟩ := Direction.mark_append_inj (List.append_cancel_left h)
    exact Or.inl ⟨by cases f; cases g; simp_all, hrest⟩
  · rw [← String.toList_inj] at hfield
    rcases List.append_eq_append_iff.mp h with ⟨a, hname, hrest⟩ | ⟨a, hname, hrest⟩
    · have ha : a ≠ [] := by
        rintro rfl
        simp [hname] at hfield
      obtain ⟨name, rfl⟩ := Direction.mark_prefix_of_append_eq ha hrest.symm
      rw [List.append_assoc] at hrest
      exact Or.inr ⟨name, List.append_cancel_left hrest⟩
    · have ha : a ≠ [] := by
        rintro rfl
        simp [hname] at hfield
      have hmark : g.direction.mark <:+: a :=
        List.IsPrefix.isInfix (Direction.mark_prefix_of_append_eq ha hrest.symm)
      refine absurd ?_ (hf g.direction)
      rw [hname]
      exact List.IsInfix.trans hmark (List.IsSuffix.isInfix (List.suffix_append _ _))

end SortField

namespace SortOrder

/-! ## Barred texts -/

/-- The text of fields with a mark after every name. -/
def barred (fs : List SortField) : List Char :=
  fs.flatMap fun f => f.field.toList ++ f.direction.mark

theorem barred_cons (f : SortField) (fs : List SortField) :
    barred (f :: fs) = f.field.toList ++ (f.direction.mark ++ barred fs) := by
  rw [barred, List.flatMap_cons, List.append_assoc]
  rfl

theorem barred_append (fs gs : List SortField) : barred (fs ++ gs) = barred fs ++ barred gs :=
  List.flatMap_append

/-- The canonical text leaves out the last bar. -/
theorem canonical_append_bar {s : SortOrder} (h : s.fields ≠ []) :
    s.canonical ++ ['|'] = barred s.fields := by
  obtain ⟨fields⟩ := s
  induction fields with
  | nil => exact absurd rfl h
  | cons f fs ih =>
    cases fs with
    | nil => simp [canonical, barred, Direction.mark]
    | cons g gs =>
      have hrest := ih (List.cons_ne_nil g gs)
      rw [canonical] at hrest ⊢
      rw [barred_cons, ← hrest]
      simp [Direction.mark]

/-- Two orders with the same canonical text have the same barred text. -/
theorem barred_eq_of_canonical_eq {s t : SortOrder} (hs : s.fields ≠ []) (ht : t.fields ≠ [])
    (h : s.canonical = t.canonical) : barred s.fields = barred t.fields := by
  rw [← canonical_append_bar hs, ← canonical_append_bar ht, h]

theorem canonical_eq_of_barred_eq {s t : SortOrder} (hs : s.fields ≠ []) (ht : t.fields ≠ [])
    (h : barred s.fields = barred t.fields) : s.canonical = t.canonical := by
  rw [← canonical_append_bar hs, ← canonical_append_bar ht] at h
  exact List.append_cancel_right h

/-- An order of unmarked names has the most fields of all orders with its text, and is the only one
with so many. -/
theorem length_le_of_barred_eq {fs gs : List SortField} (hfs : ∀ f ∈ fs, f.Unmarked)
    (h : barred fs = barred gs) :
    gs.length ≤ fs.length ∧ (gs.length = fs.length → gs = fs) := by
  induction fs generalizing gs with
  | nil =>
    cases gs with
    | nil => exact ⟨Nat.le_refl 0, fun _ => rfl⟩
    | cons g gs =>
      rw [barred_cons, Direction.mark] at h
      simp [barred] at h
  | cons f fs ih =>
    rw [List.forall_mem_cons] at hfs
    cases gs with
    | nil => exact ⟨Nat.zero_le _, fun hlen => by simp at hlen⟩
    | cons g gs =>
      rw [barred_cons, barred_cons] at h
      rcases hfs.1.append_eq h with ⟨rfl, hrest⟩ | ⟨name, hrest⟩
      · obtain ⟨hle, heq⟩ := ih hfs.2 hrest
        refine ⟨Nat.succ_le_succ hle, fun hlen => ?_⟩
        rw [heq (Nat.succ.inj hlen)]
      · -- `g` takes over the mark of `f`, so that `fs` is read with one field more than `gs`
        have hread : barred fs = barred (⟨String.ofList name, g.direction⟩ :: gs) := by
          rw [barred_cons, String.toList_ofList, hrest]
        have hle := (ih hfs.2 hread).1
        simp only [List.length_cons] at hle ⊢
        omega

/-- All names of the order hold no mark. -/
def Unmarked (s : SortOrder) : Prop := ∀ f ∈ s.fields, f.Unmarked

instance (s : SortOrder) : Decidable s.Unmarked :=
  inferInstanceAs (Decidable (∀ f ∈ s.fields, f.Unmarked))

/-- Among the orders with a number of fields, one of unmarked names has its text alone. -/
theorem Unmarked.eq_of_canonical_eq {s t : SortOrder} (hs : s.Unmarked) (hne : s.fields ≠ [])
    (hlen : s.fields.length = t.fields.length) (h : s.canonical = t.canonical) : s = t := by
  have hne' : t.fields ≠ [] := by
    intro hnil
    rw [hnil] at hlen
    exact hne (List.length_eq_zero_iff.mp hlen)
  have hbarred := barred_eq_of_canonical_eq hne hne' h
  have hfields := (length_le_of_barred_eq hs hbarred).2 hlen.symm
  cases s
  cases t
  simp_all

/-- Two neighbouring fields can pass a mark between their names without a change of the text. -/
theorem canonical_shift (front back : List SortField) (x y z : String) (d e h : Direction) :
    canonical ⟨front ++ ⟨x ++ String.ofList d.mark ++ y, e⟩ :: ⟨z, h⟩ :: back⟩ =
      canonical ⟨front ++ ⟨x, d⟩ :: ⟨y ++ String.ofList e.mark ++ z, h⟩ :: back⟩ := by
  refine canonical_eq_of_barred_eq (by simp) (by simp) ?_
  simp [barred_append, barred_cons]

end SortOrder

/-! ## Tokens of other orders -/

namespace Cursor

variable {d : Document} {s t : SortOrder} {idField : String} {version : Nat} {c : Cursor}

/-- A token that can be decoded is accepted for a second order with the signature and the number of
fields of the first, and refused for any other order. -/
theorem decodeFor_token (hs : s.EndsWith idField) (ht : t.EndsWith idField)
    (hversion : version < twoPow 32) (hd : (Value.obj d).Sized)
    (hc : ofDocument d s idField version = .ok c)
    (hlen : tokenLength c.encode ≤ tokenLimit) (hshallow : c.Shallow) :
    decodeFor c.encode t idField version =
      if s.signature = t.signature ∧ s.fields.length = t.fields.length then .ok c.reread
      else .error .cursorSort := by
  obtain ⟨-, rfl, hsignature, hvalues⟩ := of_ofDocument hc
  have hdecode := (sized_of_ofDocument hc hversion hd).decode_encode hlen hshallow
  have hcount : c.reread.values.length = (t.names.filter (· != idField)).length ↔
      s.fields.length = t.fields.length := by
    rw [← hs.length_names_filter, ← ht.length_names_filter, reread, List.length_map, hvalues,
      List.length_map, Nat.add_right_cancel_iff]
  have haccept : decodeFor c.encode t idField c.reread.version = _ :=
    decodeFor_of_version_eq hdecode
  simp only [hcount] at haccept
  rw [← hsignature]
  exact haccept

/-- A token of one order is refused for any other one, unless it cannot be decoded at all, or both
orders have the same signature. If the names in one of them hold no mark, only two different texts
with the same digest make the signatures the same. -/
theorem token_of_other_order (hs : s.EndsWith idField) (ht : t.EndsWith idField) (hst : s ≠ t)
    (hversion : version < twoPow 32) (hd : (Value.obj d).Sized)
    (hc : ofDocument d s idField version = .ok c) :
    (tokenLength c.encode ≤ tokenLimit ∧ c.Shallow →
      decodeFor c.encode t idField version = .error .cursorSort ∨
      decodeFor c.encode t idField version = .ok c.reread ∧ s.signature = t.signature ∧
        (s.Unmarked ∨ t.Unmarked → s.canonical ≠ t.canonical)) ∧
    (¬ (tokenLength c.encode ≤ tokenLimit ∧ c.Shallow) →
      ∃ text, decodeFor c.encode t idField version = .error (.invalidCursor text)) := by
  constructor
  · rintro ⟨hlen, hshallow⟩
    rw [decodeFor_token hs ht hversion hd hc hlen hshallow]
    split
    · next h =>
      refine Or.inr ⟨rfl, h.1, fun hunmarked htexts => hst ?_⟩
      rcases hunmarked with hs' | ht'
      · exact hs'.eq_of_canonical_eq hs.fields_ne_nil h.2 htexts
      · exact (ht'.eq_of_canonical_eq ht.fields_ne_nil h.2.symm htexts.symm).symm
    · exact Or.inl rfl
  · intro hunfit
    obtain ⟨text, htext⟩ :=
      (sized_of_ofDocument hc hversion hd).exists_decode_encode_eq_error hunfit
    exact ⟨text, by simp only [decodeFor, htext, bind, Except.bind]⟩

/-- The newest rows first. -/
def newestFirst : SortOrder := ⟨[⟨"at", .desc⟩, ⟨"_id", .asc⟩]⟩

/-- The oldest rows first. -/
def oldestFirst : SortOrder := ⟨[⟨"at", .asc⟩, ⟨"_id", .asc⟩]⟩

/-- A token of the newest rows is refused for the oldest ones. -/
theorem token_of_newestFirst :
    ∃ c, ofDocument [("_id", .int 1), ("at", .int 5)] newestFirst "_id" 1 = .ok c ∧
      decodeFor c.encode oldestFirst "_id" 1 = .error .cursorSort := by
  have hs : newestFirst.EndsWith "_id" := ⟨[⟨"at", .desc⟩], .asc, rfl, by decide⟩
  have ht : oldestFirst.EndsWith "_id" := ⟨[⟨"at", .asc⟩], .asc, rfl, by decide⟩
  have hsignature : newestFirst.signature ≠ oldestFirst.signature := by decide +kernel
  have hfits : ((ofDocument [("_id", .int 1), ("at", .int 5)] newestFirst "_id" 1).toOption.all
      fun c => tokenLength c.encode ≤ tokenLimit ∧ c.Shallow) = true := by decide +kernel
  obtain ⟨c, hc⟩ := exists_ofDocument hs
    (by rfl : (Collection.idOf? "_id" [("_id", .int 1), ("at", .int 5)]).isSome = true) 1
  have htoken := token_of_other_order hs ht (by decide) (by decide) (by decide) hc
  simp only [hc, Except.toOption, Option.all_some, decide_eq_true_eq] at hfits
  exact ⟨c, hc, (htoken.1 hfits).resolve_right fun h => hsignature h.2.1⟩

/-- If two neighbouring fields pass a mark between their names, the tokens of one order are accepted
for the other one. -/
theorem token_of_shifted_order {front back : List SortField} {x y z : String} {e f g : Direction}
    (hs : s = ⟨front ++ ⟨x ++ String.ofList e.mark ++ y, f⟩ :: ⟨z, g⟩ :: back⟩)
    (ht : t = ⟨front ++ ⟨x, e⟩ :: ⟨y ++ String.ofList f.mark ++ z, g⟩ :: back⟩)
    (hsEnd : s.EndsWith idField) (htEnd : t.EndsWith idField) (hversion : version < twoPow 32)
    (hd : (Value.obj d).Sized) (hc : ofDocument d s idField version = .ok c)
    (hlen : tokenLength c.encode ≤ tokenLimit) (hshallow : c.Shallow) :
    decodeFor c.encode t idField version = .ok c.reread := by
  have htexts : s.canonical = t.canonical := by
    rw [hs, ht]
    exact SortOrder.canonical_shift front back x y z e f g
  have hsame : s.signature = t.signature ∧ s.fields.length = t.fields.length := by
    refine ⟨by rw [SortOrder.signature, SortOrder.signature, htexts], ?_⟩
    simp [hs, ht]
  rw [decodeFor_token hsEnd htEnd hversion hd hc hlen hshallow, if_pos hsame]

/-- An order whose first name holds a mark. -/
def markInFirst : SortOrder := ⟨[⟨"a:1|b", .asc⟩, ⟨"c", .asc⟩, ⟨"_id", .asc⟩]⟩

/-- An order whose second name holds a mark. -/
def markInSecond : SortOrder := ⟨[⟨"a", .asc⟩, ⟨"b:1|c", .asc⟩, ⟨"_id", .asc⟩]⟩

/-- Two keyset orders, of which one accepts the tokens of the other. -/
theorem token_replayed :
    markInFirst ≠ markInSecond ∧ markInFirst.canonical = markInSecond.canonical ∧
      markInFirst.forKeyset "_id" = .ok markInFirst ∧
      markInSecond.forKeyset "_id" = .ok markInSecond ∧
      ∃ c, ofDocument [("_id", .int 1)] markInFirst "_id" 1 = .ok c ∧
        tokenLength c.encode ≤ tokenLimit ∧ decodeFor c.encode markInSecond "_id" 1 = .ok c := by
  have hs : markInFirst.forKeyset "_id" = .ok markInFirst := rfl
  have ht : markInSecond.forKeyset "_id" = .ok markInSecond := rfl
  have hfirst : markInFirst = ⟨[] ++ ⟨"a" ++ String.ofList Direction.asc.mark ++ "b", .asc⟩ ::
      ⟨"c", .asc⟩ :: [⟨"_id", .asc⟩]⟩ := rfl
  have hsecond : markInSecond = ⟨[] ++ ⟨"a", .asc⟩ ::
      ⟨"b" ++ String.ofList Direction.asc.mark ++ "c", .asc⟩ :: [⟨"_id", .asc⟩]⟩ := rfl
  have hcaptured : ∀ v ∈ captured [("_id", .int 1)] markInFirst "_id", Carries v := by decide
  have hfits : ((ofDocument [("_id", .int 1)] markInFirst "_id" 1).toOption.all
      fun c => tokenLength c.encode ≤ tokenLimit) = true := by decide +kernel
  obtain ⟨c, hc⟩ := exists_ofDocument (SortOrder.endsWith_forKeyset hs)
    (by rfl : (Collection.idOf? "_id" [("_id", .int 1)]).isSome = true) 1
  simp only [hc, Except.toOption, Option.all_some, decide_eq_true_eq] at hfits
  have hplain := plain_of_ofDocument hc (by decide) hcaptured
  have hreplayed := token_of_shifted_order hfirst hsecond (SortOrder.endsWith_forKeyset hs)
    (SortOrder.endsWith_forKeyset ht) (by decide) (by decide) hc hfits hplain.shallow
  rw [hplain.reread_eq] at hreplayed
  exact ⟨by decide, rfl, hs, ht, c, hc, hfits, hreplayed⟩

end Cursor
end Quire
