import Mathlib.Data.List.Forall2
import Quire.Cache.Glob

/-!
# Matching patterns

A pattern matches a text that can be cut into pieces for which its characters stand, one after
another. A place of the matcher is possible if what is left of the text can be cut so, now or with a
longer run of the last star. A round keeps what is possible: the stars before the last one need no
longer runs, as the last one can take up whatever they would. So the answer at the end of the rounds
is exact. Plain characters followed by a star match the texts that start with them.
-/
namespace Quire.Glob

variable {c x : Char} {pattern plain text : List Char}

/-! ## Cutting a text -/

/-- The pieces of text for which a character of a pattern stands. -/
inductive StandsFor : Char → List Char → Prop
  | run (piece : List Char) : StandsFor '*' piece
  | single (x : Char) : StandsFor '?' [x]
  | itself {c : Char} (hstar : c ≠ '*') (hmark : c ≠ '?') : StandsFor c [c]

/-- The text can be cut into pieces for which the characters of the pattern stand, in order. -/
def Matches (pattern text : List Char) : Prop :=
  ∃ pieces, List.Forall₂ StandsFor pattern pieces ∧ pieces.flatten = text

theorem standsFor_iff_of_ne {piece : List Char} (hstar : c ≠ '*') :
    StandsFor c piece ↔ ∃ x, (c = '?' ∨ c = x) ∧ piece = [x] := by
  constructor
  · intro h
    cases h with
    | run => exact absurd rfl hstar
    | single x => exact ⟨x, Or.inl rfl, rfl⟩
    | itself _ _ => exact ⟨c, Or.inr rfl, rfl⟩
  · rintro ⟨x, hx, rfl⟩
    by_cases hmark : c = '?'
    · exact hmark ▸ .single x
    · obtain rfl := hx.resolve_left hmark
      exact .itself hstar hmark

theorem matches_nil_iff : Matches [] text ↔ text = [] := by
  simp [Matches, eq_comm]

theorem matches_cons_iff :
    Matches (c :: pattern) text ↔
      ∃ piece rest, StandsFor c piece ∧ text = piece ++ rest ∧ Matches pattern rest := by
  constructor
  · rintro ⟨pieces, hpieces, rfl⟩
    obtain ⟨piece, rest, hpiece, hrest, rfl⟩ := List.forall₂_cons_left_iff.mp hpieces
    exact ⟨piece, rest.flatten, hpiece, List.flatten_cons, rest, hrest, rfl⟩
  · rintro ⟨piece, rest, hpiece, rfl, pieces, hpieces, rfl⟩
    exact ⟨piece :: pieces, .cons hpiece hpieces, List.flatten_cons⟩

/-- A star stands for any run of characters. -/
theorem matches_star_iff :
    Matches ('*' :: pattern) text ↔ ∃ run rest, text = run ++ rest ∧ Matches pattern rest := by
  rw [matches_cons_iff]
  exact ⟨fun ⟨run, rest, _, h⟩ => ⟨run, rest, h⟩, fun ⟨run, rest, h⟩ => ⟨run, rest, .run run, h⟩⟩

/-- Any other character stands for one character. -/
theorem matches_iff_of_ne (hstar : c ≠ '*') :
    Matches (c :: pattern) text ↔
      ∃ x rest, (c = '?' ∨ c = x) ∧ text = x :: rest ∧ Matches pattern rest := by
  rw [matches_cons_iff]
  constructor
  · rintro ⟨piece, rest, hpiece, htext, h⟩
    obtain ⟨x, hx, rfl⟩ := (standsFor_iff_of_ne hstar).mp hpiece
    exact ⟨x, rest, hx, htext, h⟩
  · rintro ⟨x, rest, hx, htext, h⟩
    exact ⟨[x], rest, (standsFor_iff_of_ne hstar).mpr ⟨x, hx, rfl⟩, htext, h⟩

theorem matches_cons_cons_iff (hstar : c ≠ '*') :
    Matches (c :: pattern) (x :: text) ↔ (c = '?' ∨ c = x) ∧ Matches pattern text := by
  rw [matches_iff_of_ne hstar]
  constructor
  · rintro ⟨y, rest, hy, heq, h⟩
    obtain ⟨rfl, rfl⟩ := List.cons.inj heq
    exact ⟨hy, h⟩
  · rintro ⟨hx, h⟩
    exact ⟨x, text, hx, rfl, h⟩

/-- A run is empty or takes the next character. -/
theorem matches_star_iff_tail :
    Matches ('*' :: pattern) text ↔ Matches pattern text ∨ Matches ('*' :: pattern) text.tail := by
  simp only [matches_star_iff]
  constructor
  · rintro ⟨run, rest, rfl, h⟩
    cases run with
    | nil => exact Or.inl h
    | cons x run => exact Or.inr ⟨run, rest, rfl, h⟩
  · rintro (h | ⟨run, rest, htail, h⟩)
    · exact ⟨[], text, rfl, h⟩
    · cases text with
      | nil => exact ⟨run, rest, htail, h⟩
      | cons x text => exact ⟨x :: run, rest, congrArg (x :: ·) htail, h⟩

/-- A second star adds nothing. -/
theorem Matches.of_star_star (h : Matches ('*' :: '*' :: pattern) text) :
    Matches ('*' :: pattern) text := by
  obtain ⟨run, rest, rfl, hrest⟩ := matches_star_iff.mp h
  obtain ⟨more, rest, rfl, hmatches⟩ := matches_star_iff.mp hrest
  exact matches_star_iff.mpr ⟨run ++ more, rest, (List.append_assoc run more rest).symm, hmatches⟩

theorem matches_star_nil_iff : Matches ('*' :: pattern) [] ↔ Matches pattern [] := by
  rw [matches_star_iff]
  constructor
  · rintro ⟨run, rest, heq, h⟩
    rwa [(List.nil_eq_append_iff.mp heq).2] at h
  · exact fun h => ⟨[], [], rfl, h⟩

/-- Only stars stand for no character at all. -/
theorem all_star_iff : pattern.all (· == '*') = true ↔ Matches pattern [] := by
  induction pattern with
  | nil => simp [matches_nil_iff]
  | cons c pattern ih =>
    rw [List.all_cons, Bool.and_eq_true, ih, beq_iff_eq]
    by_cases hstar : c = '*'
    · rw [hstar, matches_star_nil_iff, and_iff_right rfl]
    · simp [matches_iff_of_ne, hstar]

/-- Characters other than stars take as many characters of the text as they are. -/
theorem Matches.of_append {passed : List Char} (hplain : '*' ∉ passed)
    (h : Matches (passed ++ pattern) text) :
    ∃ run rest, text = run ++ rest ∧ run.length = passed.length ∧ Matches pattern rest := by
  induction passed generalizing text with
  | nil => exact ⟨[], text, rfl, rfl, h⟩
  | cons c passed ih =>
    obtain ⟨hstar, hpassed⟩ := not_or.mp (mt List.mem_cons.mpr hplain)
    obtain ⟨x, rest, -, rfl, hrest⟩ := (matches_iff_of_ne (Ne.symm hstar)).mp h
    obtain ⟨run, rest, rfl, hlength, h⟩ := ih hpassed hrest
    exact ⟨x :: run, rest, rfl, congrArg (· + 1) hlength, h⟩

/-! ## Rounds -/

/-- What a longer run of the star makes possible, a star in front of what is left does as well. -/
theorem Star.Reaches.matches {star : Star} (h : star.Reaches pattern text)
    (hlonger : Matches ('*' :: star.pattern) star.text.tail) : Matches ('*' :: pattern) text := by
  obtain ⟨passed, run, hpattern, htext, hlength, hplain⟩ := h
  obtain ⟨skipped, rest, htail, hrest⟩ := matches_star_iff.mp hlonger
  rw [hpattern] at hrest
  obtain ⟨taken, rest, rfl, htaken, hmatches⟩ := hrest.of_append hplain
  -- Both texts are ends of the same text, and the longer run leaves the shorter one.
  have hshorter : rest.length ≤ text.length := by
    have htotal := congrArg List.length htail
    have hstar := congrArg List.length htext
    simp only [List.length_tail, List.length_append] at htotal hstar
    omega
  have hrest : rest <:+ star.text :=
    (htail ▸ (List.suffix_append taken rest).trans (List.suffix_append skipped _)).trans
      (List.tail_suffix star.text)
  obtain ⟨more, rfl⟩ := List.suffix_of_suffix_length_le hrest ⟨run, htext.symm⟩ hshorter
  exact matches_star_iff.mpr ⟨more, rest, rfl, hmatches⟩

namespace Place

/-- What is left of the text can be cut for what is left of the pattern, or can be cut with a longer
run of the last star. -/
def Possible (s : Place) : Prop :=
  Matches s.pattern s.text ∨ ∃ star ∈ s.star?, Matches ('*' :: star.pattern) star.text.tail

theorem possible_after (star : Star) :
    (after star).Possible ↔ Matches ('*' :: star.pattern) star.text := by
  simp [Possible, after, ← matches_star_iff_tail]

/-- An answer says yes, or a place is possible. -/
def Promises : Bool ⊕ Place → Prop
  | .inl answer => answer = true
  | .inr t => t.Possible

theorem promises_back {s : Place} (h : ¬ Matches s.pattern s.text) :
    Promises s.back ↔ s.Possible := by
  rw [back, Possible, or_iff_right h]
  split
  · next star hstar => simp [Promises, possible_after, hstar]
  · next hstar => simp [Promises, hstar]

/-- The outcome of a round promises exactly what was possible before it. -/
theorem promises_step (s : Place) : Promises s.step ↔ s.Possible := by
  obtain ⟨pattern, text, star?, reached⟩ := s
  match pattern, text with
  | pattern, [] =>
    rw [step, Promises, all_star_iff, Possible]
    refine ⟨Or.inl, ?_⟩
    rintro (h | ⟨star, hstar, h⟩)
    · exact h
    · exact matches_star_nil_iff.mp ((reached star hstar).matches h)
  | [], _ :: _ => exact promises_back fun h => List.cons_ne_nil _ _ (matches_nil_iff.mp h)
  | c :: pattern, x :: text =>
    rw [step]
    split
    · next hstar =>
      -- The new star replaces the last one, which must not lose what that one made possible.
      subst hstar
      rw [Promises, possible_after]
      refine ⟨Or.inl, ?_⟩
      rintro (h | ⟨star, hstar, h⟩)
      · exact h
      · exact ((reached star hstar).matches h).of_star_star
    · next hstar =>
      split
      · next hx => simp only [Promises, Possible, matches_cons_cons_iff hstar, hx, true_and]
      · next hx => exact promises_back fun h => hx ((matches_cons_cons_iff hstar).mp h).1

theorem scan_of_answer {s : Place} {answer : Bool} (h : s.step = .inl answer) :
    s.scan = answer := by
  rw [scan]
  split
  · next h' => exact Sum.inl.inj (h'.symm.trans h)
  · next h' => cases h'.symm.trans h

theorem scan_of_next {s t : Place} (h : s.step = .inr t) : s.scan = t.scan := by
  rw [scan]
  split
  · next h' => cases h'.symm.trans h
  · next h' => rw [Sum.inr.inj (h'.symm.trans h)]

theorem scan_iff (s : Place) : s.scan = true ↔ s.Possible := by
  induction s using scan.induct with
  | case1 s answer h => rw [scan_of_answer h, ← promises_step, h, Promises]
  | case2 s t h ih => rw [scan_of_next h, ih, ← promises_step s, h, Promises]

/-- Round after round from a place on, the matcher stops with the answer. -/
inductive Ends : Place → Bool → Prop
  | answer {s : Place} {answer : Bool} (h : s.step = .inl answer) : Ends s answer
  | next {s t : Place} {answer : Bool} (h : s.step = .inr t) (hnext : Ends t answer) :
    Ends s answer

theorem ends_iff {s : Place} {answer : Bool} : s.Ends answer ↔ answer = s.scan := by
  constructor
  · intro h
    induction h with
    | answer h => exact (scan_of_answer h).symm
    | next h _ ih => exact ih.trans (scan_of_next h).symm
  · rintro rfl
    induction s using scan.induct with
    | case1 s answer h => exact .answer (by rw [h, scan_of_answer h])
    | case2 s t h ih => exact .next h (scan_of_next h ▸ ih)

end Place

theorem isMatch_iff {pattern text : String} :
    isMatch pattern text = true ↔ Matches pattern.toList text.toList := by
  simp [isMatch, Place.scan_iff, Place.Possible, Place.start]

/-- The matcher stops, with one answer, which says whether the text can be cut into pieces for which
the characters of the pattern stand. -/
theorem isMatch_exact (pattern text : String) :
    (∀ answer, (Place.start pattern.toList text.toList).Ends answer ↔
      answer = isMatch pattern text) ∧
    (isMatch pattern text = true ↔ Matches pattern.toList text.toList) :=
  ⟨fun _ => Place.ends_iff, isMatch_iff⟩

/-! ## Prefixes -/

/-- Plain characters stand for themselves. -/
theorem matches_append_iff (hplain : ∀ c ∈ plain, c ≠ '*' ∧ c ≠ '?') :
    Matches (plain ++ pattern) text ↔ ∃ rest, text = plain ++ rest ∧ Matches pattern rest := by
  induction plain generalizing text with
  | nil => simp
  | cons c plain ih =>
    rw [List.forall_mem_cons] at hplain
    obtain ⟨⟨hstar, hmark⟩, hplain⟩ := hplain
    rw [List.cons_append, matches_iff_of_ne hstar]
    constructor
    · rintro ⟨x, rest, hx, rfl, h⟩
      obtain rfl := hx.resolve_left hmark
      obtain ⟨rest, rfl, hrest⟩ := (ih hplain).mp h
      exact ⟨rest, rfl, hrest⟩
    · rintro ⟨rest, rfl, h⟩
      exact ⟨c, plain ++ rest, Or.inr rfl, rfl, (ih hplain).mpr ⟨rest, rfl, h⟩⟩

/-- A star at the end of plain characters matches what starts with them. -/
theorem isMatch_star_iff {stem key : String} (hplain : ∀ c ∈ stem.toList, c ≠ '*' ∧ c ≠ '?') :
    isMatch (stem ++ "*") key = true ↔ ∃ rest, key = stem ++ rest := by
  have hstar : ∀ text, Matches ['*'] text := fun text =>
    matches_star_iff.mpr ⟨text, [], (List.append_nil text).symm, matches_nil_iff.mpr rfl⟩
  have htoList : (stem ++ "*").toList = stem.toList ++ ['*'] := String.toList_append
  rw [isMatch_iff, htoList, matches_append_iff hplain]
  constructor
  · rintro ⟨rest, heq, -⟩
    refine ⟨String.ofList rest, String.ext ?_⟩
    rw [heq, String.toList_append, String.toList_ofList]
  · rintro ⟨rest, rfl⟩
    exact ⟨rest.toList, String.toList_append, hstar _⟩

end Quire.Glob
