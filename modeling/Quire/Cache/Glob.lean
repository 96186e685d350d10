/-!
# Glob patterns

In a pattern `*` stands for any run of characters and `?` for any one character; every other
character stands for itself. The matcher goes through pattern and text together. Where they do not
fit it goes back to the last star that it passed, whose run becomes longer by one character; the
stars before that one it has forgotten.
-/
namespace Quire.Glob

/-- A star that was passed: what follows it in the pattern, and what follows its run in the text. -/
structure Star where
  pattern : List Char
  text : List Char

/-- Since the star, each character of the pattern stood for one of the text, up to what is left of
both. -/
def Star.Reaches (star : Star) (pattern text : List Char) : Prop :=
  ∃ passed run, star.pattern = passed ++ pattern ∧ star.text = run ++ text ∧
    passed.length = run.length ∧ '*' ∉ passed

theorem Star.reaches_self (star : Star) : star.Reaches star.pattern star.text :=
  ⟨[], [], rfl, rfl, rfl, List.not_mem_nil⟩

theorem Star.Reaches.tail {star : Star} {c x : Char} {pattern text : List Char}
    (h : star.Reaches (c :: pattern) (x :: text)) (hstar : c ≠ '*') :
    star.Reaches pattern text := by
  obtain ⟨passed, run, hpattern, htext, hlength, hplain⟩ := h
  refine ⟨passed ++ [c], run ++ [x], ?_, ?_, by simp [hlength], by simp [hplain, hstar.symm]⟩
  · rw [hpattern, List.append_assoc, List.singleton_append]
  · rw [htext, List.append_assoc, List.singleton_append]

/-- Where the matcher stands: what is left of pattern and text, and the last star. -/
structure Place where
  pattern : List Char
  text : List Char
  star? : Option Star
  reached : ∀ star ∈ star?, star.Reaches pattern text

namespace Place

/-- Before pattern and text. -/
def start (pattern text : List Char) : Place := ⟨pattern, text, none, nofun⟩

/-- Right after a star and its run. -/
def after (star : Star) : Place :=
  ⟨star.pattern, star.text, some star, fun _ h => Option.mem_some.mp h ▸ star.reaches_self⟩

/-- Goes back to the last star, whose run becomes longer by one character. -/
def back (s : Place) : Bool ⊕ Place :=
  match s.star? with
  | some star => .inr (after ⟨star.pattern, star.text.tail⟩)
  | none => .inl false

/-- One round of the matcher: an answer, or the place where it stands next. -/
def step : Place → Bool ⊕ Place
  | ⟨pattern, [], _, _⟩ => .inl (pattern.all (· == '*'))
  | s@⟨[], _ :: _, _, _⟩ => s.back
  | s@⟨c :: pattern, x :: text, star?, reached⟩ =>
    if hstar : c = '*' then .inr (after ⟨pattern, x :: text⟩)
    else if c = '?' ∨ c = x then
      .inr ⟨pattern, text, star?, fun star h => (reached star h).tail hstar⟩
    else s.back

/-- What is left of the pattern after the last star, then of the text after its run, then of the
text. -/
def rank (s : Place) : Nat × Nat × Nat :=
  match s.star? with
  | some star => (star.pattern.length, star.text.length, s.text.length)
  | none => (s.pattern.length, 0, s.text.length)

/-- A place of smaller rank, the first difference decides. -/
def Below (t s : Place) : Prop := Prod.Lex (· < ·) (Prod.Lex (· < ·) (· < ·)) t.rank s.rank

/-- A new star leaves less of the pattern behind it than the one before. -/
theorem below_of_star {s : Place} {c : Char} {pattern : List Char}
    (hpattern : s.pattern = c :: pattern) (text : List Char) :
    (after ⟨pattern, text⟩).Below s := by
  have hless : pattern.length < s.rank.1 := by
    rw [rank]
    split
    · next star hstar =>
      obtain ⟨passed, -, hpassed, -⟩ := s.reached star hstar
      rw [hpassed, hpattern, List.length_append, List.length_cons]
      omega
    · rw [hpattern]
      exact Nat.lt_succ_self _
  exact Prod.Lex.left _ _ hless

/-- A longer run of the same star leaves less of the text behind it. -/
theorem below_of_back {s t : Place} (htext : s.text ≠ []) (h : s.back = .inr t) : t.Below s := by
  rw [back] at h
  split at h
  · next star hstar =>
    cases h
    obtain ⟨-, run, -, hrun, -⟩ := s.reached star hstar
    have hlength : 0 < star.text.length := by
      rw [hrun, List.length_append]
      exact Nat.add_pos_right _ (List.length_pos_iff.mpr htext)
    simp only [Below, rank, after, hstar, List.length_tail]
    exact Prod.Lex.right _ (Prod.Lex.left _ _ (Nat.sub_one_lt_of_lt hlength))
  · cases h

/-- One more character of pattern and text leaves less of the text. -/
theorem below_of_char {c x : Char} {pattern text : List Char} {star? : Option Star}
    {reached reached'} :
    Below ⟨pattern, text, star?, reached⟩ ⟨c :: pattern, x :: text, star?, reached'⟩ := by
  cases star? with
  | none => exact Prod.Lex.left _ _ (Nat.lt_succ_self _)
  | some star => exact Prod.Lex.right _ (Prod.Lex.right _ (Nat.lt_succ_self _))

theorem below_of_step {s t : Place} (h : s.step = .inr t) : t.Below s := by
  obtain ⟨pattern, text, star?, reached⟩ := s
  match pattern, text with
  | _, [] => cases h
  | [], _ :: _ => exact below_of_back (List.cons_ne_nil _ _) h
  | c :: pattern, x :: text =>
    rw [step] at h
    split at h
    · cases h
      exact below_of_star rfl _
    · split at h
      · cases h
        exact below_of_char
      · exact below_of_back (List.cons_ne_nil _ _) h

/-- The answer of the matcher from a place on. -/
def scan (s : Place) : Bool :=
  match _h : s.step with
  | .inl answer => answer
  | .inr t => t.scan
termination_by s.rank
decreasing_by exact below_of_step _h

end Place

/-- Whether a pattern matches a text. -/
def isMatch (pattern text : String) : Bool := (Place.start pattern.toList text.toList).scan

end Quire.Glob
