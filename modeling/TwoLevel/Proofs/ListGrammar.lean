/-
  The grammar of lists of minterms.

  A list is given by a parsing expression, in which numbers are the tokens. It is matched from the
  beginning of the text, and has to reach its end. After a number, separators are taken together
  with a further number only: those at the end of the text are given back (`furtherNumber_fails`),
  and left to the last repetition.

  From the end of a number on, the expression takes the whole text if there are no characters which
  are not allowed, and its tokens are the maximal runs of digits; otherwise something is left which
  is no separator (`furtherNumbers_matches`). So it accepts exactly the texts which are `Listable`
  (`grammar_matches`).
-/
import TwoLevel.Proofs.MintermLists
import TwoLevel.Proofs.ParsingExpressions

namespace TwoLevel.MintermList

open Peg Peg.Outcome

def digit : Peg :=
  .one Char.isDigit

def number : Peg :=
  .token (plus digit)

def separator : Peg :=
  .choice (.choice (.choice (.one (· == ',')) (.one (· == ';'))) (.one (· == ' ')))
    (.one (· == '\t'))

/-- Numbers, each of them after separators. -/
def furtherNumbers : Peg :=
  .star (.seq (plus separator) number)

def ending : Peg :=
  .seq (.star separator) .finish

/-- The whole of a list. -/
def grammar : Peg :=
  .seq (.star separator) (.seq number (.seq furtherNumbers ending))

/-! ## Characters -/

theorem takes_digit : Takes digit Char.isDigit :=
  takes_one _

theorem takes_separator : Takes separator isSeparator :=
  (((takes_one _).choice (takes_one _)).choice (takes_one _)).choice (takes_one _)

theorem number_fails {cs : List Char} (h : ∀ c ∈ cs.head?, c.isDigit = false) :
    Matches number cs failed :=
  .tokenFails (takes_digit.plus_fails h)

/-! ## The next number -/

variable {cs : List Char} {rs : List (List Char)}

/-- After separators there is a digit. -/
def NumberAhead (cs : List Char) : Prop :=
  ∃ c ∈ (cs.dropWhile isSeparator).head?, c.isDigit = true

def nextNumber (cs : List Char) : List Char :=
  (cs.dropWhile isSeparator).takeWhile Char.isDigit

/-- What is left after separators and the next number. -/
def afterNumber (cs : List Char) : List Char :=
  (cs.dropWhile isSeparator).dropWhile Char.isDigit

/-- The text does not begin with a digit, as where a number has ended. -/
def NoDigitFirst (cs : List Char) : Prop :=
  ∀ c ∈ cs.head?, c.isDigit = false

theorem not_numberAhead_iff : ¬ NumberAhead cs ↔ NoDigitFirst (cs.dropWhile isSeparator) := by
  simp [NumberAhead, NoDigitFirst]

theorem noDigitFirst_afterNumber (cs : List Char) : NoDigitFirst (afterNumber cs) :=
  head?_dropWhile_eq_false _ _

theorem allowed_dropWhile_iff {p : Char → Bool}
    (hp : ∀ c, p c = true → c.isDigit = true ∨ c ∈ [',', ';', ' ', '\t']) :
    Allowed (cs.dropWhile p) ↔ Allowed cs := by
  conv_rhs => rw [← List.takeWhile_append_dropWhile (p := p) (l := cs)]
  unfold Allowed
  rw [List.forall_mem_append, and_iff_right fun c hc => hp c (List.mem_takeWhile_imp hc)]

theorem allowed_dropWhile_separator : Allowed (cs.dropWhile isSeparator) ↔ Allowed cs :=
  allowed_dropWhile_iff fun _ hc => Or.inr (isSeparator_iff.mp hc)

theorem allowed_afterNumber_iff : Allowed (afterNumber cs) ↔ Allowed cs := by
  rw [afterNumber, allowed_dropWhile_iff fun _ => Or.inl, allowed_dropWhile_separator]

/-- Separators, then something else than a number: this is allowed at the end of the text only. -/
theorem allowed_iff_of_no_number (h : ¬ NumberAhead cs) :
    Allowed cs ↔ cs.dropWhile isSeparator = [] := by
  rw [not_numberAhead_iff] at h
  rw [← allowed_dropWhile_separator]
  have hseparator := head?_dropWhile_eq_false isSeparator cs
  cases hrest : cs.dropWhile isSeparator with
  | nil => simp [Allowed]
  | cons c ds =>
    rw [hrest] at h hseparator
    refine iff_of_false (fun hall => ?_) (List.cons_ne_nil c ds)
    rcases hall c List.mem_cons_self with hdigit | hmem
    · rw [h c rfl] at hdigit
      cases hdigit
    · rw [← isSeparator_iff, hseparator c rfl] at hmem
      cases hmem

theorem MaximalRuns.of_dropWhile (h : MaximalRuns (cs.dropWhile isSeparator) rs) :
    MaximalRuns cs rs := by
  have hruns := h.after_gap fun _ => List.mem_takeWhile_imp (p := isSeparator) (l := cs)
  rwa [List.takeWhile_append_dropWhile] at hruns

namespace NumberAhead

variable (h : NumberAhead cs)

include h

theorem number_matches :
    Matches number (cs.dropWhile isSeparator) (taken [nextNumber cs] (afterNumber cs)) := by
  obtain ⟨c, hc, hdigit⟩ := h
  exact takes_digit.token_plus hc hdigit

theorem length_afterNumber_lt : (afterNumber cs).length < cs.length := by
  obtain ⟨c, hc, hdigit⟩ := h
  exact (length_dropWhile_lt hc hdigit).trans_le (List.length_dropWhile_le _ _)

theorem exists_digit : ∃ c ∈ cs, c.isDigit = true := by
  obtain ⟨c, hc, hdigit⟩ := h
  exact ⟨c, (List.dropWhile_suffix _).mem (List.mem_of_mem_head? hc), hdigit⟩

theorem maximalRuns (hrs : MaximalRuns (afterNumber cs) rs) :
    MaximalRuns cs (nextNumber cs :: rs) := by
  obtain ⟨c, hc, hdigit⟩ := h
  exact (hrs.of_digit hc hdigit).of_dropWhile

end NumberAhead

/-! ## The grammar -/

/-- Where a number has ended, a further one comes after at least one separator. -/
theorem furtherNumber_matches (h : NumberAhead cs) (hcs : NoDigitFirst cs) :
    Matches (.seq (plus separator) number) cs (taken [nextNumber cs] (afterNumber cs)) := by
  have hgap : Matches (plus separator) cs (taken [] (cs.dropWhile isSeparator)) := by
    cases cs with
    | nil => exact absurd h (not_numberAhead_iff.mpr hcs)
    | cons c cs =>
      cases hc : isSeparator c with
      | true => exact takes_separator.plus rfl hc
      | false =>
        have hstays : (c :: cs).dropWhile isSeparator = c :: cs :=
          List.dropWhile_cons_of_neg (by simp [hc])
        rw [← hstays, ← not_numberAhead_iff] at hcs
        exact absurd h hcs
  exact .seq hgap h.number_matches

/-- Separators without a number after them are given back. -/
theorem furtherNumber_fails (h : ¬ NumberAhead cs) :
    Matches (.seq (plus separator) number) cs failed := by
  by_cases hgap : ∀ c ∈ cs.head?, isSeparator c = false
  · exact .seqFails (takes_separator.plus_fails hgap)
  · push Not at hgap
    obtain ⟨c, hc, hseparator⟩ := hgap
    refine .seqFailsLater (takes_separator.plus hc (by simpa using hseparator)) ?_
    exact number_fails (not_numberAhead_iff.mp h)

/-- From the end of a number on. The induction is on the text: a further number leaves a shorter
    one, which does not begin with a digit either. -/
theorem furtherNumbers_matches (cs : List Char) (hcs : NoDigitFirst cs) :
    ∃ ts rest, Matches furtherNumbers cs (taken ts rest) ∧
      (Allowed cs ↔ rest.dropWhile isSeparator = []) ∧ (Allowed cs → MaximalRuns cs ts) := by
  induction hn : cs.length using Nat.strongRecOn generalizing cs with
  | ind n ih =>
    by_cases hnext : NumberAhead cs
    · obtain ⟨ts, rest, hfurther, hrest, hruns⟩ :=
        ih _ (hn ▸ hnext.length_afterNumber_lt) _ (noDigitFirst_afterNumber cs) rfl
      rw [allowed_afterNumber_iff] at hrest hruns
      exact ⟨_, rest, .star (furtherNumber_matches hnext hcs) hfurther, hrest,
        fun hall => hnext.maximalRuns (hruns hall)⟩
    · have hend := allowed_iff_of_no_number hnext
      exact ⟨[], cs, .starStops (furtherNumber_fails hnext), hend,
        fun hall => .of_dropWhile (hend.mp hall ▸ .nil)⟩

/-- The grammar after the first number. -/
theorem rest_matches (hcs : NoDigitFirst cs) :
    (Allowed cs ∧ ∃ rs, MaximalRuns cs rs ∧ Matches (.seq furtherNumbers ending) cs (taken rs [])) ∨
      (¬ Allowed cs ∧ Matches (.seq furtherNumbers ending) cs failed) := by
  obtain ⟨ts, rest, hfurther, hrest, hruns⟩ := furtherNumbers_matches cs hcs
  have hgap := takes_separator.star rest
  by_cases hall : Allowed cs
  · rw [hrest.mp hall] at hgap
    have hmatches := Matches.seq hfurther (.seq hgap .finish)
    rw [List.append_nil, List.append_nil] at hmatches
    exact Or.inl ⟨hall, ts, hruns hall, hmatches⟩
  · obtain ⟨c, left, hleft⟩ := List.exists_cons_of_ne_nil (mt hrest.mpr hall)
    rw [hleft] at hgap
    exact Or.inr ⟨hall, .seqFailsLater hfurther (.seqFailsLater hgap .finishFails)⟩

/-- The grammar takes the texts which can be listed, with their runs as tokens, and fails on all
    others. -/
theorem grammar_matches (cs : List Char) :
    (Listable cs ∧ ∃ rs, MaximalRuns cs rs ∧ Matches grammar cs (taken rs [])) ∨
      (¬ Listable cs ∧ Matches grammar cs failed) := by
  have hgap := takes_separator.star cs
  by_cases hnext : NumberAhead cs
  · have hnumber := hnext.number_matches
    rcases rest_matches (noDigitFirst_afterNumber cs) with ⟨hall, rs, hruns, hrest⟩ | ⟨hnot, hrest⟩
    · rw [allowed_afterNumber_iff] at hall
      exact Or.inl ⟨⟨hall, hnext.exists_digit⟩, _, hnext.maximalRuns hruns,
        .seq hgap (.seq hnumber hrest)⟩
    · rw [allowed_afterNumber_iff] at hnot
      exact Or.inr ⟨fun h => hnot h.1, .seqFailsLater hgap (.seqFailsLater hnumber hrest)⟩
  · have hfails := number_fails (not_numberAhead_iff.mp hnext)
    refine Or.inr ⟨fun h => ?_, .seqFailsLater hgap (.seqFails hfails)⟩
    obtain ⟨hall, c, hc, hdigit⟩ := h
    rw [allowed_iff_of_no_number hnext, List.dropWhile_eq_nil_iff] at hall
    rw [isDigit_of_isSeparator (hall c hc)] at hdigit
    cases hdigit

theorem matches_failed_iff : Matches grammar cs failed ↔ ¬ Listable cs := by
  rcases grammar_matches cs with ⟨hlist, rs, _, hmatches⟩ | ⟨hnot, hmatches⟩
  · exact iff_of_false (fun h => by cases h.unique hmatches) (not_not.mpr hlist)
  · exact iff_of_true hmatches hnot

theorem matches_taken_iff {rest : List Char} :
    Matches grammar cs (taken rs rest) ↔ Listable cs ∧ MaximalRuns cs rs ∧ rest = [] := by
  rcases grammar_matches cs with ⟨hlist, ts, hruns, hmatches⟩ | ⟨hnot, hmatches⟩
  · rw [and_iff_right hlist]
    constructor
    · intro h
      obtain ⟨rfl, rfl⟩ := taken.inj (h.unique hmatches)
      exact ⟨hruns, rfl⟩
    · rintro ⟨hrs, rfl⟩
      rwa [hrs.eq_runs, ← hruns.eq_runs]
  · exact iff_of_false (fun h => by cases h.unique hmatches) fun h => hnot h.1

/-- The outcome of the reader, and the grammar behind it. The reader refuses what the grammar does
    not take, namely the texts with a character which is neither a digit nor a separator and those
    without a digit. The tokens are the maximal runs of digits. If one of them is no signed 64-bit
    word the first such is quoted, else their values are the result. -/
theorem parse_by_grammar (text : String) :
    (∀ r, parse text = r ↔ Reads text r) ∧
      (∀ rs rest, Matches grammar text.toList (taken rs rest) ↔
        Listable text.toList ∧ MaximalRuns text.toList rs ∧ rest = []) ∧
      (Matches grammar text.toList failed ↔ ¬ Listable text.toList) :=
  ⟨fun _ => parse_eq_iff_reads, fun _ _ => matches_taken_iff, matches_failed_iff⟩

end TwoLevel.MintermList
