/-
  Different sums have different texts.

  What makes a table of symbols fit for this is stated apart from the tables (`Symbols.Legible`).
  Three conditions concern literals: what stands before an index has no digit, the two signs can be
  told apart, and what comes after a literal in a term does not continue it. So the literals of a
  term are found again from left to right (`literal_append_inj`, `further_inj`), also if the table
  has no symbol between them. The others concern constants, which begin in another way than products
  (`literals_eq_of_term_eq`), and the symbol between terms, whose first character is in no term, so
  that the terms are found by a cut at it (`Legible.pieces_inj`).

  The tables of all styles are legible (`Style.legible`).
-/
import TwoLevel.Proofs.Pieces
import TwoLevel.Proofs.Widths

namespace TwoLevel

namespace Symbols

variable (s : Symbols)

/-- What stands before the index of a literal. -/
def head : Bool → List Char
  | true => s.positiveHead
  | false => s.negativeHead

/-- What stands after the index of a literal. -/
def tail : Bool → List Char
  | true => []
  | false => s.negativeTail

/-- The symbols of which terms and constants are made. -/
def inTerms : List (List Char) :=
  [s.positiveHead, s.negativeHead, s.negativeTail, s.conj, s.left, s.right, s.truth, s.falsity]

/-- The text does not continue a literal which stands before it. -/
def EndsLiteral (cs : List Char) : Prop :=
  ∀ c ∈ cs.head?, c.isDigit = false ∧ s.negativeTail.head? ≠ some c

/-- The conditions under which a text can be taken apart in one way only. -/
structure Legible : Prop where
  /-- An index begins at the first digit. -/
  head_no_digit : ∀ b, (s.head b).any Char.isDigit = false
  /-- An index ends at the last digit. -/
  tail_no_digit : s.negativeTail.any Char.isDigit = false
  /-- A negative literal is marked before its index or after it. -/
  marked : s.positiveHead = s.negativeHead → s.negativeTail ≠ []
  /-- A further literal does not continue the one before it. -/
  next : ∀ b, ∃ c cs, s.conj ++ s.head b = c :: cs ∧ c.isDigit = false ∧
    s.negativeTail.head? ≠ some c
  /-- A product does not begin like a constant. -/
  opening : ∀ b, ∃ c cs, s.left ++ s.head b = c :: cs ∧ ∀ k, (s.bool k).head? ≠ some c
  constants : s.truth ≠ s.falsity
  /-- The first character between terms is not part of any. -/
  gap : ∃ c cs, s.disj = c :: cs ∧ c.isDigit = false ∧ ∀ symbol ∈ s.inTerms, c ∉ symbol

theorem literal_eq (l : Literal) :
    s.literal l = s.head l.positive ++ (Text.digits l.index ++ s.tail l.positive) := by
  cases h : l.positive <;> simp [literal, head, tail, h]

/-- The text of some literals, each after the symbol between literals. -/
def further (ls : List Literal) : List Char :=
  ls.flatMap fun l => s.conj ++ s.literal l

theorem intercalate_literal (l : Literal) (ls : List Literal) :
    s.conj.intercalate ((l :: ls).map s.literal) = s.literal l ++ s.further ls := by
  rw [List.map_cons, intercalate_cons_eq, List.flatMap_map]
  rfl

theorem term_of_universal {t : Cube} (h : t.literals = []) : s.term t = s.truth := by
  rw [term, if_pos (Cube.isUniversal_iff.mpr h)]
  rfl

theorem term_of_cons {t : Cube} {l : Literal} {ls : List Literal} (h : t.literals = l :: ls) :
    s.term t = s.left ++ (s.literal l ++ s.further ls) ++ s.right := by
  have huniversal : ¬ t.isUniversal = true := fun hu => by
    rw [Cube.isUniversal_iff, h] at hu
    cases hu
  rw [term, if_neg huniversal, h, intercalate_literal]

namespace Legible

variable {s} (hs : s.Legible)

include hs

/-! ## Literals -/

/-- The mark after a negative literal tells it from a positive one. -/
theorem negativeTail_append_ne {a b : List Char} (hheads : s.positiveHead = s.negativeHead)
    (hb : s.EndsLiteral b) : s.negativeTail ++ a ≠ b := by
  obtain ⟨c, cs, htail⟩ := List.exists_cons_of_ne_nil (hs.marked hheads)
  rintro rfl
  rw [htail] at hb
  exact (hb c rfl).2 (by rw [htail]; rfl)

/-- After the index of a literal there is no further digit. -/
theorem tail_append_no_digit {cs : List Char} (h : s.EndsLiteral cs) (b : Bool) :
    ∀ c ∈ (s.tail b ++ cs).head?, c.isDigit = false := by
  intro c hc
  cases htail : s.tail b with
  | nil =>
    rw [htail] at hc
    exact (h c hc).1
  | cons d ds =>
    rw [htail] at hc
    cases hc
    cases b with
    | true => cases htail
    | false =>
      have hmem : c ∈ s.negativeTail := List.mem_of_mem_head? (congrArg List.head? htail)
      simpa using List.any_eq_false.mp hs.tail_no_digit c hmem

/-- A literal is found again, up to a text which does not continue it. -/
theorem literal_append_inj {l k : Literal} {a b : List Char} (ha : s.EndsLiteral a)
    (hb : s.EndsLiteral b) (h : s.literal l ++ a = s.literal k ++ b) : l = k ∧ a = b := by
  rw [literal_eq, literal_eq] at h
  simp only [List.append_assoc] at h
  have hhead_digit : ∀ n cs, ∀ c ∈ (Text.digits n ++ cs).head?, (!c.isDigit) = false := by
    intro n cs c hc
    obtain ⟨d, ds, hdigits⟩ := List.exists_cons_of_ne_nil (Text.digits_ne_nil n)
    have hd : d ∈ Text.digits n := hdigits ▸ List.mem_cons_self
    rw [hdigits] at hc
    cases hc
    rw [Text.isDigit_of_mem_digits hd]
    rfl
  have hhead : ∀ b, ∀ c ∈ s.head b, (!c.isDigit) = true := fun b c hc => by
    simpa using List.any_eq_false.mp (hs.head_no_digit b) c hc
  obtain ⟨hheads, h⟩ := append_inj_of_span h (hhead _) (hhead _) (hhead_digit _ _) (hhead_digit _ _)
  obtain ⟨hdigits, h⟩ := append_inj_of_span h (fun _ => Text.isDigit_of_mem_digits)
    (fun _ => Text.isDigit_of_mem_digits) (hs.tail_append_no_digit ha _)
    (hs.tail_append_no_digit hb _)
  have hindex : l.index = k.index := by
    rw [← Text.value_digits l.index, hdigits, Text.value_digits]
  have hsign : l.positive = k.positive := by
    cases hl : l.positive <;> cases hk : k.positive <;> rw [hl, hk] at hheads h
    · exact absurd h (hs.negativeTail_append_ne hheads.symm hb)
    · exact absurd h.symm (hs.negativeTail_append_ne hheads ha)
  obtain ⟨i, p⟩ := l
  obtain ⟨j, q⟩ := k
  obtain rfl : i = j := hindex
  obtain rfl : p = q := hsign
  exact ⟨rfl, List.append_cancel_left h⟩

theorem further_endsLiteral (ls : List Literal) : s.EndsLiteral (s.further ls) := by
  intro d hd
  cases ls with
  | nil => cases hd
  | cons l ls =>
    obtain ⟨c, cs, hnext, hc⟩ := hs.next l.positive
    rw [further, List.flatMap_cons, literal_eq, ← List.append_assoc, hnext] at hd
    cases hd
    exact hc

theorem further_ne_nil (l : Literal) (ls : List Literal) : s.further (l :: ls) ≠ [] := by
  obtain ⟨c, cs, hnext, _⟩ := hs.next l.positive
  rw [further, List.flatMap_cons, literal_eq, ← List.append_assoc, hnext]
  exact List.cons_ne_nil _ _

/-- The literals of a product are found again from left to right. -/
theorem further_inj {ls ks : List Literal} (h : s.further ls = s.further ks) : ls = ks := by
  induction ls generalizing ks with
  | nil =>
    cases ks with
    | nil => rfl
    | cons k ks => exact absurd h.symm (hs.further_ne_nil k ks)
  | cons l ls ih =>
    cases ks with
    | nil => exact absurd h (hs.further_ne_nil l ls)
    | cons k ks =>
      have hliteral : s.literal l ++ s.further ls = s.literal k ++ s.further ks := by
        simp only [further, List.flatMap_cons, List.append_assoc] at h
        exact List.append_cancel_left h
      obtain ⟨rfl, hrest⟩ :=
        hs.literal_append_inj (hs.further_endsLiteral ls) (hs.further_endsLiteral ks) hliteral
      rw [ih hrest]

/-! ## Terms -/

/-- A product is not written like a constant. -/
theorem term_ne_bool {t : Cube} (h : t.literals ≠ []) (k : Bool) : s.term t ≠ s.bool k := by
  obtain ⟨l, ls, hls⟩ := List.exists_cons_of_ne_nil h
  obtain ⟨c, cs, hopening, hc⟩ := hs.opening l.positive
  intro heq
  refine hc k ?_
  rw [← heq, s.term_of_cons hls, literal_eq]
  simp only [List.append_assoc]
  rw [← List.append_assoc, hopening]
  rfl

theorem term_ne_falsity (t : Cube) : s.term t ≠ s.falsity := by
  by_cases h : t.literals = []
  · rw [s.term_of_universal h]
    exact hs.constants
  · exact hs.term_ne_bool h false

/-- The literals of a term can be read off from its text. -/
theorem literals_eq_of_term_eq {t u : Cube} (h : s.term t = s.term u) :
    t.literals = u.literals := by
  cases ht : t.literals with
  | nil =>
    by_contra hu
    rw [s.term_of_universal ht] at h
    exact hs.term_ne_bool (Ne.symm hu) true h.symm
  | cons l ls =>
    cases hu : u.literals with
    | nil =>
      rw [s.term_of_universal hu] at h
      exact absurd h (hs.term_ne_bool (ht ▸ List.cons_ne_nil l ls) true)
    | cons k ks =>
      rw [s.term_of_cons ht, s.term_of_cons hu] at h
      have hproduct := List.append_cancel_left (List.append_cancel_right h)
      obtain ⟨rfl, hrest⟩ :=
        hs.literal_append_inj (hs.further_endsLiteral ls) (hs.further_endsLiteral ks) hproduct
      rw [hs.further_inj hrest]

end Legible

section Gap

variable {c : Char} (hdigit : c.isDigit = false) (hc : ∀ symbol ∈ s.inTerms, c ∉ symbol)

include hdigit hc

theorem not_mem_literal (l : Literal) : c ∉ s.literal l := by
  simp only [inTerms, List.forall_mem_cons] at hc
  obtain ⟨hpositive, hnegative, htail, _⟩ := hc
  have hindex : c ∉ Text.digits l.index := fun hmem => by
    rw [Text.isDigit_of_mem_digits hmem] at hdigit
    cases hdigit
  cases h : l.positive <;> simp [literal, h, hpositive, hnegative, htail, hindex]

/-- Terms are made of digits and of the symbols for them. -/
theorem not_mem_term (t : Cube) : c ∉ s.term t := by
  have hliteral := s.not_mem_literal hdigit hc
  simp only [inTerms, List.forall_mem_cons] at hc
  obtain ⟨_, _, _, hconj, hleft, hright, htruth, _⟩ := hc
  cases ht : t.literals with
  | nil => rwa [s.term_of_universal ht]
  | cons l ls =>
    rw [s.term_of_cons ht]
    simp [further, hleft, hright, hconj, hliteral]

end Gap

/-- The texts between the separators. -/
def pieces (e : Expression) : List (List Char) :=
  if e.terms.isEmpty then [s.falsity] else e.terms.map s.term

theorem expression_eq (e : Expression) : s.expression e = s.disj.intercalate (s.pieces e) := by
  unfold expression pieces
  split
  · exact (List.intercalate_singleton).symm
  · rfl

theorem pieces_ne_nil (e : Expression) : s.pieces e ≠ [] := by
  unfold pieces
  split
  · exact List.cons_ne_nil _ _
  · next h => simpa using h

/-- The terms of a sum are found again by a cut at the gaps. -/
theorem Legible.pieces_inj {s : Symbols} (hs : s.Legible) {e d : Expression}
    (h : s.expression e = s.expression d) : s.pieces e = s.pieces d := by
  obtain ⟨c, cs, hdisj, hdigit, hc⟩ := hs.gap
  have hgap : ∀ e, ∀ p ∈ s.pieces e, c ∉ p := by
    intro e p hp
    unfold pieces at hp
    split at hp
    · rw [List.mem_singleton.mp hp]
      exact hc s.falsity (by simp [inTerms])
    · obtain ⟨t, _, rfl⟩ := List.mem_map.mp hp
      exact s.not_mem_term hdigit hc t
  rw [expression_eq, expression_eq, hdisj] at h
  exact intercalate_injective (s.pieces_ne_nil e) (s.pieces_ne_nil d) (hgap e) (hgap d) h

/-- The literals of all terms can be read off from the text of a sum. -/
theorem Legible.sameTerms {s : Symbols} (hs : s.Legible) {e d : Expression}
    (h : s.expression e = s.expression d) : Expression.SameTerms e d := by
  have hpieces := hs.pieces_inj h
  have hfalsity : ∀ {ts : List Cube}, ts.map s.term ≠ [s.falsity] := by
    intro ts hts
    obtain ⟨t, _, ht⟩ := List.mem_map.mp (hts ▸ List.mem_singleton_self s.falsity)
    exact hs.term_ne_falsity t ht
  unfold pieces at hpieces
  split at hpieces <;> split at hpieces
  · next he hd =>
    rw [Expression.SameTerms, List.isEmpty_iff.mp he, List.isEmpty_iff.mp hd]
  · exact absurd hpieces.symm hfalsity
  · exact absurd hpieces hfalsity
  · exact map_eq_of_map_eq hpieces fun _ _ => hs.literals_eq_of_term_eq

end Symbols

theorem Style.legible (style : Style) : style.symbols.Legible := by
  cases style <;> exact
    { head_no_digit := by decide
      tail_no_digit := by decide
      marked := by decide
      next := fun b => by cases b <;> exact ⟨_, _, rfl, by decide, by decide⟩
      opening := fun b => by cases b <;> exact ⟨_, _, rfl, by decide⟩
      constants := by decide
      gap := ⟨_, _, rfl, by decide, by decide⟩ }

namespace Expression

/-- In each style a text stands for at most one sum of a width. -/
theorem write_injective (style : Style) {e d : Expression} (he : e.Uniform) (hd : d.Uniform)
    (hwidth : e.width = d.width) (h : e.write style = d.write style) : e = d :=
  (style.legible.sameTerms (String.ofList_injective h)).eq he hd hwidth

/-- A sum which has been built in two ways. Nothing separates its literals but their heads. -/
theorem write_injective_built :
    let t := Cube.ofLiterals 12 [⟨11, false⟩, ⟨1, true⟩]
    let e := ofTerms 12 [t, .universal 12, t]
    let d := (ofTerms 12 [t]).push (.universal 12)
    e.Uniform ∧ d.Uniform ∧ e.width = d.width ∧
      e.write .mathematical = d.write .mathematical ∧ e = d := by
  intro t e d
  have he : e.Uniform := by decide +kernel
  have hd : d.Uniform := by decide +kernel
  have hwidth : e.width = d.width := by decide +kernel
  have htext : e.write .mathematical = d.write .mathematical := by decide +kernel
  exact ⟨he, hd, hwidth, htext, write_injective .mathematical he hd hwidth htext⟩

end Expression

end TwoLevel
