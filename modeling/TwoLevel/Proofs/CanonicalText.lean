/-
  The canonical text of an expression, read again.

  A text is built and read in three layers. What follows the `x` of a literal is read as this
  literal, provided that its index is below `variableLimit` (`readLiteral_tail`). The literals of a
  term follow each other, each with its `x`, and are found by a cut at the `x` (`readTerm_chars`).
  The terms stand between plus signs; they are read as their literals (`readTerms_of_readable`), or
  else the first one with an index which is too large is reported (`readTerms_of_not_readable`).

  In the width of the expression the literals of its terms give the expression again, hence the
  round trip (`parseWithWidth_text`). In the least width they give a sum with the same terms, so of
  as many terms and with the same values (`parse_text`).
-/
import TwoLevel.Proofs.Pieces
import TwoLevel.Proofs.Widths

namespace TwoLevel

/-! ## Literals -/

namespace Literal

/-- What the text of a literal has after the `x`. -/
def tail (l : Literal) : List Char :=
  Text.digits l.index ++ if l.positive then [] else ['\x60']

theorem literal_canonical (l : Literal) : Style.canonical.symbols.literal l = 'x' :: l.tail := by
  cases h : l.positive <;> simp [Symbols.literal, Style.symbols, tail, h]

theorem mem_tail {l : Literal} {c : Char} (h : c ∈ l.tail) : c.isDigit = true ∨ c = '\x60' := by
  rcases List.mem_append.mp h with h | h
  · exact Or.inl (Text.isDigit_of_mem_digits h)
  · cases hp : l.positive <;> simp_all

theorem takeWhile_tail (l : Literal) : l.tail.takeWhile Char.isDigit = Text.digits l.index := by
  rw [tail, List.takeWhile_append_of_pos fun c hc => Text.isDigit_of_mem_digits hc]
  cases l.positive <;> simp

theorem dropWhile_tail (l : Literal) :
    l.tail.dropWhile Char.isDigit = if l.positive then [] else ['\x60'] := by
  rw [tail, List.dropWhile_append_of_pos fun c hc => Text.isDigit_of_mem_digits hc]
  cases l.positive <;> simp

end Literal

theorem readLiteral_tail (l : Literal) :
    readLiteral l.tail = if l.index < variableLimit then some l else none := by
  unfold readLiteral
  simp only [Literal.takeWhile_tail, Literal.dropWhile_tail, Text.isCanonical_digits,
    Text.value_digits]
  by_cases hlt : l.index < variableLimit
  · obtain ⟨index, positive⟩ := l
    cases positive <;> simp_all
  · simp [hlt]

theorem mapM_readLiteral_tail (ls : List Literal) :
    (ls.map Literal.tail).mapM readLiteral =
      if ∀ l ∈ ls, l.index < variableLimit then some ls else none := by
  split
  · next hall =>
    rw [List.mapM_map]
    have hread : ∀ l ∈ ls, (readLiteral ∘ Literal.tail) l = pure l := fun l hl => by
      rw [Function.comp_apply, readLiteral_tail, if_pos (hall l hl)]
      rfl
    rw [mapM_eq_pure_map hread, List.map_id']
    rfl
  · next hnot =>
    push Not at hnot
    obtain ⟨l, hl, hlarge⟩ := hnot
    refine mapM_eq_none (List.mem_map_of_mem hl) ?_
    rw [readLiteral_tail, if_neg (Nat.not_lt.mpr hlarge)]

theorem readLiterals_flatMap {ls : List Literal} (hne : ls ≠ []) :
    readLiterals (ls.flatMap fun l => 'x' :: l.tail) =
      if ∀ l ∈ ls, l.index < variableLimit then some ls else none := by
  have hx : ∀ p ∈ ls.map Literal.tail, 'x' ∉ p := by
    intro p hp hmem
    obtain ⟨l, _, rfl⟩ := List.mem_map.mp hp
    rcases Literal.mem_tail hmem with h | h <;> exact absurd h (by decide)
  have hsplit : (ls.flatMap fun l => 'x' :: l.tail).splitOn 'x' = [] :: ls.map Literal.tail := by
    have h := splitOn_flatMap_cons hx
    rwa [List.flatMap_map] at h
  rw [← mapM_readLiteral_tail, readLiterals, hsplit]
  obtain ⟨l, ls, rfl⟩ := List.exists_cons_of_ne_nil hne
  rfl

/-! ## Terms -/

namespace Cube

/-- Every variable which the term fixes can be read. -/
def Readable (t : Cube) : Prop :=
  ∀ l ∈ t.literals, l.index < variableLimit

instance (t : Cube) : Decidable t.Readable :=
  inferInstanceAs (Decidable (∀ l ∈ t.literals, l.index < variableLimit))

/-- The canonical text of a term. -/
def chars (t : Cube) : List Char :=
  Style.canonical.symbols.term t

theorem chars_of_universal {t : Cube} (h : t.literals = []) : t.chars = ['1'] := by
  rw [chars, Symbols.term, if_pos (isUniversal_iff.mpr h)]
  rfl

theorem chars_of_literals {t : Cube} (h : t.literals ≠ []) :
    t.chars = t.literals.flatMap fun l => 'x' :: l.tail := by
  rw [chars, Symbols.term, if_neg (mt isUniversal_iff.mp h)]
  show [] ++ [].intercalate (t.literals.map Style.canonical.symbols.literal) ++ [] = _
  rw [List.nil_append, List.append_nil, intercalate_nil_eq_flatten]
  exact congrArg List.flatten (List.map_congr_left fun l _ => l.literal_canonical)

theorem chars_eq_cons (t : Cube) : t.chars = ['1'] ∨ ∃ cs, t.chars = 'x' :: cs := by
  by_cases h : t.literals = []
  · exact Or.inl (chars_of_universal h)
  · obtain ⟨l, ls, hls⟩ := List.exists_cons_of_ne_nil h
    refine Or.inr ⟨l.tail ++ ls.flatMap fun l => 'x' :: l.tail, ?_⟩
    rw [chars_of_literals h, hls]
    rfl

theorem mem_chars {t : Cube} {c : Char} (h : c ∈ t.chars) :
    c = '1' ∨ c = 'x' ∨ c.isDigit = true ∨ c = '\x60' := by
  by_cases hls : t.literals = []
  · rw [chars_of_universal hls, List.mem_singleton] at h
    exact Or.inl h
  · rw [chars_of_literals hls, List.mem_flatMap] at h
    obtain ⟨l, _, hc⟩ := h
    rcases List.mem_cons.mp hc with rfl | hc
    · exact Or.inr (Or.inl rfl)
    · exact Or.inr (Or.inr (Literal.mem_tail hc))

end Cube

/-- A term is read as its literals, or it is quoted because one of its indices is too large. -/
theorem readTerm_chars (t : Cube) :
    readTerm t.chars =
      if t.Readable then .ok t.literals else .error (.term (String.ofList t.chars)) := by
  by_cases hls : t.literals = []
  · have hreadable : t.Readable := fun l hl => by rw [hls] at hl; cases hl
    rw [Cube.chars_of_universal hls, if_pos hreadable, hls]
    rfl
  · have hone : t.chars ≠ ['1'] := by
      obtain ⟨l, ls, h⟩ := List.exists_cons_of_ne_nil hls
      rw [Cube.chars_of_literals hls, h]
      simp
    have hread : readLiterals t.chars = if t.Readable then some t.literals else none := by
      rw [Cube.chars_of_literals hls]
      exact readLiterals_flatMap hls
    rw [readTerm, if_neg hone, hread]
    split <;> simp_all

theorem tight_chars (t : Cube) : Text.Tight t.chars := by
  refine Text.tight_of_no_blank ?_ fun c hc => ?_
  · rcases t.chars_eq_cons with h | ⟨cs, h⟩ <;> simp [h]
  · rcases Cube.mem_chars hc with rfl | rfl | hdigit | rfl
    · rfl
    · rfl
    · exact Text.isBlank_of_isDigit hdigit
    · rfl

/-! ## Sums -/

namespace Expression

variable {e : Expression}

theorem expression_of_terms (h : e.terms ≠ []) :
    Style.canonical.symbols.expression e =
      [' ', '+', ' '].intercalate (e.terms.map Cube.chars) := by
  rw [Symbols.expression, if_neg (by simpa using h)]
  rfl

/-- The terms of a text are read one after the other. -/
theorem readTerms_expression (e : Expression) :
    readTerms (Style.canonical.symbols.expression e) =
      (e.terms.map Cube.chars).mapM readTerm := by
  by_cases hterms : e.terms = []
  · rw [Symbols.expression, hterms]
    rfl
  · have hne : e.terms.map Cube.chars ≠ [] := by simpa using hterms
    have htight : ∀ p ∈ e.terms.map Cube.chars, Text.Tight p :=
      List.forall_mem_map.mpr fun t _ => tight_chars t
    have hplus : ∀ p ∈ e.terms.map Cube.chars, '+' ∉ p := by
      refine List.forall_mem_map.mpr fun t _ hmem => ?_
      rcases Cube.mem_chars hmem with h | h | h | h <;> exact absurd h (by decide)
    -- A term begins with `1` or `x`, so that the text is not that of the empty sum.
    have hzero : [' ', '+', ' '].intercalate (e.terms.map Cube.chars) ≠ ['0'] := by
      obtain ⟨t, ts, hts⟩ := List.exists_cons_of_ne_nil hterms
      rw [hts, List.map_cons, intercalate_cons_eq]
      rcases t.chars_eq_cons with h | ⟨cs, h⟩ <;> simp [h]
    rw [expression_of_terms hterms, readTerms]
    simp only [(Text.tight_intercalate _ hne htight).trim, if_neg hzero,
      Text.map_trim_splitOn_intercalate hne hplus htight]

/-- If no index is too large, the terms are read as their literals. -/
theorem readTerms_of_readable (h : ∀ t ∈ e.terms, t.Readable) :
    readTerms (Style.canonical.symbols.expression e) = .ok (e.terms.map Cube.literals) := by
  rw [readTerms_expression, List.mapM_map]
  refine mapM_eq_pure_map fun t ht => ?_
  rw [Function.comp_apply, readTerm_chars, if_pos (h t ht)]
  rfl

/-- Otherwise the first term with an index which is too large is quoted. -/
theorem readTerms_of_not_readable {before after : List Cube} {t : Cube}
    (hterms : e.terms = before ++ t :: after) (hbefore : ∀ u ∈ before, u.Readable)
    (ht : ¬ t.Readable) :
    readTerms (Style.canonical.symbols.expression e) =
      .error (.term (String.ofList t.chars)) := by
  rw [readTerms_expression, hterms, List.mapM_map]
  refine mapM_eq_error (fun u hu => ⟨u.literals, ?_⟩) ?_
  · rw [Function.comp_apply, readTerm_chars, if_pos (hbefore u hu)]
  · rw [Function.comp_apply, readTerm_chars, if_neg ht]

/-! ## Literals in their own width -/

/-- In the width of the sum, the literals of its terms give the sum again. -/
theorem ofLiterals_literals {w : Nat} (hwidth : e.width = w) (hterms : ∀ t ∈ e.terms, t.width = w) :
    ofLiterals w (e.terms.map Cube.literals) = e := by
  refine ext_terms hwidth.symm ?_
  show ((e.terms.map Cube.literals).map (Cube.ofLiterals w)).eraseDups = e.terms
  rw [map_ofLiterals hterms, eraseDups_of_nodup e.nodup]

theorem toList_text (e : Expression) : e.text.toList = Style.canonical.symbols.expression e :=
  String.toList_ofList

theorem parseWithWidth_of_readable {w : Nat} (hwidth : e.width = w)
    (hterms : ∀ t ∈ e.terms, t.width = w) (h : ∀ t ∈ e.terms, t.Readable) :
    parseWithWidth e.text w = .ok e := by
  have hfind :
      (e.terms.map Cube.literals).flatten.find? (fun l => decide (w ≤ l.index)) = none := by
    refine List.find?_eq_none.mpr fun l hl => ?_
    obtain ⟨ls, hls, hl⟩ := List.mem_flatten.mp hl
    obtain ⟨t, ht, rfl⟩ := List.mem_map.mp hls
    simpa using hterms t ht ▸ Cube.index_lt_of_mem_literals hl
  unfold parseWithWidth
  rw [toList_text, readTerms_of_readable h]
  simp only [bind, Except.bind, hfind, ofLiterals_literals hwidth hterms]
  rfl

/-- The canonical text of a sum which has been built in a width, read in this width. It gives the
    sum itself, unless some term fixes a variable from 64 up: then the first such term is quoted. -/
theorem parseWithWidth_text {w : Nat} (h : Built w e) :
    ((∀ t ∈ e.terms, t.Readable) → parseWithWidth e.text w = .ok e) ∧
      ((¬ ∀ t ∈ e.terms, t.Readable) →
        ∃ before t after, e.terms = before ++ t :: after ∧ (∀ u ∈ before, u.Readable) ∧
          ¬ t.Readable ∧ parseWithWidth e.text w = .error (.term (String.ofList t.chars))) := by
  obtain ⟨hwidth, hterms⟩ := h.width_terms
  refine ⟨parseWithWidth_of_readable hwidth hterms, fun hnot => ?_⟩
  obtain ⟨before, t, after, heq, hbefore, ht⟩ := exists_first_not hnot
  refine ⟨before, t, after, heq, hbefore, ht, ?_⟩
  unfold parseWithWidth
  rw [toList_text, readTerms_of_not_readable heq hbefore ht]
  rfl

/-- The variable 63 can be read, and the variable 64 cannot. -/
theorem parseWithWidth_text_at_limit :
    let e := (ofTerms 65 [.universal 65]).push (.ofLiterals 65 [⟨63, true⟩, ⟨7, false⟩])
    let d := e.push (.ofLiterals 65 [⟨64, true⟩])
    Built 65 e ∧ parseWithWidth e.text 65 = .ok e ∧ Built 65 d ∧
      ∃ before t after, d.terms = before ++ t :: after ∧ (∀ u ∈ before, u.Readable) ∧
        ¬ t.Readable ∧ parseWithWidth d.text 65 = .error (.term (String.ofList t.chars)) := by
  intro e d
  have he : Built 65 e :=
    .push (.ofTerms (List.forall_mem_singleton.mpr (Cube.width_universal 65)))
      (Cube.width_ofLiterals 65 _)
  have hd : Built 65 d := .push he (Cube.width_ofLiterals 65 _)
  exact ⟨he, (parseWithWidth_text he).1 (by decide +kernel), hd,
    (parseWithWidth_text hd).2 (by decide +kernel)⟩

/-! ## Literals in another width -/

theorem index_lt_widthOf {terms : List (List Literal)} {lits : List Literal} {l : Literal}
    (hlits : lits ∈ terms) (hl : l ∈ lits) : l.index < widthOf terms :=
  List.le_max?_getD_of_mem (List.mem_map_of_mem (List.mem_flatten.mpr ⟨lits, hlits, hl⟩))

/-- A sum has the same terms as the one which is read from its text without its width. -/
theorem sameTerms_widthOf (huniform : e.Uniform) :
    SameTerms (ofLiterals (widthOf (e.terms.map Cube.literals)) (e.terms.map Cube.literals)) e := by
  have hfits : ∀ lits ∈ e.terms.map Cube.literals, ∀ l ∈ lits, l.index < e.width :=
    List.forall_mem_map.mpr fun t ht l hl => huniform t ht ▸ Cube.index_lt_of_mem_literals hl
  have hsame := sameTerms_ofLiterals (fun _ hlits _ hl => index_lt_widthOf hlits hl) hfits
  rwa [ofLiterals_literals rfl huniform] at hsame

/-- The canonical text can be read without its width. The sum then has as many terms and the same
    values. -/
theorem parse_text (huniform : e.Uniform) (h : ∀ t ∈ e.terms, t.Readable) :
    ∃ d, parse e.text = .ok d ∧ d.size = e.size ∧ ∀ n, d.eval n = e.eval n := by
  refine ⟨_, ?_, (sameTerms_widthOf huniform).size, (sameTerms_widthOf huniform).eval⟩
  unfold parse
  rw [toList_text, readTerms_of_readable h]
  rfl

end Expression

end TwoLevel
