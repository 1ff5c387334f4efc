/-
  Which texts are read as sums of products, and what the sums are.

  The grammar is given apart from the reader: `SpellsLiteral` for the text of a literal,
  `SpellsTerm` for a piece between plus signs. The reader cuts a piece at every `x` and reads the
  index and the mark of each part; it accepts exactly the pieces of the grammar
  (`readTerm_eq_ok_iff`), and quotes any other one (`readTerm_eq_error`). A text is accepted if all
  its pieces are, else the first piece which is not accepted is quoted.

  A term may name a variable more than once. Its cube then has the last literal which does
  (`polarity?_eq_some_iff_last`), so that the sum is true where, for some piece, the last literals
  on all variables hold (`eval_ofLiterals`). `parse_grammar` puts this together.
-/
import TwoLevel.Proofs.CanonicalText

namespace TwoLevel

/-! ## The grammar -/

/-- The digits of an index: `0`, or a non-empty list which does not begin with `0`. -/
inductive IsIndex : List Char → Prop
  | zero : IsIndex ['0']
  | nonzero {d : Char} {ds : List Char} (hd : d.isDigit = true) (hne : d ≠ '0')
      (hds : ∀ c ∈ ds, c.isDigit = true) : IsIndex (d :: ds)

/-- The text of a literal: `x`, an index, and a backquote if the literal is negative. -/
inductive SpellsLiteral : List Char → Literal → Prop
  | positive {ds : List Char} (h : IsIndex ds) : SpellsLiteral ('x' :: ds) ⟨Text.value ds, true⟩
  | negative {ds : List Char} (h : IsIndex ds) :
      SpellsLiteral ('x' :: (ds ++ ['\x60'])) ⟨Text.value ds, false⟩

/-- The text of a term: `1`, or a non-empty sequence of literals with indices below the limit. -/
inductive SpellsTerm : List Char → List Literal → Prop
  | truth : SpellsTerm ['1'] []
  | product {texts : List (List Char)} {lits : List Literal} (hne : lits ≠ [])
      (h : List.Forall₂ SpellsLiteral texts lits) (hlimit : ∀ l ∈ lits, l.index < variableLimit) :
      SpellsTerm texts.flatten lits

/-- The pieces of a text between plus signs, without the blanks around them. -/
def sumPieces (text : String) : List (List Char) :=
  ((Text.trim text.toList).splitOn '+').map Text.trim

/-- Of the literals on each variable which is named, the last one holds on the minterm. -/
def LastLiteralsHold (lits : List Literal) (n : UInt64) : Prop :=
  ∀ before l after, lits = before ++ l :: after → (∀ k ∈ after, k.index ≠ l.index) →
    l.eval n = true

/-! ## Literals -/

theorem isIndex_iff {ds : List Char} : IsIndex ds ↔ Text.isCanonical ds = true := by
  rw [Text.isCanonical, Bool.and_eq_true, Bool.or_eq_true, List.all_eq_true, beq_iff_eq]
  constructor
  · intro h
    cases h with
    | zero => exact ⟨List.forall_mem_singleton.mpr rfl, Or.inl rfl⟩
    | nonzero hd hne hds => exact ⟨List.forall_mem_cons.mpr ⟨hd, hds⟩, Or.inr (by simp [hne])⟩
  · intro h
    obtain ⟨hdigits, rfl | hhead⟩ := h
    · exact .zero
    · cases ds with
      | nil => cases hhead
      | cons d ds =>
        obtain ⟨hd, hds⟩ := List.forall_mem_cons.mp hdigits
        exact .nonzero hd (by simpa using hhead) hds

/-- A literal has one text, the canonical one. -/
theorem spellsLiteral_iff {cs : List Char} {l : Literal} :
    SpellsLiteral cs l ↔ cs = 'x' :: l.tail := by
  constructor
  · intro h
    cases h with
    | positive h => rw [Literal.tail, Text.digits_value (isIndex_iff.mp h)]; simp
    | negative h => rw [Literal.tail, Text.digits_value (isIndex_iff.mp h)]; simp
  · intro h
    have hindex : IsIndex (Text.digits l.index) := isIndex_iff.mpr (Text.isCanonical_digits l.index)
    obtain ⟨index, positive⟩ := l
    rw [h, ← Text.value_digits index]
    cases positive with
    | true => simpa [Literal.tail] using SpellsLiteral.positive hindex
    | false => simpa [Literal.tail] using SpellsLiteral.negative hindex

theorem forall₂_spellsLiteral_iff {texts : List (List Char)} {lits : List Literal} :
    List.Forall₂ SpellsLiteral texts lits ↔ texts = lits.map fun l => 'x' :: l.tail := by
  have hspells : SpellsLiteral = fun cs l => cs = 'x' :: l.tail :=
    funext₂ fun _ _ => propext spellsLiteral_iff
  rw [hspells, ← List.forall₂_map_right_iff, List.forall₂_eq_eq_eq]

theorem eq_tail_of_readLiteral {cs : List Char} {l : Literal} (h : readLiteral cs = some l) :
    cs = l.tail := by
  have hcs := List.takeWhile_append_dropWhile (p := Char.isDigit) (l := cs)
  unfold readLiteral at h
  dsimp only at h
  split at h
  · next hindex =>
    rw [Bool.and_eq_true] at hindex
    rw [← Text.digits_value hindex.1] at hcs
    split at h
    · next hmark =>
      cases h
      exact (hmark ▸ hcs).symm
    · next hmark =>
      cases h
      exact (hmark ▸ hcs).symm
    · cases h
  · cases h

/-! ## Terms -/

/-- What stands before the first `x` has to be empty, and each part after an `x` is a literal. -/
theorem readLiterals_eq_some_iff {cs : List Char} {lits : List Literal} :
    readLiterals cs = some lits ↔ lits ≠ [] ∧ (cs = lits.flatMap fun l => 'x' :: l.tail) ∧
      ∀ l ∈ lits, l.index < variableLimit := by
  constructor
  · intro h
    unfold readLiterals at h
    split at h
    · next piece pieces hsplit =>
      have hcs : ['x'].intercalate (cs.splitOn 'x') = cs := List.intercalate_splitOn 'x'
      rw [hsplit, intercalate_cons_eq, List.nil_append] at hcs
      have hpieces : piece :: pieces = lits.map Literal.tail := by
        rw [← List.forall₂_eq_eq_eq, List.forall₂_map_right_iff]
        exact (mapM_eq_some_iff.mp h).imp fun _ _ => eq_tail_of_readLiteral
      have hne : lits ≠ [] := by
        rintro rfl
        cases hpieces
      rw [hpieces, List.flatMap_map] at hcs
      rw [hpieces, mapM_readLiteral_tail] at h
      split at h
      · next hlimit => exact ⟨hne, hcs.symm, hlimit⟩
      · cases h
    · cases h
  · intro h
    obtain ⟨hne, rfl, hlimit⟩ := h
    rw [readLiterals_flatMap hne, if_pos hlimit]

theorem spellsTerm_iff {cs : List Char} {lits : List Literal} :
    SpellsTerm cs lits ↔ (cs = ['1'] ∧ lits = []) ∨ readLiterals cs = some lits := by
  rw [readLiterals_eq_some_iff]
  constructor
  · intro h
    cases h with
    | truth => exact Or.inl ⟨rfl, rfl⟩
    | product hne h hlimit =>
      rw [forall₂_spellsLiteral_iff] at h
      subst h
      exact Or.inr ⟨hne, rfl, hlimit⟩
  · rintro (⟨rfl, rfl⟩ | ⟨hne, rfl, hlimit⟩)
    · exact .truth
    · exact .product hne (forall₂_spellsLiteral_iff.mpr rfl) hlimit

/-- The reader accepts the terms of the grammar. -/
theorem readTerm_eq_ok_iff {cs : List Char} {lits : List Literal} :
    readTerm cs = .ok lits ↔ SpellsTerm cs lits := by
  rw [spellsTerm_iff]
  by_cases hone : cs = ['1']
  · subst hone
    have hread : readLiterals ['1'] = none := rfl
    rw [readTerm, if_pos rfl, hread]
    simp [eq_comm]
  · rw [readTerm, if_neg hone]
    cases readLiterals cs <;> simp [hone]

/-- Any other piece is quoted. -/
theorem readTerm_eq_error {cs : List Char} (h : ¬ ∃ lits, SpellsTerm cs lits) :
    readTerm cs = .error (.term (String.ofList cs)) := by
  have hone : cs ≠ ['1'] := fun heq => h ⟨[], heq ▸ .truth⟩
  have hread : readLiterals cs = none :=
    Option.eq_none_iff_forall_ne_some.mpr fun lits hlits =>
      h ⟨lits, spellsTerm_iff.mpr (Or.inr hlits)⟩
  rw [readTerm, if_neg hone, hread]

/-- A piece spells one term only. -/
theorem SpellsTerm.unique {cs : List Char} {lits others : List Literal} (h : SpellsTerm cs lits)
    (h' : SpellsTerm cs others) : lits = others :=
  Except.ok.inj ((readTerm_eq_ok_iff.mpr h).symm.trans (readTerm_eq_ok_iff.mpr h'))

/-! ## Repeated variables -/

theorem polarity?_eq_none {lits : List Literal} {v : Nat} (h : ∀ l ∈ lits, l.index ≠ v) :
    Literal.polarity? lits v = none := by
  refine Option.eq_none_iff_forall_ne_some.mpr fun b hb => ?_
  exact h ⟨v, b⟩ (Literal.mem_of_polarity?_eq_some hb) rfl

/-- Of the literals on one variable the last one counts. -/
theorem polarity?_eq_some_iff_last {lits : List Literal} {v : Nat} {b : Bool} :
    Literal.polarity? lits v = some b ↔
      ∃ before after, lits = before ++ ⟨v, b⟩ :: after ∧ ∀ k ∈ after, k.index ≠ v := by
  induction lits with
  | nil => simp [Literal.polarity?]
  | cons l lits ih =>
    rw [Literal.polarity?, Option.or_eq_some_iff, ih]
    constructor
    · rintro (⟨before, after, rfl, hafter⟩ | ⟨hnone, hl⟩)
      · exact ⟨l :: before, after, rfl, hafter⟩
      · split at hl
        · next heq =>
          cases hl
          refine ⟨[], lits, by rw [← heq]; rfl, fun k hk hkv => ?_⟩
          have hsome := Literal.polarity?_isSome hk
          rw [hkv, hnone] at hsome
          cases hsome
        · cases hl
    · rintro ⟨before, after, heq, hafter⟩
      cases before with
      | nil =>
        obtain ⟨rfl, rfl⟩ := List.cons.inj heq
        exact Or.inr ⟨polarity?_eq_none hafter, if_pos rfl⟩
      | cons k before =>
        obtain ⟨rfl, rfl⟩ := List.cons.inj heq
        exact Or.inl ⟨before, after, rfl, hafter⟩

theorem Cube.eval_ofLiterals {w : Nat} {lits : List Literal} (h : ∀ l ∈ lits, l.index < w)
    (n : UInt64) : (Cube.ofLiterals w lits).eval n = true ↔ LastLiteralsHold lits n := by
  rw [Cube.eval, List.all_eq_true]
  simp only [Cube.literals, Cube.ofLiterals, Cube.mem_literalsOf_descending,
    Ternary.polarity?_ofPolarity, polarity?_eq_some_iff_last]
  constructor
  · intro hall before l after heq hafter
    have hl : l ∈ lits := heq ▸ List.mem_append_right before List.mem_cons_self
    exact hall l ⟨h l hl, before, after, heq, hafter⟩
  · rintro hlast l ⟨_, before, after, heq, hafter⟩
    exact hlast before l after heq hafter

/-- If no variable is named twice, all literals have to hold. -/
theorem lastLiteralsHold_iff_of_nodup {lits : List Literal} (h : (lits.map Literal.index).Nodup)
    {n : UInt64} : LastLiteralsHold lits n ↔ ∀ l ∈ lits, l.eval n = true := by
  constructor
  · intro hlast l hl
    obtain ⟨before, after, rfl⟩ := List.append_of_mem hl
    refine hlast before l after rfl fun k hk heq => ?_
    rw [List.map_append, List.map_cons, List.nodup_append] at h
    exact (List.nodup_cons.mp h.2.1).1 (heq ▸ List.mem_map_of_mem hk)
  · rintro hall before l after rfl _
    exact hall l (List.mem_append_right before List.mem_cons_self)

/-! ## Sums -/

namespace Expression

theorem eval_ofLiterals {w : Nat} {terms : List (List Literal)}
    (h : ∀ lits ∈ terms, ∀ l ∈ lits, l.index < w) (n : UInt64) :
    (ofLiterals w terms).eval n = true ↔ ∃ lits ∈ terms, LastLiteralsHold lits n := by
  simp only [eval, List.any_eq_true, ofLiterals, mem_terms_ofTerms, List.mem_map,
    exists_exists_and_eq_and]
  exact exists_congr fun lits => and_congr_right fun hlits => Cube.eval_ofLiterals (h lits hlits) n

theorem parse_eq_ok_iff {text : String} {e : Expression} :
    parse text = .ok e ↔
      ∃ terms, readTerms text.toList = .ok terms ∧ e = ofLiterals (widthOf terms) terms := by
  unfold parse
  cases readTerms text.toList <;> simp [bind, Except.bind, pure, Except.pure, eq_comm]

theorem parse_eq_error_iff {text : String} {err : TextError} :
    parse text = .error err ↔ readTerms text.toList = .error err := by
  unfold parse
  cases readTerms text.toList <;> simp [bind, Except.bind, pure, Except.pure]

end Expression

section Pieces

variable {text : String}

theorem readTerms_of_zero (h : Text.trim text.toList = ['0']) :
    readTerms text.toList = .ok [] := by
  rw [readTerms, h]
  rfl

variable (h : Text.trim text.toList ≠ ['0'])

include h

theorem readTerms_eq_mapM : readTerms text.toList = (sumPieces text).mapM readTerm := by
  rw [readTerms]
  exact if_neg h

theorem readTerms_eq_ok_iff {terms : List (List Literal)} :
    readTerms text.toList = .ok terms ↔ List.Forall₂ SpellsTerm (sumPieces text) terms := by
  rw [readTerms_eq_mapM h, mapM_eq_ok_iff]
  simp only [readTerm_eq_ok_iff]

theorem exists_readTerms_eq_ok_iff :
    (∃ terms, readTerms text.toList = .ok terms) ↔
      ∀ p ∈ sumPieces text, ∃ lits, SpellsTerm p lits := by
  simp only [readTerms_eq_ok_iff h, exists_forall₂_iff]

theorem readTerms_eq_error {before after : List (List Char)} {p : List Char}
    (heq : sumPieces text = before ++ p :: after)
    (hbefore : ∀ q ∈ before, ∃ lits, SpellsTerm q lits) (hp : ¬ ∃ lits, SpellsTerm p lits) :
    readTerms text.toList = .error (.term (String.ofList p)) := by
  rw [readTerms_eq_mapM h, heq]
  refine mapM_eq_error (fun q hq => ?_) (readTerm_eq_error hp)
  exact (hbefore q hq).imp fun _ => readTerm_eq_ok_iff.mpr

/-- If not all pieces are accepted, there is a first one which is not, and it alone is quoted. -/
theorem readTerms_eq_error_iff {err : TextError} :
    readTerms text.toList = .error err ↔
      ∃ before p after, sumPieces text = before ++ p :: after ∧
        (∀ q ∈ before, ∃ lits, SpellsTerm q lits) ∧ (¬ ∃ lits, SpellsTerm p lits) ∧
        err = .term (String.ofList p) := by
  constructor
  · intro herr
    have hnot : ¬ ∀ p ∈ sumPieces text, ∃ lits, SpellsTerm p lits := by
      rw [← exists_readTerms_eq_ok_iff h, herr]
      simp
    obtain ⟨before, p, after, heq, hbefore, hp⟩ := exists_first_not hnot
    rw [readTerms_eq_error h heq hbefore hp] at herr
    exact ⟨before, p, after, heq, hbefore, hp, (Except.error.inj herr).symm⟩
  · rintro ⟨before, p, after, heq, hbefore, hp, rfl⟩
    exact readTerms_eq_error h heq hbefore hp

/-- The terms read are those which the pieces spell. -/
theorem exists_mem_terms_iff {terms : List (List Literal)}
    (hread : readTerms text.toList = .ok terms) {P : List Literal → Prop} :
    (∃ lits ∈ terms, P lits) ↔ ∃ p ∈ sumPieces text, ∃ lits, SpellsTerm p lits ∧ P lits :=
  exists_mem_iff_of_forall₂ ((readTerms_eq_ok_iff h).mp hread) fun _ _ _ => SpellsTerm.unique

end Pieces

/-! ## What a text denotes -/

section Denotation

variable {text : String}

theorem exists_parse_eq_ok_iff :
    (∃ e, Expression.parse text = .ok e) ↔
      Text.trim text.toList = ['0'] ∨ ∀ p ∈ sumPieces text, ∃ lits, SpellsTerm p lits := by
  have hok : (∃ e, Expression.parse text = .ok e) ↔
      ∃ terms, readTerms text.toList = .ok terms := by
    simp only [Expression.parse_eq_ok_iff]
    rw [exists_comm]
    simp
  rw [hok]
  by_cases hzero : Text.trim text.toList = ['0']
  · exact iff_of_true ⟨[], readTerms_of_zero hzero⟩ (Or.inl hzero)
  · rw [exists_readTerms_eq_ok_iff hzero, or_iff_right hzero]

theorem parse_eq_error_iff_first {err : TextError} :
    Expression.parse text = .error err ↔ Text.trim text.toList ≠ ['0'] ∧
      ∃ before p after, sumPieces text = before ++ p :: after ∧
        (∀ q ∈ before, ∃ lits, SpellsTerm q lits) ∧ (¬ ∃ lits, SpellsTerm p lits) ∧
        err = .term (String.ofList p) := by
  rw [Expression.parse_eq_error_iff]
  by_cases hzero : Text.trim text.toList = ['0']
  · simp [readTerms_of_zero hzero, hzero]
  · rw [readTerms_eq_error_iff hzero, and_iff_right hzero]

theorem eval_of_parse {e : Expression} (he : Expression.parse text = .ok e) (n : UInt64) :
    e.eval n = true ↔ Text.trim text.toList ≠ ['0'] ∧
      ∃ p ∈ sumPieces text, ∃ lits, SpellsTerm p lits ∧ LastLiteralsHold lits n := by
  obtain ⟨terms, hread, rfl⟩ := Expression.parse_eq_ok_iff.mp he
  rw [Expression.eval_ofLiterals fun lits hlits l hl => Expression.index_lt_widthOf hlits hl]
  by_cases hzero : Text.trim text.toList = ['0']
  · obtain rfl := Except.ok.inj ((readTerms_of_zero hzero).symm.trans hread)
    simp [hzero]
  · rw [and_iff_right hzero, exists_mem_terms_iff hzero hread]

end Denotation

/-- What a text denotes. It is the empty sum if it is `0` without the blanks around it. Else it is
    a sum if each piece spells a term, and otherwise the first piece which does not is quoted. The
    sum is true on a minterm if, for some piece, the last literals on all variables hold. A piece
    spells one term only; if no variable is repeated in it, the term is the plain conjunction. -/
theorem parse_grammar (text : String) :
    ((∃ e, Expression.parse text = .ok e) ↔
      Text.trim text.toList = ['0'] ∨ ∀ p ∈ sumPieces text, ∃ lits, SpellsTerm p lits) ∧
    (∀ err, Expression.parse text = .error err ↔ Text.trim text.toList ≠ ['0'] ∧
      ∃ before p after, sumPieces text = before ++ p :: after ∧
        (∀ q ∈ before, ∃ lits, SpellsTerm q lits) ∧ (¬ ∃ lits, SpellsTerm p lits) ∧
        err = .term (String.ofList p)) ∧
    (∀ e, Expression.parse text = .ok e → ∀ n, e.eval n = true ↔
      Text.trim text.toList ≠ ['0'] ∧
        ∃ p ∈ sumPieces text, ∃ lits, SpellsTerm p lits ∧ LastLiteralsHold lits n) ∧
    ∀ p lits, SpellsTerm p lits → (∀ others, SpellsTerm p others → lits = others) ∧
      ((lits.map Literal.index).Nodup →
        ∀ n, LastLiteralsHold lits n ↔ ∀ l ∈ lits, l.eval n = true) := by
  refine ⟨exists_parse_eq_ok_iff, fun _ => parse_eq_error_iff_first, fun _ => eval_of_parse, ?_⟩
  intro p lits h
  exact ⟨fun _ => h.unique, fun hnodup _ => lastLiteralsHold_iff_of_nodup hnodup⟩

/-- The variable 1 is named twice in the first piece, where its last literal is negative. -/
theorem parse_grammar_repeated :
    ∃ e, Expression.parse " x1x0x1` +1 + x63" = .ok e ∧
      ∀ n, e.eval n = true ↔ Text.trim " x1x0x1` +1 + x63".toList ≠ ['0'] ∧
        ∃ p ∈ sumPieces " x1x0x1` +1 + x63", ∃ lits, SpellsTerm p lits ∧
          LastLiteralsHold lits n := by
  have hsome : (Expression.parse " x1x0x1` +1 + x63").toOption.isSome = true := by decide +kernel
  cases hparse : Expression.parse " x1x0x1` +1 + x63" with
  | error err =>
    rw [hparse] at hsome
    cases hsome
  | ok e => exact ⟨e, rfl, (parse_grammar _).2.2.1 e hparse⟩

end TwoLevel
