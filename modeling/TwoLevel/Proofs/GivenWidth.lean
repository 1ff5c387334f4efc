/-
  Texts which are read in a given width.

  A text is read in the least width which holds it, or in a given width. Both make their terms from
  the same literals. The given width is refused exactly if it has no room for a variable which the
  text names (`parseWithWidth_eq_ok_iff`). Else the two sums have the same terms
  (`sameTerms_ofLiterals`), whichever terms are repeated and whichever variables are named twice.

  Each of the two sums is read again from its text. In the given width this holds as its variables
  are below `variableLimit` (`readable_of_readTerms`). The least width is found again as a cube
  names all variables which its literals name (`widthOf_literals`), those of overwritten literals
  too.
-/
import TwoLevel.Proofs.SumGrammar

namespace TwoLevel

/-- A piece of the text spells a term with a literal on the variable. -/
def NamesVariable (text : String) (v : Nat) : Prop :=
  ∃ p ∈ sumPieces text, ∃ lits, SpellsTerm p lits ∧ ∃ l ∈ lits, l.index = v

/-! ## The literals of a text -/

theorem SpellsTerm.index_lt {cs : List Char} {lits : List Literal} (h : SpellsTerm cs lits) :
    ∀ l ∈ lits, l.index < variableLimit := by
  cases h with
  | truth => exact fun _ hl => absurd hl List.not_mem_nil
  | product _ _ hlimit => exact hlimit

section Read

variable {text : String} {terms : List (List Literal)} (h : readTerms text.toList = .ok terms)

include h

theorem namesVariable_iff {v : Nat} :
    NamesVariable text v ↔ ∃ lits ∈ terms, ∃ l ∈ lits, l.index = v := by
  by_cases hzero : Text.trim text.toList = ['0']
  · obtain rfl := Except.ok.inj ((readTerms_of_zero hzero).symm.trans h)
    have hpieces : sumPieces text = [['0']] := by
      rw [sumPieces, hzero]
      rfl
    have hnone : ∀ lits, ¬ SpellsTerm ['0'] lits := fun lits hlits => by
      have hread := readTerm_eq_ok_iff.mpr hlits
      cases hread
    simp [NamesVariable, hpieces, hnone]
  · exact (exists_mem_terms_iff hzero h).symm

theorem index_lt_of_readTerms : ∀ lits ∈ terms, ∀ l ∈ lits, l.index < variableLimit := by
  intro lits hlits
  by_cases hzero : Text.trim text.toList = ['0']
  · obtain rfl := Except.ok.inj ((readTerms_of_zero hzero).symm.trans h)
    cases hlits
  · rw [readTerms_eq_mapM hzero] at h
    obtain ⟨p, _, hp⟩ := mem_of_mapM_eq_ok h hlits
    exact (readTerm_eq_ok_iff.mp hp).index_lt

theorem readable_of_readTerms (w : Nat) :
    ∀ t ∈ (Expression.ofLiterals w terms).terms, t.Readable := by
  intro t ht l hl
  obtain ⟨lits, hlits, rfl⟩ := List.mem_map.mp (Expression.mem_terms_ofTerms.mp ht)
  exact index_lt_of_readTerms h lits hlits l (Cube.mem_of_mem_literals_ofLiterals hl)

end Read

/-! ## The two widths -/

namespace Expression

theorem parseWithWidth_eq_ok_iff {text : String} {w : Nat} {e : Expression} :
    parseWithWidth text w = .ok e ↔
      ∃ terms, readTerms text.toList = .ok terms ∧ (∀ lits ∈ terms, ∀ l ∈ lits, l.index < w) ∧
        e = ofLiterals w terms := by
  unfold parseWithWidth
  cases readTerms text.toList with
  | error err => simp [bind, Except.bind]
  | ok terms =>
    simp only [bind, Except.bind, Except.ok.injEq, exists_eq_left']
    cases hfind : terms.flatten.find? (fun l => decide (w ≤ l.index)) with
    | some l =>
      obtain ⟨lits, hlits, hl⟩ := List.mem_flatten.mp (List.mem_of_find?_eq_some hfind)
      have hlarge : w ≤ l.index := by simpa using List.find?_some hfind
      refine iff_of_false (fun h => by cases h) fun h => ?_
      exact Nat.not_lt.mpr hlarge (h.1 lits hlits l hl)
    | none =>
      have hfits : ∀ lits ∈ terms, ∀ l ∈ lits, l.index < w := fun lits hlits l hl => by
        simpa using List.find?_eq_none.mp hfind l (List.mem_flatten.mpr ⟨lits, hlits, hl⟩)
      rw [and_iff_right hfits]
      exact ⟨fun h => (Except.ok.inj h).symm, fun h => h ▸ rfl⟩

/-- The least width is that of the variables which are named. -/
theorem widthOf_congr {terms others : List (List Literal)}
    (h : ∀ v, (∃ lits ∈ terms, ∃ l ∈ lits, l.index = v) ↔
      ∃ lits ∈ others, ∃ l ∈ lits, l.index = v) : widthOf terms = widthOf others := by
  have hmem : ∀ n, n ∈ terms.flatten.map (·.index + 1) ↔ n ∈ others.flatten.map (·.index + 1) := by
    intro n
    have hnamed : ∀ ls : List (List Literal), n ∈ ls.flatten.map (·.index + 1) ↔
        ∃ v, (∃ lits ∈ ls, ∃ l ∈ lits, l.index = v) ∧ v + 1 = n := by
      intro ls
      simp only [List.mem_map, List.mem_flatten]
      constructor
      · rintro ⟨l, ⟨lits, hlits, hl⟩, rfl⟩
        exact ⟨l.index, ⟨lits, hlits, l, hl, rfl⟩, rfl⟩
      · rintro ⟨_, ⟨lits, hlits, l, hl, rfl⟩, rfl⟩
        exact ⟨l, ⟨lits, hlits, hl⟩, rfl⟩
    simp only [hnamed, h]
  have hmax : (terms.flatten.map (·.index + 1)).max? = (others.flatten.map (·.index + 1)).max? := by
    refine Option.ext fun n => ?_
    rw [List.max?_eq_some_iff, List.max?_eq_some_iff]
    simp only [hmem]
  rw [widthOf, widthOf, hmax]

variable {terms : List (List Literal)}

/-- A sum names the variables which the literals of its terms name. -/
theorem widthOf_literals {w : Nat} (hw : ∀ lits ∈ terms, ∀ l ∈ lits, l.index < w) :
    widthOf ((ofLiterals w terms).terms.map Cube.literals) = widthOf terms := by
  have hterm : ∀ t, t ∈ (ofLiterals w terms).terms ↔ ∃ lits ∈ terms, Cube.ofLiterals w lits = t :=
    fun t => mem_terms_ofTerms.trans List.mem_map
  refine widthOf_congr fun v => ?_
  constructor
  · rintro ⟨_, hmem, l, hl, rfl⟩
    obtain ⟨t, ht, rfl⟩ := List.mem_map.mp hmem
    obtain ⟨lits, hlits, rfl⟩ := (hterm t).mp ht
    exact ⟨lits, hlits, l, Cube.mem_of_mem_literals_ofLiterals hl, rfl⟩
  · rintro ⟨lits, hlits, l, hl, rfl⟩
    obtain ⟨k, hk, hindex⟩ := Cube.exists_mem_literals_ofLiterals hl (hw lits hlits l hl)
    exact ⟨_, List.mem_map_of_mem ((hterm _).mpr ⟨lits, hlits, rfl⟩), k, hk, hindex⟩

theorem uniform_ofLiterals (w : Nat) (terms : List (List Literal)) :
    (ofLiterals w terms).Uniform := by
  intro t ht
  obtain ⟨lits, _, rfl⟩ := List.mem_map.mp (mem_terms_ofTerms.mp ht)
  exact Cube.width_ofLiterals w lits

section Reread

variable {text : String} {e : Expression}

/-- A sum which was read in a given width is read again from its text. -/
theorem parseWithWidth_again {w : Nat} (h : parseWithWidth text w = .ok e) :
    parseWithWidth e.text w = .ok e := by
  obtain ⟨terms, hread, _, rfl⟩ := parseWithWidth_eq_ok_iff.mp h
  exact parseWithWidth_of_readable rfl (uniform_ofLiterals w terms) (readable_of_readTerms hread w)

/-- A sum which was read in the least width is read again from its text. -/
theorem parse_again (h : parse text = .ok e) : parse e.text = .ok e := by
  obtain ⟨terms, hread, rfl⟩ := parse_eq_ok_iff.mp h
  have hwidth : widthOf ((ofLiterals (widthOf terms) terms).terms.map Cube.literals) =
      widthOf terms := widthOf_literals fun _ hlits _ hl => index_lt_widthOf hlits hl
  rw [parse_eq_ok_iff, toList_text]
  refine ⟨_, readTerms_of_readable (readable_of_readTerms hread _), ?_⟩
  rw [hwidth]
  exact (ofLiterals_literals rfl (uniform_ofLiterals _ terms)).symm

end Reread

/-- A text is read in a given width exactly if it can be read at all and each variable named in it
    is below the width. The sum is then the one of the least width in all but the width: it has as
    many terms and literals, the same text and the same values. Either sum is read again from its
    text, in its own way. -/
theorem parse_in_given_width (text : String) (w : Nat) :
    ((∃ e, parseWithWidth text w = .ok e) ↔
      (∃ d, parse text = .ok d) ∧ ∀ v, NamesVariable text v → v < w) ∧
    ∀ e d, parseWithWidth text w = .ok e → parse text = .ok d →
      e.size = d.size ∧ e.text = d.text ∧ e.literalCount = d.literalCount ∧
        (∀ n, e.eval n = d.eval n) ∧ parse d.text = .ok d ∧ parseWithWidth e.text w = .ok e := by
  constructor
  · constructor
    · rintro ⟨e, he⟩
      obtain ⟨terms, hread, hw, _⟩ := parseWithWidth_eq_ok_iff.mp he
      refine ⟨⟨_, parse_eq_ok_iff.mpr ⟨terms, hread, rfl⟩⟩, fun v hv => ?_⟩
      obtain ⟨lits, hlits, l, hl, rfl⟩ := (namesVariable_iff hread).mp hv
      exact hw lits hlits l hl
    · rintro ⟨⟨d, hd⟩, hnamed⟩
      obtain ⟨terms, hread, _⟩ := parse_eq_ok_iff.mp hd
      refine ⟨_, parseWithWidth_eq_ok_iff.mpr ⟨terms, hread, fun lits hlits l hl => ?_, rfl⟩⟩
      exact hnamed l.index ((namesVariable_iff hread).mpr ⟨lits, hlits, l, hl, rfl⟩)
  · intro e d he hd
    have hsame : SameTerms e d := by
      obtain ⟨terms, hread, hw, rfl⟩ := parseWithWidth_eq_ok_iff.mp he
      obtain ⟨others, hothers, rfl⟩ := parse_eq_ok_iff.mp hd
      obtain rfl := Except.ok.inj (hread.symm.trans hothers)
      exact sameTerms_ofLiterals hw fun _ hlits _ hl => index_lt_widthOf hlits hl
    exact ⟨hsame.size, hsame.write .canonical, hsame.literalCount, hsame.eval, parse_again hd,
      parseWithWidth_again he⟩

/-- The first and the last piece give the same term, in which the first literal on the variable 1
    is overwritten. -/
theorem parse_in_given_width_repeated :
    ∃ e d, parseWithWidth " x1x0x1` +1 + x3x3` + x0x1`" 70 = .ok e ∧
      parse " x1x0x1` +1 + x3x3` + x0x1`" = .ok d ∧
      e.size = d.size ∧ e.text = d.text ∧ e.literalCount = d.literalCount ∧
      (∀ n, e.eval n = d.eval n) ∧ parse d.text = .ok d ∧ parseWithWidth e.text 70 = .ok e := by
  have hwide : (parseWithWidth " x1x0x1` +1 + x3x3` + x0x1`" 70).toOption.isSome = true := by
    decide +kernel
  cases he : parseWithWidth " x1x0x1` +1 + x3x3` + x0x1`" 70 with
  | error err =>
    rw [he] at hwide
    cases hwide
  | ok e =>
    obtain ⟨d, hd⟩ := ((parse_in_given_width _ _).1.mp ⟨e, he⟩).1
    exact ⟨e, d, rfl, hd, (parse_in_given_width _ _).2 e d he hd⟩

end Expression

end TwoLevel
