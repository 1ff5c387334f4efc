/-
  Sums in two widths.

  A cube made of literals has the same literals in every width which has room for them
  (`Cube.literals_ofLiterals_congr`). So the terms of a sum made of literals do not depend on the
  width either, and neither does which of them are repeated: in any two widths with room for all
  literals there are the same terms, in the same order (`sameTerms_ofLiterals`).

  `SameTerms e d`: the terms of `e` and those of `d` have the same literals, one by one. The number
  of terms and of literals, the values and the texts depend on nothing else.
-/
import TwoLevel.Expression.Reader
import TwoLevel.Expression.Style
import TwoLevel.Proofs.Sums

namespace TwoLevel

/-- Lists with the same values of `f` have the same values of a function which depends on these
    only. -/
theorem map_eq_of_map_eq {α β γ : Type} {f : α → β} {g : α → γ} {l k : List α}
    (h : l.map f = k.map f) (hg : ∀ a b, f a = f b → g a = g b) : l.map g = k.map g := by
  rw [← List.forall₂_eq_eq_eq, List.forall₂_map_left_iff, List.forall₂_map_right_iff] at h ⊢
  exact h.imp hg

/-! ## Cubes -/

namespace Cube

/-- Free positions in front add no literals. -/
theorem literalsOf_descending_of_free {f : Nat → Ternary} {v w : Nat} (hvw : v ≤ w)
    (hfree : ∀ x, v ≤ x → f x = .free) :
    literalsOf (descending f w) = literalsOf (descending f v) := by
  induction w, hvw using Nat.le_induction with
  | base => rfl
  | succ w hvw ih =>
    rw [descending, literalsOf, hfree w hvw]
    exact ih

/-- In a wider cube the same positions are fixed. -/
theorem literals_ofLiterals_of_le {lits : List Literal} {v w : Nat}
    (hlits : ∀ l ∈ lits, l.index < v) (hvw : v ≤ w) :
    (ofLiterals w lits).literals = (ofLiterals v lits).literals := by
  refine literalsOf_descending_of_free hvw fun x hx => ?_
  have hnone : Literal.polarity? lits x = none := by
    refine Option.eq_none_iff_forall_ne_some.mpr fun b hb => ?_
    have hlt : x < v := hlits _ (Literal.mem_of_polarity?_eq_some hb)
    omega
  rw [hnone]
  rfl

/-- The literals of a cube do not depend on the width, if it has room for them. -/
theorem literals_ofLiterals_congr {lits : List Literal} {v w : Nat}
    (hv : ∀ l ∈ lits, l.index < v) (hw : ∀ l ∈ lits, l.index < w) :
    (ofLiterals v lits).literals = (ofLiterals w lits).literals := by
  rcases Nat.le_total v w with hvw | hwv
  · exact (literals_ofLiterals_of_le hv hvw).symm
  · exact literals_ofLiterals_of_le hw hwv

theorem mem_of_mem_literals_ofLiterals {lits : List Literal} {w : Nat} {l : Literal}
    (h : l ∈ (ofLiterals w lits).literals) : l ∈ lits := by
  rw [literals, ofLiterals, mem_literalsOf_descending, Ternary.polarity?_ofPolarity] at h
  exact Literal.mem_of_polarity?_eq_some h.2

/-- A cube names all variables which the literals name, if it has room for them. -/
theorem exists_mem_literals_ofLiterals {lits : List Literal} {w : Nat} {l : Literal}
    (hl : l ∈ lits) (hw : l.index < w) :
    ∃ k ∈ (ofLiterals w lits).literals, k.index = l.index := by
  obtain ⟨b, hb⟩ := Option.isSome_iff_exists.mp (Literal.polarity?_isSome hl)
  refine ⟨⟨l.index, b⟩, ?_, rfl⟩
  rw [literals, ofLiterals, mem_literalsOf_descending, Ternary.polarity?_ofPolarity]
  exact ⟨hw, hb⟩

theorem isUniversal_iff {t : Cube} : t.isUniversal = true ↔ t.literals = [] := by
  rw [isUniversal, beq_iff_eq, literalCount_eq, List.length_eq_zero_iff]

/-- The text of a term depends on its literals only. -/
theorem term_congr (s : Symbols) {t u : Cube} (h : t.literals = u.literals) :
    s.term t = s.term u := by
  have huniversal : t.isUniversal = u.isUniversal := by
    rw [Bool.eq_iff_iff, isUniversal_iff, isUniversal_iff, h]
  rw [Symbols.term, Symbols.term, huniversal, h]

end Cube

/-! ## Sums -/

namespace Expression

/-- In their own width cubes are given by their literals. -/
theorem map_ofLiterals {w : Nat} {ts : List Cube} (h : ∀ t ∈ ts, t.width = w) :
    (ts.map Cube.literals).map (Cube.ofLiterals w) = ts := by
  rw [List.map_map]
  refine (List.map_congr_left fun t ht => ?_).trans (List.map_id _)
  rw [Function.comp_apply, ← h t ht, t.ofLiterals_literals, id]

/-- The terms have the same literals, one by one. -/
def SameTerms (e d : Expression) : Prop :=
  e.terms.map Cube.literals = d.terms.map Cube.literals

namespace SameTerms

variable {e d : Expression} (h : SameTerms e d)

include h

/-- What depends on the literals of a term only is the same for all terms. -/
theorem map_eq {β : Type} {f : Cube → β} (hf : ∀ t u, t.literals = u.literals → f t = f u) :
    e.terms.map f = d.terms.map f :=
  map_eq_of_map_eq h hf

theorem size : e.size = d.size := by
  have hlength := congrArg List.length h
  rwa [List.length_map, List.length_map] at hlength

theorem literalCount : e.literalCount = d.literalCount := by
  have hcounts : e.terms.map Cube.literalCount = d.terms.map Cube.literalCount :=
    h.map_eq fun t u htu => by rw [Cube.literalCount_eq, Cube.literalCount_eq, htu]
  unfold Expression.literalCount
  rw [← List.foldr_map (g := (· + ·)), hcounts, List.foldr_map]

theorem eval (n : UInt64) : e.eval n = d.eval n := by
  have hvalues : e.terms.map (·.eval n) = d.terms.map (·.eval n) :=
    h.map_eq fun t u htu => by rw [Cube.eval, Cube.eval, htu]
  have hany := congrArg (List.any · id) hvalues
  simp only [List.any_map] at hany
  exact hany

theorem write (style : Style) : e.write style = d.write style := by
  have htexts : e.terms.map style.symbols.term = d.terms.map style.symbols.term :=
    h.map_eq fun _ _ => Cube.term_congr style.symbols
  have hempty : e.terms.isEmpty = d.terms.isEmpty := by
    have hmap := congrArg List.isEmpty htexts
    rwa [List.isEmpty_map, List.isEmpty_map] at hmap
  rw [Expression.write, Expression.write, Symbols.expression, Symbols.expression, hempty, htexts]

/-- Sums with the same terms in one width are equal. -/
theorem eq (he : e.Uniform) (hd : d.Uniform) (hwidth : e.width = d.width) : e = d := by
  refine ext_terms hwidth ?_
  have hterms := congrArg (List.map (Cube.ofLiterals e.width)) h
  rwa [map_ofLiterals he, hwidth, map_ofLiterals hd] at hterms

end SameTerms

/-- The terms of a sum made of literals do not depend on the width, if it has room for them. -/
theorem sameTerms_ofLiterals {terms : List (List Literal)} {v w : Nat}
    (hv : ∀ lits ∈ terms, ∀ l ∈ lits, l.index < v)
    (hw : ∀ lits ∈ terms, ∀ l ∈ lits, l.index < w) :
    SameTerms (ofLiterals v terms) (ofLiterals w terms) := by
  -- In one width a cube is determined by its literals, so that repetitions can be told from them.
  have hliterals : ∀ x, (ofLiterals x terms).terms.map Cube.literals =
      (terms.map fun lits => (Cube.ofLiterals x lits).literals).eraseDups := by
    intro x
    have hinj : ∀ t ∈ terms.map (Cube.ofLiterals x), ∀ u ∈ terms.map (Cube.ofLiterals x),
        t.literals = u.literals → t = u := by
      intro t ht u hu heq
      obtain ⟨_, _, rfl⟩ := List.mem_map.mp ht
      obtain ⟨_, _, rfl⟩ := List.mem_map.mp hu
      refine Cube.ext_literals ?_ fun l => by rw [heq]
      rw [Cube.width_ofLiterals, Cube.width_ofLiterals]
    show (terms.map (Cube.ofLiterals x)).eraseDups.map Cube.literals = _
    rw [map_eraseDups hinj, List.map_map]
    rfl
  unfold SameTerms
  rw [hliterals v, hliterals w, List.map_congr_left fun lits hlits =>
    Cube.literals_ofLiterals_congr (hv lits hlits) (hw lits hlits)]

end Expression

end TwoLevel
