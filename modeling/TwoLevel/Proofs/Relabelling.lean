/-
  The labels of a covering matrix are only carried along.

  `relabel g` replaces each label by its image under `g`. No operation looks at a label: the rows
  alone tell which rows are kept, how the columns are ordered, which are selected and which
  selections are covers. Hence each operation on the relabelled matrix does what it does on the
  matrix itself, and returns the images of the labels (`simplify_relabel`, `minimalCovers_relabel`).
  Nothing is asked of `g`, which may give two columns the same label.
-/
import TwoLevel.Cover.Simplification
import TwoLevel.Cover.Minimal

namespace TwoLevel.CoverMatrix

variable {K L : Type}

/-- The matrix with new labels. -/
def relabel (g : L → K) (m : CoverMatrix L) : CoverMatrix K :=
  ⟨m.rows, m.labels.map g⟩

variable (g : L → K) (m : CoverMatrix L)

theorem columns_relabel : (m.relabel g).columns = m.columns :=
  congrArg List.range (List.length_map g)

theorem labelsAt_relabel (cols : List Nat) :
    (m.relabel g).labelsAt cols = (m.labelsAt cols).map g := by
  simp [labelsAt, relabel, List.map_filterMap]

/-! ## Reductions -/

theorem reduce_relabel : (m.relabel g).reduce = m.reduce.relabel g :=
  rfl

theorem reindex_relabel (order : List Nat) :
    (m.relabel g).reindex order = (m.reindex order).relabel g :=
  congrArg (mk _) (m.labelsAt_relabel g order)

theorem sortColumns_relabel : (m.relabel g).sortColumns = m.sortColumns.relabel g := by
  unfold sortColumns
  rw [columns_relabel, reindex_relabel]
  rfl

theorem dropUnused_relabel : (m.relabel g).dropUnused = m.dropUnused.relabel g := by
  unfold dropUnused
  rw [columns_relabel, reindex_relabel]
  rfl

/-- The same columns are selected, or the same row has none left. -/
theorem extractMandatory_relabel :
    (m.relabel g).extractMandatory =
      (m.extractMandatory.1.map (List.map g), m.extractMandatory.2.relabel g) := by
  unfold extractMandatory
  simp only [dropUnused_relabel, columns_relabel, labelsAt_relabel]
  refine Prod.ext ?_ (reindex_relabel g ⟨_, m.dropUnused.labels⟩ _)
  show (if (MandatoryScan.ofRows m.dropUnused.rows).failed then _ else _) = _
  split <;> rfl

theorem simplify_relabel :
    (m.relabel g).simplify =
      m.simplify.map fun (labels, rest) => (labels.map g, rest.relabel g) := by
  unfold simplify
  rw [reduce_relabel, sortColumns_relabel, extractMandatory_relabel]
  rcases m.reduce.sortColumns.extractMandatory with ⟨_ | _, _⟩ <;> rfl

/-! ## Covers -/

theorem minimalCoverColumns_relabel :
    (m.relabel g).minimalCoverColumns = m.minimalCoverColumns := by
  have hsize : (m.relabel g).coversOfSize? = m.coversOfSize? := by
    funext k
    unfold coversOfSize?
    rw [columns_relabel]
    rfl
  have hcount : (m.relabel g).columnCount = m.columnCount := List.length_map g
  unfold minimalCoverColumns
  rw [hsize, hcount]

theorem minimalCovers_relabel :
    (m.relabel g).minimalCovers = m.minimalCovers.map (List.map (List.map g)) := by
  unfold minimalCovers
  rw [minimalCoverColumns_relabel]
  cases m.minimalCoverColumns with
  | error d => rfl
  | ok covers =>
    refine congrArg Except.ok ?_
    rw [List.map_map]
    exact List.map_congr_left fun cols _ => m.labelsAt_relabel g cols

end TwoLevel.CoverMatrix
