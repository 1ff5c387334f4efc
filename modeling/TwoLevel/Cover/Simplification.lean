/-
  The reductions which precede the search of a covering matrix: dominated rows are dropped, the
  columns are ordered by weight, and the mandatory columns are selected.
-/
import TwoLevel.Cover.Mandatory

namespace TwoLevel.CoverMatrix

variable {L : Type}

/-- The labels of the mandatory columns, and the matrix which is left to cover. -/
def simplify (m : CoverMatrix L) : Except Defect (List L × CoverMatrix L) :=
  let (forced, rest) := m.reduce.sortColumns.extractMandatory
  forced.map fun labels => (labels, rest)

end TwoLevel.CoverMatrix
