/-
  Mandatory columns: those which a row with no other column forces into every cover.

  The rows are visited once, from the last to the first. Columns selected so far no longer
  count: a row left with a single column forces it and is dropped, a row with several is kept,
  and a row with none ends the visit. Rows visited before are not visited again.
-/
import TwoLevel.Cover.Matrix
import TwoLevel.Error

namespace TwoLevel

/-- What the visit of the rows has found so far. -/
structure MandatoryScan where
  /-- The columns selected, in the order of their selection. -/
  forced : List Nat
  /-- The rows which remain. -/
  kept : List Row
  /-- A row without any column was met. -/
  failed : Bool

namespace MandatoryScan

/-- Visits one more row, the one before those visited. -/
def visit (row : Row) (s : MandatoryScan) : MandatoryScan :=
  if s.failed then { s with kept := row :: s.kept }
  else
    match row.columns.filter fun c => decide (c ∉ s.forced) with
    | [] => { s with kept := row :: s.kept, failed := true }
    | [c] => { s with forced := s.forced ++ [c] }
    | _ => { s with kept := row :: s.kept }

/-- The outcome of the visit of all rows, from the last to the first. -/
def ofRows (rows : List Row) : MandatoryScan :=
  rows.foldr visit ⟨[], [], false⟩

end MandatoryScan

namespace CoverMatrix

variable {L : Type}

/-- Drops the columns which no row has, then selects the mandatory ones. The labels come in the
    order of selection; the matrix is what is left, also after a failure. -/
def extractMandatory (m : CoverMatrix L) : Except Defect (List L) × CoverMatrix L :=
  let used := m.dropUnused
  let scan := MandatoryScan.ofRows used.rows
  let rest : CoverMatrix L := ⟨scan.kept, used.labels⟩
  (if scan.failed then .error .rowWithoutColumn else .ok (used.labelsAt scan.forced),
    rest.reindex (used.columns.filter fun c => decide (c ∉ scan.forced)))

end CoverMatrix

end TwoLevel
