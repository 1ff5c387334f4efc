/-
  Minimal covers: all selections of the fewest columns which hit every row.

  `selections k cols rows` lists the selections of `k` columns which hit the rows, in
  lexicographic order; a column which is selected settles the rows which have it, and a row which
  has none of the columns left ends the search below it. The sizes are tried in increasing order,
  and the first size with a selection gives the answer.
-/
import TwoLevel.Cover.Matrix
import TwoLevel.Error

namespace TwoLevel

/-- The selections of `k` of the columns, kept in order, which hit all rows. -/
def selections : Nat → List Nat → List Row → List (List Nat)
  | 0, _, rows => if rows.isEmpty then [[]] else []
  | _ + 1, [], _ => []
  | k + 1, c :: cols, rows =>
    if rows.all (·.meets (c :: cols)) then
      (selections k cols (rows.filter fun r => !r.contains c)).map (c :: ·) ++
        selections (k + 1) cols rows
    else []

namespace CoverMatrix

variable {L : Type}

/-- The covers with `k` columns, if there are any. -/
def coversOfSize? (m : CoverMatrix L) (k : Nat) : Option (List (List Nat)) :=
  match selections k m.columns m.rows with
  | [] => none
  | covers => some covers

/-- All covers of the least size, in lexicographic order of their columns. -/
def minimalCoverColumns (m : CoverMatrix L) : Except Defect (List (List Nat)) :=
  match (List.range (m.columnCount + 1)).findSome? m.coversOfSize? with
  | some covers => .ok covers
  | none => .error .noCover

/-- The labels of all covers of the least size. -/
def minimalCovers (m : CoverMatrix L) : Except Defect (List (List L)) :=
  m.minimalCoverColumns.map (·.map m.labelsAt)

end CoverMatrix

end TwoLevel
