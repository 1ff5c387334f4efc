/-
  Dominated rows. A selection of columns which hits a row also hits every row including it, so
  that only the rows which include no other row have to be kept.

  The rows are sorted by their number of columns, then by the order `Row.lexicographic`. A row
  which includes another one comes after it, and each row is dropped if it includes a row kept
  before it.
-/
import TwoLevel.Cover.Row
import TwoLevel.Sequence.StableSort

namespace TwoLevel

/-- The order by size, then by the smallest column in which the rows differ. -/
def Row.order (r s : Row) : Ordering :=
  (compare r.size s.size).then (r.lexicographic s)

/-- The rows of a list which include neither a row of `kept` nor an earlier row of the list. -/
def keepMinimal (kept : List Row) : List Row → List Row
  | [] => []
  | r :: rows =>
    if kept.any (·.subset r) then keepMinimal kept rows
    else r :: keepMinimal (r :: kept) rows

/-- The rows which include no other row, each once, in the order `Row.order`. -/
def reduceDominated (rows : List Row) : List Row :=
  keepMinimal [] (stableSort (fun r s => (r.order s).isLE) rows)

theorem keepMinimal_sublist (kept rows : List Row) : (keepMinimal kept rows).Sublist rows := by
  induction rows generalizing kept with
  | nil => exact List.Sublist.slnil
  | cons r rows ih =>
    simp only [keepMinimal]
    split
    · exact (ih kept).cons r
    · exact (ih (r :: kept)).cons_cons r

theorem mem_of_mem_reduceDominated {r : Row} {rows : List Row} (h : r ∈ reduceDominated rows) :
    r ∈ rows :=
  mem_stableSort.mp ((keepMinimal_sublist [] _).subset h)

end TwoLevel
