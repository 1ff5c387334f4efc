/-
  Covering matrices: rows which all have to be hit, and labelled columns which can be selected.
  A selection of columns hits a row if the row has one of them.

  The operations which move, drop or reorder columns are one: `reindex` lists the columns to
  keep in their new order. Rows name columns by index, so `InBounds` is what the callers of
  `CoverMatrix.mk` promise; every operation keeps it.
-/
import TwoLevel.Cover.Dominance

namespace TwoLevel

/-- Rows to hit, and the labels of the columns. -/
structure CoverMatrix (L : Type) where
  rows : List Row
  labels : List L
  deriving DecidableEq

namespace CoverMatrix

variable {L : Type}

/-- Every row names existing columns only. -/
def InBounds (m : CoverMatrix L) : Prop :=
  ∀ r ∈ m.rows, ∀ c ∈ r.columns, c < m.labels.length

instance (m : CoverMatrix L) : Decidable m.InBounds :=
  inferInstanceAs (Decidable (∀ r ∈ m.rows, ∀ c ∈ r.columns, c < m.labels.length))

/-- The matrix of a relation between the things to cover and the labels. -/
def ofRelation {R : Type} (rows : List R) (labels : List L) (hits : R → L → Bool) :
    CoverMatrix L :=
  ⟨rows.map fun r => .positions (hits r) labels, labels⟩

def rowCount (m : CoverMatrix L) : Nat :=
  m.rows.length

def columnCount (m : CoverMatrix L) : Nat :=
  m.labels.length

/-- Number of rows which have the column. -/
def columnWeight (m : CoverMatrix L) (c : Nat) : Nat :=
  m.rows.countP (·.contains c)

/-- The selection hits every row. Columns which do not exist hit nothing. -/
def isCoveredBy (m : CoverMatrix L) (cols : List Nat) : Bool :=
  m.rows.all (·.meets cols)

/-- Keeps the rows which include no other row. -/
def reduce (m : CoverMatrix L) : CoverMatrix L :=
  ⟨reduceDominated m.rows, m.labels⟩

/-! ## Columns in a new order -/

/-- The matrix with the given columns only, in the given order. -/
def reindex (m : CoverMatrix L) (order : List Nat) : CoverMatrix L :=
  ⟨m.rows.map fun r => .positions r.contains order, order.filterMap (m.labels[·]?)⟩

/-- The indices of the columns. -/
def columns (m : CoverMatrix L) : List Nat :=
  List.range m.labels.length

/-- Orders the columns by decreasing weight; columns of one weight keep their order. -/
def sortColumns (m : CoverMatrix L) : CoverMatrix L :=
  m.reindex (sortDescending m.columnWeight m.columns)

/-- Drops a column; the ones after it move up. -/
def removeColumn (m : CoverMatrix L) (c : Nat) : CoverMatrix L :=
  m.reindex (m.columns.filter (· != c))

/-- Drops a column which has to exist, and tells its label. -/
def removeColumn? (m : CoverMatrix L) (c : Nat) : Option (L × CoverMatrix L) :=
  m.labels[c]?.map fun label => (label, m.removeColumn c)

/-- Drops the columns which no row has. -/
def dropUnused (m : CoverMatrix L) : CoverMatrix L :=
  m.reindex (m.columns.filter fun c => m.rows.any (·.contains c))

/-- The labels of a list of columns. -/
def labelsAt (m : CoverMatrix L) (cols : List Nat) : List L :=
  cols.filterMap (m.labels[·]?)

theorem isCoveredBy_iff {m : CoverMatrix L} {cols : List Nat} :
    m.isCoveredBy cols = true ↔ ∀ r ∈ m.rows, ∃ c, c ∈ cols ∧ c ∈ r := by
  simp [isCoveredBy, Row.meets_iff]

theorem reduce_inBounds {m : CoverMatrix L} (h : m.InBounds) : m.reduce.InBounds :=
  fun r hr => h r (mem_of_mem_reduceDominated hr)

/-- A row of the new matrix has column `k` if its row had the column which stands there now. -/
theorem mem_positions_contains {r : Row} {order : List Nat} {k : Nat} :
    k ∈ Row.positions r.contains order ↔ ∃ c, order[k]? = some c ∧ c ∈ r := by
  simp [Row.mem_positions]

end CoverMatrix

end TwoLevel
