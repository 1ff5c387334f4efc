/-
  Rows of a covering matrix: finite sets of column indices, held in increasing order.

  Two rows are compared by the smallest column in which they differ; the row which has this
  column is the greater one. For the set bits of two vectors of one width this is the order of
  the numbers which they denote.
-/
import TwoLevel.Sequence.Ascending

namespace TwoLevel

/-- A finite set of column indices. -/
structure Row where
  columns : List Nat
  ascending : columns.Pairwise (· < ·)
  deriving DecidableEq

namespace Row

instance : Membership Nat Row := ⟨fun r c => c ∈ r.columns⟩

instance (c : Nat) (r : Row) : Decidable (c ∈ r) :=
  inferInstanceAs (Decidable (c ∈ r.columns))

theorem mem_def {c : Nat} {r : Row} : c ∈ r ↔ c ∈ r.columns := Iff.rfl

/-- The set of the elements of a list. -/
def ofList (l : List Nat) : Row :=
  ⟨TwoLevel.ascending l, ascending_pairwise l⟩

/-- The positions of a list at which `p` holds. -/
def positions {α : Type} (p : α → Bool) (l : List α) : Row :=
  ⟨(l.zipIdx.filter fun x => p x.1).map (·.2), by
    have h : (l.zipIdx.map (·.2)).Pairwise (· < ·) := by
      rw [List.zipIdx_map_snd]
      exact List.pairwise_lt_range' 1
    exact h.sublist (List.filter_sublist.map _)⟩

/-- The positions of the set bits of a list. -/
def ofBits (bits : List Bool) : Row :=
  positions id bits

/-- Number of columns in the row. -/
def size (r : Row) : Nat :=
  r.columns.length

/-- The row has the column. -/
def contains (r : Row) (c : Nat) : Bool :=
  decide (c ∈ r)

/-- Every column of `r` is a column of `s`. -/
def subset (r s : Row) : Bool :=
  r.columns.all s.contains

/-- The row has one of the given columns. -/
def meets (r : Row) (cols : List Nat) : Bool :=
  cols.any r.contains

/-- Compares two ascending lists by the smallest element which only one of them has. -/
def compareColumns : List Nat → List Nat → Ordering
  | [], [] => .eq
  | [], _ :: _ => .lt
  | _ :: _, [] => .gt
  | a :: as, b :: bs =>
    if a = b then compareColumns as bs else if a < b then .gt else .lt

/-- The order by the smallest column in which two rows differ. -/
def lexicographic (r s : Row) : Ordering :=
  compareColumns r.columns s.columns

theorem nodup_columns (r : Row) : r.columns.Nodup :=
  r.ascending.imp Nat.ne_of_lt

/-- A row is determined by its elements. -/
theorem ext {r s : Row} (h : ∀ c, c ∈ r ↔ c ∈ s) : r = s := by
  have hperm : r.columns.Perm s.columns :=
    (List.perm_ext_iff_of_nodup r.nodup_columns s.nodup_columns).mpr h
  have hcols : r.columns = s.columns :=
    hperm.eq_of_pairwise (fun a b _ _ hab hba => absurd hab (Nat.lt_asymm hba))
      r.ascending s.ascending
  cases r
  cases s
  simpa using hcols

@[simp] theorem mem_ofList {c : Nat} {l : List Nat} : c ∈ ofList l ↔ c ∈ l :=
  mem_ascending

theorem mem_positions {α : Type} {p : α → Bool} {l : List α} {c : Nat} :
    c ∈ positions p l ↔ ∃ a, l[c]? = some a ∧ p a = true := by
  simp only [mem_def, positions, List.mem_map, List.mem_filter, Prod.exists]
  constructor
  · rintro ⟨a, i, ⟨h, hp⟩, rfl⟩
    exact ⟨a, List.mem_zipIdx_iff_getElem?.mp h, hp⟩
  · rintro ⟨a, h, hp⟩
    exact ⟨a, c, ⟨List.mem_zipIdx_iff_getElem?.mpr h, hp⟩, rfl⟩

@[simp] theorem contains_iff {r : Row} {c : Nat} : r.contains c = true ↔ c ∈ r := by
  simp [contains]

theorem subset_iff {r s : Row} : r.subset s = true ↔ ∀ c, c ∈ r → c ∈ s := by
  simp [subset, mem_def]

theorem meets_iff {r : Row} {cols : List Nat} :
    r.meets cols = true ↔ ∃ c, c ∈ cols ∧ c ∈ r := by
  simp [meets]

end Row

end TwoLevel
