/-
  The search of the minimal covers, as a loop over all selections.

  The columns are combined size by size, from 1 up, and the combinations which hit every row are
  kept. The first size with such a combination ends the search; a matrix without rows needs none.
  No combination is left out here. `selections` leaves out those below a row which cannot be hit any
  more, and lists exactly the ones which are kept (`filter_combinations`), so that both searches
  have the same result (`minimalCoverColumns_refines`).
-/
import TwoLevel.Proofs.CoverSearch

namespace TwoLevel.InPlace

/-! ## Selections -/

/-- The ways to keep `k` elements of a list in their order, in lexicographic order of places. -/
def combinations {α : Type} : Nat → List α → List (List α)
  | 0, _ => [[]]
  | _ + 1, [] => []
  | k + 1, a :: as => (combinations k as).map (a :: ·) ++ combinations (k + 1) as

/-- The two sets have no element in common. -/
def isDisjoint (r s : Row) : Bool :=
  r.columns.all fun c => !s.contains c

variable {L : Type}

/-- The set of the selected columns has an element of every row. -/
def isCoveredBy (m : CoverMatrix L) (cols : List Nat) : Bool :=
  let selection := Row.ofList cols
  m.rows.all fun r => !isDisjoint r selection

theorem isDisjoint_eq_false_iff {r s : Row} : isDisjoint r s = false ↔ ∃ c, c ∈ s ∧ c ∈ r := by
  simp [isDisjoint, Row.mem_def, and_comm]

theorem isCoveredBy_refines (m : CoverMatrix L) (cols : List Nat) :
    InPlace.isCoveredBy m cols = m.isCoveredBy cols := by
  rw [Bool.eq_iff_iff, CoverMatrix.isCoveredBy_iff, InPlace.isCoveredBy, List.all_eq_true]
  refine forall₂_congr fun r _ => ?_
  rw [Bool.not_eq_true', isDisjoint_eq_false_iff]
  simp only [Row.mem_ofList]

/-- The first element is kept or not, and the rows which have it need no other one. -/
theorem filter_combinations (k : Nat) (cols : List Nat) (rows : List Row) :
    (combinations k cols).filter (fun sel => rows.all (·.meets sel)) = selections k cols rows := by
  induction cols generalizing k rows with
  | nil =>
    cases k with
    | zero => cases rows <;> simp [combinations, selections, Row.meets]
    | succ k => rfl
  | cons c cols ih =>
    cases k with
    | zero => cases rows <;> simp [combinations, selections, Row.meets]
    | succ k =>
      have hkept : ∀ sel ∈ combinations k cols, (rows.all (·.meets (c :: sel))) =
          ((rows.filter fun r => !r.contains c).all (·.meets sel)) := fun sel _ =>
        Bool.eq_iff_iff.mpr all_meets_cons
      have hfirst : (combinations k cols).filter ((fun sel => rows.all (·.meets sel)) ∘ (c :: ·)) =
          selections k cols (rows.filter fun r => !r.contains c) :=
        (List.filter_congr hkept).trans (ih k _)
      rw [combinations, List.filter_append, List.filter_map, hfirst, ih, selections_succ_cons]

/-! ## The loop over the sizes -/

/-- Tries as many sizes as are `left`, from `size` up. -/
def coversFrom (m : CoverMatrix L) : (left size : Nat) → Except Defect (List (List Nat))
  | 0, _ => .error .noCover
  | left + 1, size =>
    let covers := (combinations size (List.range m.columnCount)).filter (isCoveredBy m)
    if covers.isEmpty then coversFrom m left (size + 1) else .ok covers

/-- All covers of the least size, in lexicographic order of their columns. -/
def minimalCoverColumns (m : CoverMatrix L) : Except Defect (List (List Nat)) :=
  if m.rows.isEmpty then .ok [[]] else coversFrom m m.columnCount 1

theorem covers_of_size (m : CoverMatrix L) (size : Nat) :
    (combinations size (List.range m.columnCount)).filter (isCoveredBy m) =
      selections size m.columns m.rows := by
  rw [funext (isCoveredBy_refines m)]
  exact filter_combinations size m.columns m.rows

theorem coversFrom_eq (m : CoverMatrix L) (left size : Nat) :
    coversFrom m left size =
      match (List.range' size left).findSome? m.coversOfSize? with
      | some covers => .ok covers
      | none => .error .noCover := by
  induction left generalizing size with
  | zero => rfl
  | succ left ih =>
    rw [coversFrom, covers_of_size, List.range'_succ, List.findSome?_cons, ih,
      CoverMatrix.coversOfSize?]
    cases selections size m.columns m.rows <;> rfl

theorem minimalCoverColumns_refines (m : CoverMatrix L) :
    InPlace.minimalCoverColumns m = m.minimalCoverColumns := by
  rw [InPlace.minimalCoverColumns, coversFrom_eq, CoverMatrix.minimalCoverColumns,
    List.range_eq_range', List.range'_succ, List.findSome?_cons, CoverMatrix.coversOfSize?,
    selections]
  cases m.rows <;> rfl

end TwoLevel.InPlace
