/-
  Only the sets of the values matter.

  The minterms of a list are put in increasing order before anything else is done, so that two
  lists of the same values give the same specification (`ofLists_congr`), hence the same results.

  An expansion does not order its OFF-set. But the first thing done to the difference matrix is to
  drop the dominated rows, which leaves the same rows in the same order for every list of the same
  vectors (`reduce_differenceMatrix_congr`); the weights of the columns are counted afterwards.
-/
import TwoLevel.Proofs.MinimalRows
import TwoLevel.Proofs.Minimization

namespace TwoLevel

/-! ## Lists of integers -/

theorem checkedMinterms_congr {ns ms : List Int64} (h : ∀ n, n ∈ ns ↔ n ∈ ms)
    (hns : ∀ n ∈ ns, 0 ≤ n) : checkedMinterms ns = checkedMinterms ms := by
  have hms : ∀ n ∈ ms, 0 ≤ n := fun n hn => hns n ((h n).mpr hn)
  have hmem : ∀ u, u ∈ ns.map Int64.toUInt64 ↔ u ∈ ms.map Int64.toUInt64 := fun u => by
    simp only [List.mem_map, h]
  rw [checkedMinterms_of_nonneg hns, checkedMinterms_of_nonneg hms, ascending_congr hmem]

/-- Lists of the same values, none of them negative, describe the same function, or they are
    refused for the same value. -/
theorem ofLists_congr {on off on' off' : List Int64} (hon : ∀ n, n ∈ on ↔ n ∈ on')
    (hoff : ∀ n, n ∈ off ↔ n ∈ off') (hon_nonneg : ∀ n ∈ on, 0 ≤ n)
    (hoff_nonneg : ∀ n ∈ off, 0 ≤ n) :
    Specification.ofLists on off = Specification.ofLists on' off' := by
  unfold Specification.ofLists
  rw [checkedMinterms_congr hon hon_nonneg, checkedMinterms_congr hoff hoff_nonneg]

/-! ## Lists of vectors -/

theorem CoverMatrix.simplify_congr {L : Type} {m n : CoverMatrix L} (h : m.reduce = n.reduce) :
    m.simplify = n.simplify := by
  unfold CoverMatrix.simplify
  rw [h]

theorem reduce_differenceMatrix_congr (f : BitVector) {off off' : List BitVector}
    (h : ∀ r, r ∈ off ↔ r ∈ off') :
    (differenceMatrix f off).reduce = (differenceMatrix f off').reduce := by
  have hrows : reduceDominated (differenceMatrix f off).rows =
      reduceDominated (differenceMatrix f off').rows :=
    reduceDominated_congr fun row => by simp only [differenceMatrix, List.mem_map, h]
  exact congrArg (CoverMatrix.mk · (literalsOfBits f.bits)) hrows

/-! ## The results -/

/-- Lists of the same values give the same sums, with the same terms in the same order, or they
    are refused for the same reason. A vector expands into the same cubes, in the same order,
    against all lists of the same vectors, or it fails against all of them. -/
theorem results_depend_on_sets :
    (∀ on off on' off' : List Int64, (∀ n, n ∈ on ↔ n ∈ on') → (∀ n, n ∈ off ↔ n ∈ off') →
      (∀ n ∈ on, 0 ≤ n) → (∀ n ∈ off, 0 ≤ n) →
      (∀ method, minimize method on off = minimize method on' off') ∧
        minimizeAll on off = minimizeAll on' off') ∧
    ∀ (f : BitVector) (off off' : List BitVector), (∀ r, r ∈ off ↔ r ∈ off') →
      ∀ ties, expand f off ties = expand f off' ties := by
  constructor
  · intro on off on' off' hon hoff hon_nonneg hoff_nonneg
    have hspecify : specify on off = specify on' off' := by
      unfold specify
      rw [ofLists_congr hon hoff hon_nonneg hoff_nonneg]
    constructor
    · intro method
      unfold minimize
      rw [hspecify]
    · unfold minimizeAll
      rw [hspecify]
  · intro f off off' h ties
    unfold expand
    rw [CoverMatrix.simplify_congr (reduce_differenceMatrix_congr f h)]

/-- Two lists with a repetition, and three vectors of which one comes twice. -/
theorem results_depend_on_sets_repeated :
    (∀ n : Int64, n ∈ [6, 3, 5, 3] ↔ n ∈ [3, 5, 6]) ∧
      (∀ n : Int64, n ∈ [7, 0] ↔ n ∈ [0, 7, 0]) ∧
      (∀ n ∈ ([6, 3, 5, 3] : List Int64), 0 ≤ n) ∧ (∀ n ∈ ([7, 0] : List Int64), 0 ≤ n) ∧
      (∀ method, minimize method [6, 3, 5, 3] [7, 0] = minimize method [3, 5, 6] [0, 7, 0]) ∧
      minimizeAll [6, 3, 5, 3] [7, 0] = minimizeAll [3, 5, 6] [0, 7, 0] ∧
      ∀ ties, expand (encode 5 3) [encode 0 3, encode 7 3, encode 2 3] ties =
        expand (encode 5 3) [encode 2 3, encode 0 3, encode 2 3, encode 7 3] ties := by
  have hon : ∀ n : Int64, n ∈ [6, 3, 5, 3] ↔ n ∈ [3, 5, 6] := by grind
  have hoff : ∀ n : Int64, n ∈ [7, 0] ↔ n ∈ [0, 7, 0] := by grind
  have hon_nonneg : ∀ n ∈ ([6, 3, 5, 3] : List Int64), 0 ≤ n := by simp
  have hoff_nonneg : ∀ n ∈ ([7, 0] : List Int64), 0 ≤ n := by simp
  have hvectors : ∀ r, r ∈ [encode 0 3, encode 7 3, encode 2 3] ↔
      r ∈ [encode 2 3, encode 0 3, encode 2 3, encode 7 3] := by grind
  obtain ⟨hmethods, hall⟩ :=
    results_depend_on_sets.1 _ _ _ _ hon hoff hon_nonneg hoff_nonneg
  exact ⟨hon, hoff, hon_nonneg, hoff_nonneg, hmethods, hall,
    results_depend_on_sets.2 _ _ _ hvectors⟩

end TwoLevel
