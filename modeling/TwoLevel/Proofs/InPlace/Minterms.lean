/-
  The specification of two lists, with its sets built element by element.

  The values of a list are put into a set one after the other, and the first one which is negative
  ends this. The first element of the intersection, if there is one, is reported. The vectors are
  the sets of positions of `Evaluation`, in the width which the leading zeros give
  (`InPlace.widthFor`). All of this agrees with `Specification.ofLists` (`ofLists_refines`).
-/
import TwoLevel.Proofs.InPlace.Vectors
import TwoLevel.Proofs.Specifications

namespace TwoLevel.InPlace

/-! ## One list -/

/-- Puts the values into an ascending list of words, unless one of them is negative. -/
def collectMinterms : List Int64 → List UInt64 → Except InputError (List UInt64)
  | [], set => .ok set
  | n :: ns, set =>
    if n < 0 then .error (.negative n) else collectMinterms ns (insertAscending n.toUInt64 set)

theorem collectMinterms_of_nonneg {ns : List Int64} (h : ∀ n ∈ ns, 0 ≤ n) (set : List UInt64) :
    collectMinterms ns set =
      .ok ((ns.map Int64.toUInt64).foldl (fun set u => insertAscending u set) set) := by
  induction ns generalizing set with
  | nil => rfl
  | cons n ns ih =>
    obtain ⟨hn, h⟩ := List.forall_mem_cons.mp h
    rw [collectMinterms, if_neg (Int64.not_lt.mpr hn), ih h, List.map_cons, List.foldl_cons]

theorem collectMinterms_of_firstNegative {ns : List Int64} {n : Int64} (h : FirstNegative ns n)
    (set : List UInt64) : collectMinterms ns set = .error (.negative n) := by
  obtain ⟨before, after, rfl, hbefore, hn⟩ := h
  induction before generalizing set with
  | nil => rw [List.nil_append, collectMinterms, if_pos hn]
  | cons m before ih =>
    obtain ⟨hm, hbefore⟩ := List.forall_mem_cons.mp hbefore
    rw [List.cons_append, collectMinterms, if_neg (Int64.not_lt.mpr hm), ih _ hbefore]

/-- The order in which the words come into the set does not matter. -/
theorem foldl_insertAscending (us : List UInt64) :
    us.foldl (fun set u => insertAscending u set) [] = ascending us :=
  calc us.foldl (fun set u => insertAscending u set) []
    _ = ascending us.reverse := List.foldl_eq_foldr_reverse
    _ = ascending us := ascending_congr fun _ => List.mem_reverse

theorem collectMinterms_refines (ns : List Int64) : collectMinterms ns [] = checkedMinterms ns := by
  rcases nonneg_or_firstNegative ns with h | ⟨n, hn⟩
  · rw [collectMinterms_of_nonneg h, checkedMinterms_of_nonneg h, foldl_insertAscending]
  · rw [collectMinterms_of_firstNegative hn, checkedMinterms_of_firstNegative hn]

/-! ## Both lists -/

/-- The ON-set and the OFF-set of a function, or what is wrong with the two lists. -/
def ofLists (on off : List Int64) : Except InputError Specification := do
  let on ← collectMinterms on []
  let off ← collectMinterms off []
  match (on.filter fun n => decide (n ∈ off)).head? with
  | some n => throw (.shared n)
  | none =>
    let width := InPlace.widthFor on off
    let vector (n : UInt64) := toVector width (InPlace.encode n width)
    return ⟨width, on.map vector, off.map vector⟩

theorem ofLists_refines (on off : List Int64) :
    InPlace.ofLists on off = Specification.ofLists on off := by
  unfold InPlace.ofLists
  simp only [collectMinterms_refines, List.head?_filter, widthFor_refines, toVector_encode]
  rfl

end TwoLevel.InPlace
