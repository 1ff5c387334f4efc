/-
  The polarity of the variables does not matter to an expansion.

  If the same positions are flipped in a minterm `f` and in every vector of the OFF-set, these
  differ from `f` where they differed before (`xor_xor`). So the difference matrix keeps its rows,
  and only its labels, the literals of `f`, take the other polarity (`differenceMatrix_xor`). As
  labels are carried along by the search (`CoverMatrix.relabel`), the literals of the cubes found
  are flipped, and with them the cubes (`ofLiterals_flip`).
-/
import TwoLevel.Proofs.InPlace.Expansion
import TwoLevel.Proofs.Relabelling

namespace TwoLevel

variable {m : BitVector}

/-! ## Vectors -/

namespace BitVector

theorem width_xor {v : BitVector} (h : v.width = m.width) : (v.xor m).width = m.width :=
  List.length_zipWith.trans (Nat.min_eq_right (Nat.le_of_eq h.symm))

theorem getElem?_xor {v : BitVector} (h : v.width = m.width) (k : Nat) :
    (v.xor m).bits[k]? = v.bits[k]?.map (· ^^ m.get k) := by
  have hlen : v.bits.length = m.bits.length := h
  rw [xor, List.getElem?_zipWith]
  by_cases hk : k < v.bits.length
  · simp [get, hk, hlen ▸ hk]
  · simp [List.getElem?_eq_none (Nat.le_of_not_lt hk)]

/-- Two vectors which are flipped in the same positions differ where they differed before. -/
theorem xor_xor {r f : BitVector} (hr : r.width = m.width) (hf : f.width = m.width) :
    (r.xor m).xor (f.xor m) = r.xor f := by
  have hcancel : ∀ a b c : Bool, ((a ^^ c) ^^ (b ^^ c)) = (a ^^ b) := by decide
  refine congrArg mk (List.ext_getElem? fun k => ?_)
  rw [List.getElem?_zipWith, List.getElem?_zipWith, getElem?_xor hr, getElem?_xor hf]
  cases r.bits[k]? <;> cases f.bits[k]? <;> simp only [Option.map_some, Option.map_none, hcancel]

end BitVector

/-! ## Literals -/

namespace Literal

/-- The literal with the other polarity, if its variable is set in `m`. -/
def flip (m : BitVector) (l : Literal) : Literal :=
  ⟨l.index, l.positive ^^ m.get (m.width - 1 - l.index)⟩

theorem polarity?_flip (m : BitVector) (lits : List Literal) (v : Nat) :
    polarity? (lits.map (flip m)) v =
      (polarity? lits v).map (· ^^ m.get (m.width - 1 - v)) := by
  induction lits with
  | nil => rfl
  | cons l lits ih =>
    rw [List.map_cons, polarity?, polarity?, ih, Option.map_or]
    congr 1
    by_cases hv : l.index = v
    · subst hv
      simp [flip]
    · simp [flip, hv]

end Literal

theorem literalsOfBits_xor {v : BitVector} (h : v.width = m.width) :
    literalsOfBits (v.xor m).bits = (literalsOfBits v.bits).map (Literal.flip m) := by
  have hlen : (v.xor m).bits.length = v.bits.length := (BitVector.width_xor h).trans h.symm
  refine List.ext_getElem? fun k => ?_
  rw [List.getElem?_map, getElem?_literalsOfBits, getElem?_literalsOfBits,
    BitVector.getElem?_xor h, hlen, Option.map_map, Option.map_map]
  refine Option.map_congr fun b hb => ?_
  have hk : k < v.bits.length := (List.getElem?_eq_some_iff.mp hb).1
  have hplace : m.width - 1 - (v.bits.length - 1 - k) = k := by
    rw [← h]
    show v.bits.length - 1 - (v.bits.length - 1 - k) = k
    omega
  simp only [Function.comp_apply, Literal.flip, hplace]

/-- The matrix keeps its rows. -/
theorem differenceMatrix_xor {f : BitVector} {off : List BitVector} (hf : f.width = m.width)
    (hoff : ∀ r ∈ off, r.width = m.width) :
    differenceMatrix (f.xor m) (off.map (·.xor m)) =
      (differenceMatrix f off).relabel (Literal.flip m) := by
  have hrows : ((off.map (·.xor m)).map fun r => Row.ofBits (r.xor (f.xor m)).bits) =
      off.map fun r => Row.ofBits (r.xor f).bits := by
    rw [List.map_map]
    refine List.map_congr_left fun r hr => ?_
    rw [Function.comp_apply, BitVector.xor_xor (hoff r hr) hf]
  exact congrArg₂ CoverMatrix.mk hrows (literalsOfBits_xor hf)

/-! ## Cubes -/

/-- The other value, if the position is fixed and `b` is set. -/
def Ternary.flip : Ternary → Bool → Ternary
  | zero, true => one
  | one, true => zero
  | t, _ => t

theorem Ternary.flip_ofPolarity (p : Option Bool) (b : Bool) :
    (ofPolarity p).flip b = ofPolarity (p.map (· ^^ b)) := by
  rcases p with _ | _ | _ <;> cases b <;> rfl

/-- The cube with the other value in each fixed position which is set in `m`. -/
def Cube.flip (c : Cube) (m : BitVector) : Cube :=
  ⟨c.values.mapIdx fun pos t => t.flip (m.get pos)⟩

theorem Cube.ofLiterals_flip (m : BitVector) (lits : List Literal) :
    ofLiterals m.width (lits.map (Literal.flip m)) = (ofLiterals m.width lits).flip m := by
  refine congrArg mk (List.ext_getElem? fun k => ?_)
  rw [List.getElem?_mapIdx, ofLiterals]
  by_cases hk : k < m.width
  · have hplace : m.width - 1 - (m.width - 1 - k) = k := by omega
    rw [getElem?_descending _ hk, getElem?_descending _ hk, Literal.polarity?_flip, hplace,
      ← Ternary.flip_ofPolarity]
    rfl
  · have hle : m.width ≤ k := Nat.le_of_not_lt hk
    rw [getElem?_descending_of_le _ hle, getElem?_descending_of_le _ hle]
    rfl

/-! ## The expansion -/

theorem Ties.select_map {α β : Type} (ties : Ties) (g : α → β) (l : List α) :
    ties.select (l.map g) = (ties.select l).map g := by
  cases ties with
  | all => rfl
  | first => exact List.map_take.symm

/-- The cubes of the flipped literals are the flipped cubes. -/
theorem map_ofLiterals_flip {f : BitVector} (hf : f.width = m.width) (ties : Ties)
    (forced : List Literal) (covers : List (List Literal)) :
    ((ties.select (covers.map (List.map (Literal.flip m)))).map fun cover =>
        Cube.ofLiterals (f.xor m).width (forced.map (Literal.flip m) ++ cover)) =
      ((ties.select covers).map fun cover =>
        Cube.ofLiterals f.width (forced ++ cover)).map (·.flip m) := by
  rw [Ties.select_map, List.map_map, List.map_map]
  refine List.map_congr_left fun cover _ => ?_
  rw [Function.comp_apply, Function.comp_apply, BitVector.width_xor hf, ← List.map_append,
    Cube.ofLiterals_flip, hf]

/-- A vector and an OFF-set in which the same positions are flipped: the expansion fails if it
    failed before, for the same reason, and else finds the same cubes in the same order, each with
    the other value in its fixed positions which are flipped. So does the expansion in place. -/
theorem expand_flipped {f : BitVector} {off : List BitVector} (hf : f.width = m.width)
    (hoff : ∀ r ∈ off, r.width = m.width) (ties : Ties) :
    expand (f.xor m) (off.map (·.xor m)) ties = (expand f off ties).map (List.map (·.flip m)) ∧
    (InPlace.expand (f.xor m) (off.map (·.xor m)) ties).run =
      some ((expand f off ties).map (List.map (·.flip m))) := by
  have hexpand : expand (f.xor m) (off.map (·.xor m)) ties =
      (expand f off ties).map (List.map (·.flip m)) := by
    unfold expand
    rw [differenceMatrix_xor hf hoff, CoverMatrix.simplify_relabel]
    cases (differenceMatrix f off).simplify with
    | error d => rfl
    | ok simplified =>
      obtain ⟨forced, rest⟩ := simplified
      simp only [Except.map, bind, Except.bind, CoverMatrix.minimalCovers_relabel]
      cases rest.minimalCovers with
      | error d => rfl
      | ok covers => exact congrArg Except.ok (map_ofLiterals_flip hf ties forced covers)
  have hwidth : ∀ r ∈ off.map (·.xor m), r.width = (f.xor m).width :=
    List.forall_mem_map.mpr fun r hr =>
      (BitVector.width_xor (hoff r hr)).trans (BitVector.width_xor hf).symm
  refine ⟨hexpand, ?_⟩
  rw [InPlace.expand_refines hwidth, InPlace.run_lift, hexpand]

/-- The first and the last position are flipped, which are fixed in one of the two cubes each. -/
theorem expand_flipped_tied :
    let f : BitVector := ⟨[false, false, true]⟩
    let m : BitVector := ⟨[true, false, true]⟩
    let off : List BitVector := [⟨[true, true, true]⟩, ⟨[false, false, false]⟩]
    f.width = m.width ∧ (∀ r ∈ off, r.width = m.width) ∧
      expand f off .all = .ok [⟨[.zero, .free, .one]⟩, ⟨[.free, .zero, .one]⟩] ∧
      expand ⟨[true, false, false]⟩ [⟨[false, true, false]⟩, ⟨[true, false, true]⟩] .all =
        .ok [⟨[.one, .free, .zero]⟩, ⟨[.free, .zero, .zero]⟩] := by
  intro f m off
  have hf : f.width = m.width := rfl
  have hoff : ∀ r ∈ off, r.width = m.width := by decide
  have hexpand : expand f off .all =
      .ok [⟨[.zero, .free, .one]⟩, ⟨[.free, .zero, .one]⟩] := by decide +kernel
  refine ⟨hf, hoff, hexpand, ?_⟩
  have hflipped := (expand_flipped hf hoff .all).1
  rw [hexpand] at hflipped
  exact hflipped

end TwoLevel
