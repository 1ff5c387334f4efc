/-
  The expansion of a vector, for every vector and every OFF-set.

  A vector of the OFF-set has no implicant, and its expansion fails. Any other vector expands into
  exactly its smallest implicants (`expand_smallest_implicants`). They are the smallest also among
  the cubes of all widths: on vectors of width `w` a cube which contains one of them does what its
  first `w` positions do, filled up with free ones (`contains_fit`).
-/
import TwoLevel.Proofs.InPlace.Expansion

namespace TwoLevel

namespace Cube

/-! ## Cubes of another width -/

/-- The first `w` values, filled up with free ones. -/
def fitValues : Nat → List Ternary → List Ternary
  | 0, _ => []
  | w + 1, [] => .free :: fitValues w []
  | w + 1, t :: ts => t :: fitValues w ts

/-- The cube on vectors of width `w`. -/
def fit (w : Nat) (c : Cube) : Cube :=
  ⟨fitValues w c.values⟩

theorem length_fitValues (w : Nat) (ts : List Ternary) : (fitValues w ts).length = w := by
  induction w generalizing ts with
  | zero => rfl
  | succ w ih => cases ts <;> simp [fitValues, ih]

theorem width_fit (w : Nat) (c : Cube) : (c.fit w).width = w :=
  length_fitValues w c.values

theorem countP_fitValues_le (w : Nat) (ts : List Ternary) :
    (fitValues w ts).countP (· != .free) ≤ ts.countP (· != .free) := by
  induction w generalizing ts with
  | zero => exact Nat.zero_le _
  | succ w ih =>
    cases ts with
    | nil => simpa [fitValues] using ih []
    | cons t ts =>
      rw [fitValues, List.countP_cons, List.countP_cons]
      exact Nat.add_le_add_right (ih ts) _

theorem literalCount_fit_le (w : Nat) (c : Cube) : (c.fit w).literalCount ≤ c.literalCount :=
  countP_fitValues_le w c.values

/-- The values beyond the vector are compared with clear bits. -/
theorem acceptsBits_eq (ts : List Ternary) (bits : List Bool) :
    acceptsBits ts bits =
      (acceptsBits (fitValues bits.length ts) bits &&
        (ts.drop bits.length).all (·.accepts false)) := by
  induction ts generalizing bits with
  | nil =>
    induction bits with
    | nil => rfl
    | cons b bits ih => simpa [acceptsBits, fitValues, Ternary.accepts] using ih
  | cons t ts ih =>
    cases bits with
    | nil =>
      have hrest := ih []
      simp only [List.length_nil, fitValues, List.drop_zero, acceptsBits, Bool.true_and] at hrest ⊢
      rw [hrest, List.all_cons]
    | cons b bits => simp [acceptsBits, fitValues, ih bits, Bool.and_assoc]

/-- A cube which contains a vector treats all vectors of its width as the fitted cube does. -/
theorem contains_fit {c : Cube} {v r : BitVector} (hv : c.contains v = true)
    (hwidth : r.width = v.width) : (c.fit v.width).contains r = c.contains r := by
  have hlen : r.bits.length = v.bits.length := hwidth
  have hbeyond : ((c.values.drop v.bits.length).all (·.accepts false)) = true := by
    rw [contains, acceptsBits_eq, Bool.and_eq_true] at hv
    exact hv.2
  calc (c.fit v.width).contains r = acceptsBits (fitValues r.bits.length c.values) r.bits := by
        rw [hlen]
        rfl
    _ = c.contains r := by
        rw [contains, acceptsBits_eq c.values, hlen, hbeyond, Bool.and_true]

end Cube

/-! ## The expansion -/

variable {f : BitVector} {off : List BitVector}

/-- No cube of any width which contains `f` and avoids the OFF-set has fewer literals. -/
theorem IsSmallestImplicant.literalCount_le (hoff : ∀ r ∈ off, r.width = f.width) {c d : Cube}
    (h : IsSmallestImplicant f off c) (hf : d.contains f = true)
    (havoids : ∀ r ∈ off, d.contains r = false) : c.literalCount ≤ d.literalCount := by
  have hfit : IsImplicant f off (d.fit f.width) :=
    ⟨d.width_fit f.width, (Cube.contains_fit hf rfl).trans hf,
      fun r hr => (Cube.contains_fit hf (hoff r hr)).trans (havoids r hr)⟩
  calc c.literalCount ≤ (d.fit f.width).literalCount := h.least _ hfit
    _ ≤ d.literalCount := d.literalCount_fit_le f.width

/-- The expansion of a vector fails if the vector is in the OFF-set. Else it lists, each once, the
    cubes of its width which contain it and avoid the OFF-set, as far as no cube which does so has
    fewer literals; with one of several ties kept, it is the first of them. No index is out of
    range. -/
theorem expand_smallest_implicants (hoff : ∀ r ∈ off, r.width = f.width) :
    (f ∈ off → ∀ ties, expand f off ties = .error .rowWithoutColumn) ∧
    (f ∉ off → ∃ first others, expand f off .all = .ok (first :: others) ∧
      expand f off .first = .ok [first] ∧ (first :: others).Nodup ∧
      ∀ c, c ∈ first :: others ↔ c.width = f.width ∧ c.contains f = true ∧
        (∀ r ∈ off, c.contains r = false) ∧
        ∀ d : Cube, d.contains f = true → (∀ r ∈ off, d.contains r = false) →
          c.literalCount ≤ d.literalCount) ∧
    ∀ ties, (InPlace.expand f off ties).run = some (expand f off ties) := by
  refine ⟨expand_of_mem, fun hf => ?_, fun ties => ?_⟩
  · obtain ⟨cubes, hall, hne, hnodup, hmem⟩ := expand_all_spec hoff hf
    obtain ⟨first, others, rfl⟩ := List.exists_cons_of_ne_nil hne
    refine ⟨first, others, hall, ?_, hnodup, fun c => (hmem c).trans ⟨fun hc => ?_, fun hc => ?_⟩⟩
    · rw [expand_eq_map_all, hall]
      rfl
    · exact ⟨hc.width, hc.contains, hc.avoids, fun d => hc.literalCount_le hoff⟩
    · obtain ⟨hwidth, hcontains, havoids, hleast⟩ := hc
      exact ⟨⟨hwidth, hcontains, havoids⟩, fun d hd => hleast d hd.contains hd.avoids⟩
  · rw [InPlace.expand_refines hoff, InPlace.run_lift]

/-- `000` forces the literal of the last position; `111` leaves the choice between the other two. -/
theorem expand_smallest_implicants_tied :
    let f : BitVector := ⟨[false, false, true]⟩
    let off : List BitVector := [⟨[true, true, true]⟩, ⟨[false, false, false]⟩]
    (∀ r ∈ off, r.width = f.width) ∧ f ∉ off ∧
      ∃ first second, expand f off .all = .ok [first, second] ∧
        expand f off .first = .ok [first] ∧ first ≠ second ∧
        ∀ c, c ∈ [first, second] ↔ c.width = f.width ∧ c.contains f = true ∧
          (∀ r ∈ off, c.contains r = false) ∧
          ∀ d : Cube, d.contains f = true → (∀ r ∈ off, d.contains r = false) →
            c.literalCount ≤ d.literalCount := by
  intro f off
  have hoff : ∀ r ∈ off, r.width = f.width := by decide
  have hf : f ∉ off := by decide
  obtain ⟨first, others, hall, hfirst, hnodup, hmem⟩ := (expand_smallest_implicants hoff).2.1 hf
  have heval : (expand f off .all).toOption =
      some [⟨[.zero, .free, .one]⟩, ⟨[.free, .zero, .one]⟩] := by decide +kernel
  rw [hall] at heval
  obtain ⟨_, rfl⟩ := List.cons.inj (Option.some.inj heval)
  exact ⟨hoff, hf, first, _, hall, hfirst, by simpa using hnodup, hmem⟩

end TwoLevel
