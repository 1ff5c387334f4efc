/-
  The order of the rows.

  Two vectors of one width are compared by the first position where they differ. As the first
  position has the most significant bit, this is the order of the words which they denote
  (`lexicographic_encode`).

  On all finite sets of columns it is a total order which only equal sets do not tell apart. So
  there are no ties when the rows of a matrix are sorted, and the sorted rows do not depend on the
  order in which they were given (`sortedRows_congr`).
-/
import TwoLevel.Proofs.InPlace.Vectors

namespace TwoLevel

/-! ## Vectors as rows -/

theorem mem_ofBits_encode {n : UInt64} {w pos : Nat} :
    pos ∈ Row.ofBits (encode n w).bits ↔ pos < w ∧ n.toNat.testBit (w - 1 - pos) = true := by
  rw [Row.mem_ofBits, get_encode, Bool.and_eq_true, decide_eq_true_eq]

theorem ofBits_injective {u v : BitVector} (hwidth : u.width = v.width)
    (h : Row.ofBits u.bits = Row.ofBits v.bits) : u = v := by
  refine BitVector.ext_get hwidth fun pos => ?_
  rw [Bool.eq_iff_iff, ← Row.mem_ofBits, ← Row.mem_ofBits, h]

section Words

variable {w : Nat} {a b : UInt64} (ha : a.toNat < 2 ^ w) (hb : b.toNat < 2 ^ w)

include ha hb

/-- Words which agree on all positions before `c` have the same bits above its variable. -/
theorem testBit_eq_of_positions {c : Nat}
    (hbefore : ∀ d < c, d ∈ Row.ofBits (encode a w).bits ↔ d ∈ Row.ofBits (encode b w).bits)
    {i : Nat} (hi : w - 1 - c < i) : a.toNat.testBit i = b.toNat.testBit i := by
  rcases Nat.lt_or_ge i w with hiw | hiw
  · have hpos := hbefore (w - 1 - i) (by omega)
    rw [mem_ofBits_encode, mem_ofBits_encode, show w - 1 - (w - 1 - i) = i by omega] at hpos
    rw [Bool.eq_iff_iff]
    have hlt : w - 1 - i < w := by omega
    simpa [hlt] using hpos
  · have hpow : 2 ^ w ≤ 2 ^ i := Nat.pow_le_pow_right (by decide) hiw
    rw [Nat.testBit_lt_two_pow (Nat.lt_of_lt_of_le ha hpow),
      Nat.testBit_lt_two_pow (Nat.lt_of_lt_of_le hb hpow)]

/-- The first position which only one of the vectors has set decides between their words. -/
theorem lt_of_lexicographic_encode
    (h : (Row.ofBits (encode a w).bits).lexicographic (.ofBits (encode b w).bits) = .lt) :
    a < b := by
  obtain ⟨c, hca, hcb, hbefore⟩ := Row.lexicographic_eq_lt_iff.mp h
  obtain ⟨hcw, hset⟩ := mem_ofBits_encode.mp hcb
  have hclear : a.toNat.testBit (w - 1 - c) = false := by
    rw [← Bool.not_eq_true]
    exact fun hbit => hca (mem_ofBits_encode.mpr ⟨hcw, hbit⟩)
  exact UInt64.lt_iff_toNat_lt.mpr (Nat.lt_of_testBit (w - 1 - c) hclear hset fun _ hi =>
    testBit_eq_of_positions ha hb hbefore hi)

/-- The order of the vectors is that of the words. -/
theorem lexicographic_encode :
    (Row.ofBits (encode a w).bits).lexicographic (.ofBits (encode b w).bits) = compare a b := by
  cases h : (Row.ofBits (encode a w).bits).lexicographic (.ofBits (encode b w).bits) with
  | lt => exact (Std.compare_eq_lt.mpr (lt_of_lexicographic_encode ha hb h)).symm
  | gt =>
    rw [@Std.OrientedCmp.eq_swap _ Row.lexicographic, Ordering.swap_eq_gt] at h
    exact (Std.compare_eq_gt.mpr (lt_of_lexicographic_encode hb ha h)).symm
  | eq =>
    have hvectors : encode a w = encode b w :=
      ofBits_injective (by simp) (Row.lexicographic_eq_eq_iff.mp h)
    exact (Std.compare_eq_iff_eq.mpr (encode_injective ha hb hvectors)).symm

end Words

/-! ## The sorted rows -/

/-- No rows are tied, so that the sorted rows are known from the rows alone. -/
theorem sortedRows_congr {rows others : List Row} (h : rows.Perm others) :
    stableSort (fun r s => (r.order s).isLE) rows =
      stableSort (fun r s => (r.order s).isLE) others := by
  have hsorted : ∀ l : List Row, (stableSort (fun r s => (r.order s).isLE) l).Pairwise
      fun r s => (r.order s).isLE = true :=
    stableSort_pairwise Row.order_total fun _ _ _ => @Std.TransCmp.isLE_trans _ Row.order _ _ _ _
  have hperm : (stableSort (fun r s => (r.order s).isLE) rows).Perm
      (stableSort (fun r s => (r.order s).isLE) others) :=
    (stableSort_perm _ rows).trans (h.trans (stableSort_perm _ others).symm)
  refine hperm.eq_of_pairwise (fun r s _ _ hrs hsr => ?_) (hsorted rows) (hsorted others)
  exact Row.eq_of_order_eq (@Std.OrientedCmp.isLE_antisymm _ Row.order _ _ _ hrs hsr)

/-- Vectors are compared as the words which they denote. The comparison is a total order of all
    finite sets of positions which tells apart any two of them, and so does the order by which the
    rows of a matrix are sorted: the sorted rows are the same for every order of the rows. The
    comparison by the first element of the symmetric difference agrees. -/
theorem lexicographic_total_order :
    (∀ (w : Nat) (a b : UInt64), a.toNat < 2 ^ w → b.toNat < 2 ^ w →
      (Row.ofBits (encode a w).bits).lexicographic (.ofBits (encode b w).bits) = compare a b) ∧
    (∀ r s : Row, r.lexicographic s = (s.lexicographic r).swap) ∧
    (∀ r s t : Row, (r.lexicographic s).isLE = true → (s.lexicographic t).isLE = true →
      (r.lexicographic t).isLE = true) ∧
    (∀ r s : Row, r.lexicographic s = .eq ↔ r = s) ∧
    (∀ r s : Row, r.order s = .eq ↔ r = s) ∧
    (∀ rows others : List Row, rows.Perm others →
      stableSort (fun r s => (r.order s).isLE) rows =
        stableSort (fun r s => (r.order s).isLE) others) ∧
    ∀ r s : Row, InPlace.lexicographic r s = r.lexicographic s := by
  refine ⟨fun w a b ha hb => lexicographic_encode ha hb, fun r s => ?_, fun r s t hrs hst => ?_,
    fun r s => Row.lexicographic_eq_eq_iff, fun r s => ⟨Row.eq_of_order_eq, fun h => ?_⟩,
    fun rows others => sortedRows_congr, InPlace.lexicographic_refines⟩
  · exact @Std.OrientedCmp.eq_swap _ Row.lexicographic _ r s
  · exact @Std.TransCmp.isLE_trans _ Row.lexicographic _ r s t hrs hst
  · rw [h]
    exact @Std.ReflCmp.compare_self _ Row.order _ s

/-- The words 6, 11 and 12 in width 4: as sets of positions, `{1, 2}`, `{0, 2, 3}` and `{0, 1}`. -/
theorem lexicographic_total_order_of_words :
    let r : Row := .ofBits (encode 6 4).bits
    let s : Row := .ofBits (encode 11 4).bits
    let t : Row := .ofBits (encode 12 4).bits
    (6 : UInt64).toNat < 2 ^ 4 ∧ (11 : UInt64).toNat < 2 ^ 4 ∧
      r.lexicographic s = compare (6 : UInt64) 11 ∧
      (r.lexicographic s).isLE = true ∧ (s.lexicographic t).isLE = true ∧
      (r.lexicographic t).isLE = true ∧
      [r, s, t].Perm [t, s, r] ∧
      stableSort (fun r s => (r.order s).isLE) [r, s, t] =
        stableSort (fun r s => (r.order s).isLE) [t, s, r] := by
  intro r s t
  obtain ⟨hwords, _, htrans, _, _, hsort, _⟩ := lexicographic_total_order
  have hrs : (r.lexicographic s).isLE = true := by decide
  have hst : (s.lexicographic t).isLE = true := by decide
  have hperm : [r, s, t].Perm [t, s, r] := List.reverse_perm [t, s, r]
  exact ⟨by decide, by decide, hwords 4 6 11 (by decide) (by decide), hrs, hst,
    htrans r s t hrs hst, hperm, hsort _ _ hperm⟩

end TwoLevel
