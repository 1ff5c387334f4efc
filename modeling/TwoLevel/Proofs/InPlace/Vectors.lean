/-
  Vectors by position, continued: reading them, and telling two of them apart.

  As in `Evaluation`, a vector is the set of its set positions, together with its width. The word
  of a vector is put together by shifts, one for each set position. Two vectors differ in the
  positions which only one of them has (`symmetricDifference`), and they are compared by the first
  of these. The width for a list of words counts the leading zeros of the greatest one. All of this
  agrees with the definitions on lists of bits, which `toVector` gives for a set of positions.
-/
import TwoLevel.Proofs.BitValues
import TwoLevel.Proofs.InPlace.Evaluation
import TwoLevel.Proofs.MinimalRows

namespace TwoLevel

theorem Row.mem_ofBits {v : BitVector} {pos : Nat} :
    pos ∈ Row.ofBits v.bits ↔ v.get pos = true := by
  rw [Row.ofBits, Row.mem_positions, BitVector.get, List.getD_eq_getElem?_getD]
  cases v.bits[pos]? <;> simp

namespace InPlace

/-! ## Bits -/

/-- The vector of width `w` with the given set positions. -/
def toVector (w : Nat) (v : Row) : BitVector :=
  ⟨(List.range w).map v.contains⟩

theorem toVector_ofBits (v : BitVector) : toVector v.width (.ofBits v.bits) = v := by
  refine congrArg BitVector.mk (List.ext_getElem (by simp [BitVector.width]) fun pos hl hr => ?_)
  rw [List.getElem_map, List.getElem_range, Bool.eq_iff_iff, Row.contains_iff, Row.mem_ofBits,
    BitVector.get, List.getD_eq_getElem _ false hr]

theorem toVector_encode (n : UInt64) (w : Nat) :
    toVector w (InPlace.encode n w) = TwoLevel.encode n w := by
  have hbits := toVector_ofBits (TwoLevel.encode n w)
  rwa [BitVector.width_encode, ← encode_refines] at hbits

/-! ## Words -/

/-- Sets the bit of a variable below 64. -/
def setBit (n : UInt64) (v : Nat) : UInt64 :=
  n ||| 1 <<< UInt64.ofNat v

/-- The word of a vector of width `w`: the variables of its positions which are below 64. -/
def decode (w : Nat) (v : Row) : UInt64 :=
  ((v.columns.map (w - 1 - ·)).filter fun i => decide (i < 64)).foldl setBit 0

theorem testBit_setBit (n : UInt64) {v : Nat} (hv : v < 64) (i : Nat) :
    (setBit n v).toNat.testBit i = (n.toNat.testBit i || decide (v = i)) := by
  have hword : ((1 : UInt64) <<< UInt64.ofNat v).toNat = 2 ^ v := by
    rw [UInt64.toNat_shiftLeft, toNat_shift hv]
    show 1 <<< v % 2 ^ 64 = 2 ^ v
    rw [Nat.one_shiftLeft, Nat.mod_eq_of_lt (Nat.pow_lt_pow_right (by decide) hv)]
  rw [setBit, UInt64.toNat_or, hword, Nat.testBit_or, Nat.testBit_two_pow]

/-- The bits which are set before stay, and those of the variables are added. -/
theorem testBit_foldl_setBit {vars : List Nat} (h : ∀ v ∈ vars, v < 64) (n : UInt64) (i : Nat) :
    (vars.foldl setBit n).toNat.testBit i = (n.toNat.testBit i || decide (i ∈ vars)) := by
  induction vars generalizing n with
  | nil => simp
  | cons v vars ih =>
    rw [List.foldl_cons, ih fun x hx => h x (List.mem_cons_of_mem v hx),
      testBit_setBit n (h v List.mem_cons_self), Bool.or_assoc]
    simp [eq_comm]

/-- The variables of the set positions. -/
theorem mem_map_variable {v : BitVector} {i : Nat} :
    i ∈ (Row.ofBits v.bits).columns.map (v.width - 1 - ·) ↔
      i < v.width ∧ v.get (v.width - 1 - i) = true := by
  rw [List.mem_map]
  constructor
  · intro h
    obtain ⟨pos, hpos, rfl⟩ := h
    have hget : v.get pos = true := Row.mem_ofBits.mp hpos
    have hwidth : pos < v.width := v.lt_width_of_get hget
    rw [show v.width - 1 - (v.width - 1 - pos) = pos by omega]
    exact ⟨by omega, hget⟩
  · intro h
    obtain ⟨hi, hget⟩ := h
    exact ⟨v.width - 1 - i, Row.mem_ofBits.mpr hget, by omega⟩

theorem decode_refines (v : BitVector) :
    InPlace.decode v.width (.ofBits v.bits) = TwoLevel.decode v := by
  have hlt : ∀ x ∈ ((Row.ofBits v.bits).columns.map (v.width - 1 - ·)).filter
      fun i => decide (i < 64), x < 64 := fun x hx => of_decide_eq_true (List.mem_filter.mp hx).2
  refine UInt64.toNat_inj.mp (Nat.eq_of_testBit_eq fun i => ?_)
  rw [InPlace.decode, testBit_foldl_setBit hlt, testBit_decode, Bool.eq_iff_iff]
  simp [mem_map_variable, and_comm]

/-! ## Differences -/

/-- The elements of exactly one of two sets. -/
def symmetricDifference (r s : Row) : Row :=
  .ofList ((r.columns.filter fun c => !s.contains c) ++ s.columns.filter fun c => !r.contains c)

/-- Compares two sets by the first element which only one of them has. -/
def lexicographic (r s : Row) : Ordering :=
  match (symmetricDifference r s).columns with
  | [] => .eq
  | c :: _ => if r.contains c then .gt else .lt

theorem mem_symmetricDifference {r s : Row} {c : Nat} :
    c ∈ symmetricDifference r s ↔ ¬(c ∈ r ↔ c ∈ s) := by
  simp only [symmetricDifference, Row.mem_ofList, List.mem_append, List.mem_filter, ← Row.mem_def,
    Bool.not_eq_true', ← Bool.not_eq_true, Row.contains_iff]
  tauto

theorem symmetricDifference_refines {a b : BitVector} (h : a.width = b.width) :
    symmetricDifference (.ofBits a.bits) (.ofBits b.bits) = .ofBits (a.xor b).bits := by
  refine Row.ext fun c => ?_
  rw [mem_symmetricDifference, Row.mem_ofBits, Row.mem_ofBits, Row.mem_ofBits,
    BitVector.get_xor h]
  cases a.get c <;> cases b.get c <;> decide

theorem lexicographic_refines (r s : Row) :
    InPlace.lexicographic r s = r.lexicographic s := by
  have hdiff := @mem_symmetricDifference r s
  unfold InPlace.lexicographic
  split
  · next hnil =>
    refine (Row.lexicographic_eq_eq_iff.mpr (Row.ext fun c => ?_)).symm
    by_contra hc
    have hmem : c ∈ (symmetricDifference r s).columns := hdiff.mpr hc
    rw [hnil] at hmem
    cases hmem
  · next c rest hcons =>
    have hmem : c ∈ (symmetricDifference r s).columns := hcons ▸ List.mem_cons_self
    have hfirst : ¬(c ∈ r ↔ c ∈ s) := hdiff.mp hmem
    have hbefore : ∀ d < c, d ∈ r ↔ d ∈ s := by
      intro d hd
      by_contra hne
      have hmem : d ∈ c :: rest := hcons ▸ hdiff.mpr hne
      exact Nat.not_le_of_lt hd (head_le_of_mem (hcons ▸ (symmetricDifference r s).ascending) hmem)
    by_cases hc : c ∈ r
    · have hcs : c ∉ s := fun h => hfirst (iff_of_true hc h)
      have hlt : s.lexicographic r = .lt :=
        Row.lexicographic_eq_lt_iff.mpr ⟨c, hcs, hc, fun d hd => (hbefore d hd).symm⟩
      rw [if_pos (Row.contains_iff.mpr hc), @Std.OrientedCmp.eq_swap _ Row.lexicographic, hlt]
      rfl
    · have hcs : c ∈ s := not_not.mp fun h => hfirst (iff_of_false hc h)
      rw [if_neg (fun h => hc (Row.contains_iff.mp h))]
      exact (Row.lexicographic_eq_lt_iff.mpr ⟨c, hc, hcs, hbefore⟩).symm

/-! ## Widths -/

/-- The number of bits below the leading zeros of the greatest word, and at least 1. -/
def widthFor (on off : List UInt64) : Nat :=
  max (64 - ((on ++ off).max?.getD 0).toBitVec.clz.toNat) 1

theorem max_clz_eq_log2 (n : UInt64) : max (64 - n.toBitVec.clz.toNat) 1 = n.toNat.log2 + 1 := by
  by_cases hn : n = 0
  · subst hn
    decide
  · have hzero : n.toBitVec ≠ 0 := fun h => hn (UInt64.toBitVec_inj.mp h)
    have hclz : n.toBitVec.clz.toNat < 64 := BitVec.clz_lt_iff_ne_zero.mpr hzero
    have hlower : 2 ^ (64 - 1 - n.toBitVec.clz.toNat) ≤ n.toNat :=
      BitVec.two_pow_sub_clz_le_toNat_of_ne_zero (by decide) hzero
    have hupper : n.toNat < 2 ^ (64 - n.toBitVec.clz.toNat) := BitVec.toNat_lt_two_pow_sub_clz
    have hne : n.toNat ≠ 0 := fun h => hn (UInt64.toNat_inj.mp h)
    have hlog : n.toNat.log2 = 64 - 1 - n.toBitVec.clz.toNat := by
      refine (Nat.log2_eq_iff hne).mpr ⟨hlower, ?_⟩
      rwa [show 64 - 1 - n.toBitVec.clz.toNat + 1 = 64 - n.toBitVec.clz.toNat by omega]
    omega

/-- The greatest word is the one of the greatest number. -/
theorem toNat_max?_getD (ns : List UInt64) :
    (ns.max?.getD 0).toNat = (ns.map UInt64.toNat).max?.getD 0 := by
  cases ns with
  | nil => rfl
  | cons n ns =>
    rw [List.map_cons, List.max?_cons', List.max?_cons', Option.getD_some, Option.getD_some,
      List.foldl_map]
    exact (List.foldl_hom UInt64.toNat fun x y => (UInt64.toNat_max x y).symm).symm

theorem widthFor_refines (on off : List UInt64) :
    InPlace.widthFor on off = TwoLevel.widthFor on off := by
  rw [InPlace.widthFor, max_clz_eq_log2, toNat_max?_getD]
  rfl

end InPlace

end TwoLevel
