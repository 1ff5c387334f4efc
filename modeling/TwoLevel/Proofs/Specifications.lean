/-
  From two lists of integers to a specification.

  `Describes on off`: the lists describe a function, no value is negative and none is in both.
  `Refused on off e`: they do not, and `e` is the reason to report. One of the two
  holds (`describes_or_refused`); `Specification.ofLists` succeeds in the first case
  (`ofLists_of_describes`) and reports the reason in the second (`ofLists_of_refused`). The
  vectors of a specification have one width, which is enough to tell all values apart, so that the
  ON-set and the OFF-set stay disjoint (`Specification.encoding_wellFormed`).
-/
import TwoLevel.Proofs.BitValues
import TwoLevel.Proofs.Lookup
import TwoLevel.Specification

namespace TwoLevel

/-- No value is negative, and none is in both lists. -/
structure Describes (on off : List Int64) : Prop where
  on_nonneg : ∀ n ∈ on, 0 ≤ n
  off_nonneg : ∀ n ∈ off, 0 ≤ n
  disjoint : ∀ n ∈ on, n ∉ off

instance (on off : List Int64) : Decidable (Describes on off) :=
  decidable_of_iff ((∀ n ∈ on, 0 ≤ n) ∧ (∀ n ∈ off, 0 ≤ n) ∧ ∀ n ∈ on, n ∉ off)
    ⟨fun h => ⟨h.1, h.2.1, h.2.2⟩, fun h => ⟨h.on_nonneg, h.off_nonneg, h.disjoint⟩⟩

/-- The first negative value in the order of the list. -/
def FirstNegative (ns : List Int64) (n : Int64) : Prop :=
  ∃ before after, ns = before ++ n :: after ∧ (∀ m ∈ before, 0 ≤ m) ∧ n < 0

/-- The reason for which two lists describe no function: the first negative value of the ON-set,
    else the first one of the OFF-set, else the smallest value of both. -/
inductive Refused (on off : List Int64) : InputError → Prop
  | negativeOn {n} (h : FirstNegative on n) : Refused on off (.negative n)
  | negativeOff {n} (hon : ∀ m ∈ on, 0 ≤ m) (h : FirstNegative off n) :
      Refused on off (.negative n)
  | shared {n} (hon : ∀ m ∈ on, 0 ≤ m) (hoff : ∀ m ∈ off, 0 ≤ m) (hn : n ∈ on) (hn' : n ∈ off)
      (hleast : ∀ m ∈ on, m ∈ off → n ≤ m) : Refused on off (.shared n.toUInt64)

/-! ## Integers as words -/

theorem toInt_nonneg_iff {n : Int64} : 0 ≤ n.toInt ↔ 0 ≤ n := by
  rw [Int64.le_iff_toInt_le, Int64.toInt_zero]

theorem ofNat_toNat_toInt {n : Int64} (h : 0 ≤ n) : UInt64.ofNat n.toInt.toNat = n.toUInt64 := by
  refine UInt64.toNat_inj.mp ?_
  rw [Int64.toNat_toUInt64_of_le h, Int64.toNat_toInt]
  have hlt : n.toNatClampNeg < 2 ^ 63 := n.toNatClampNeg_lt
  exact UInt64.toNat_ofNat_of_lt' (Nat.lt_trans hlt (by decide))

theorem toUInt64_injective {n m : Int64} (h : n.toUInt64 = m.toUInt64) : n = m := by
  cases n
  cases m
  exact congrArg Int64.ofUInt64 h

theorem toInt_eq_toNat {n : Int64} (h : 0 ≤ n) : n.toInt = n.toUInt64.toNat := by
  rw [Int64.toNat_toUInt64_of_le h, Int64.cast_toNatClampNeg n h]

theorem toUInt64_le_iff {n m : Int64} (hn : 0 ≤ n) (hm : 0 ≤ m) :
    n.toUInt64 ≤ m.toUInt64 ↔ n ≤ m := by
  rw [UInt64.le_iff_toNat_le, Int64.le_iff_toInt_le, toInt_eq_toNat hn, toInt_eq_toNat hm,
    Int.ofNat_le]

/-! ## One list -/

theorem ascending_congr {us vs : List UInt64} (h : ∀ u, u ∈ us ↔ u ∈ vs) :
    ascending us = ascending vs := by
  refine (ascending_pairwise us).eq_of_mem_iff (ascending_pairwise vs) fun u => ?_
  rw [mem_ascending, mem_ascending, h]

theorem nonneg_or_firstNegative (ns : List Int64) :
    (∀ n ∈ ns, 0 ≤ n) ∨ ∃ n, FirstNegative ns n := by
  by_cases h : ∀ n ∈ ns, 0 ≤ n
  · exact Or.inl h
  · obtain ⟨before, n, after, heq, hbefore, hn⟩ := exists_first_not h
    exact Or.inr ⟨n, before, after, heq, hbefore, Int64.not_le.mp hn⟩

theorem isNegative_iff {n : Int64} : decide (n.toInt < 0) = true ↔ n < 0 := by
  rw [decide_eq_true_eq, ← Int.not_le, toInt_nonneg_iff, Int64.not_le]

theorem checkedMinterms_of_nonneg {ns : List Int64} (h : ∀ n ∈ ns, 0 ≤ n) :
    checkedMinterms ns = .ok (ascending (ns.map Int64.toUInt64)) := by
  have hnone : (ns.find? fun n => decide (n.toInt < 0)) = none :=
    List.find?_eq_none.mpr fun n hn hneg => Int64.not_le.mpr (isNegative_iff.mp hneg) (h n hn)
  unfold checkedMinterms
  rw [hnone]
  exact congrArg _ (congrArg ascending (List.map_congr_left fun n hn => ofNat_toNat_toInt (h n hn)))

theorem checkedMinterms_of_firstNegative {ns : List Int64} {n : Int64} (h : FirstNegative ns n) :
    checkedMinterms ns = .error (.negative n) := by
  obtain ⟨before, after, rfl, hbefore, hn⟩ := h
  have hsome : ((before ++ n :: after).find? fun n => decide (n.toInt < 0)) = some n := by
    refine List.find?_eq_some_iff_append.mpr
      ⟨isNegative_iff.mpr hn, before, after, rfl, fun m hm => ?_⟩
    simpa using toInt_nonneg_iff.mpr (hbefore m hm)
  unfold checkedMinterms
  rw [hsome]

theorem mem_ascending_toUInt64 {ns : List Int64} {n : Int64} :
    n.toUInt64 ∈ ascending (ns.map Int64.toUInt64) ↔ n ∈ ns := by
  rw [mem_ascending, List.mem_map]
  constructor
  · intro h
    obtain ⟨m, hm, heq⟩ := h
    exact toUInt64_injective heq ▸ hm
  · exact fun hn => ⟨n, hn, rfl⟩

/-! ## Both lists -/

/-- The first common element of two lists, the first one ascending, is the smallest one. -/
theorem find?_mem_of_least {us vs : List UInt64} (hus : us.Pairwise (· < ·)) {u : UInt64}
    (hu : u ∈ us) (hv : u ∈ vs) (hleast : ∀ x ∈ us, x ∈ vs → u ≤ x) :
    (us.find? fun x => decide (x ∈ vs)) = some u := by
  obtain ⟨before, after, rfl⟩ := List.append_of_mem hu
  refine List.find?_eq_some_iff_append.mpr ⟨decide_eq_true hv, before, after, rfl, fun x hx => ?_⟩
  have hlt : x < u := (List.pairwise_append.mp hus).2.2 x hx u List.mem_cons_self
  have hnot : x ∉ vs := fun hxv =>
    UInt64.not_le.mpr hlt (hleast x (List.mem_append_left _ hx) hxv)
  simp [hnot]

theorem find?_mem_of_disjoint {us vs : List UInt64} (h : ∀ u ∈ us, u ∉ vs) :
    (us.find? fun x => decide (x ∈ vs)) = none :=
  List.find?_eq_none.mpr fun u hu => by simpa using h u hu

/-- The specification of two lists which describe a function. -/
def Specification.encoding (on off : List Int64) : Specification :=
  let on := ascending (on.map Int64.toUInt64)
  let off := ascending (off.map Int64.toUInt64)
  ⟨widthFor on off, on.map (encode · (widthFor on off)), off.map (encode · (widthFor on off))⟩

theorem ofLists_of_describes {on off : List Int64} (h : Describes on off) :
    Specification.ofLists on off = .ok (Specification.encoding on off) := by
  have hdisj : ∀ u ∈ ascending (on.map Int64.toUInt64),
      u ∉ ascending (off.map Int64.toUInt64) := by
    intro u hu
    obtain ⟨n, hn, rfl⟩ := List.mem_map.mp (mem_ascending.mp hu)
    rw [mem_ascending_toUInt64]
    exact h.disjoint n hn
  simp only [Specification.ofLists, checkedMinterms_of_nonneg h.on_nonneg,
    checkedMinterms_of_nonneg h.off_nonneg, bind, Except.bind, find?_mem_of_disjoint hdisj]
  rfl

theorem ofLists_of_refused {on off : List Int64} {e : InputError} (h : Refused on off e) :
    Specification.ofLists on off = .error e := by
  cases h with
  | negativeOn h =>
    unfold Specification.ofLists
    rw [checkedMinterms_of_firstNegative h]
    rfl
  | negativeOff hon h =>
    unfold Specification.ofLists
    rw [checkedMinterms_of_nonneg hon, checkedMinterms_of_firstNegative h]
    rfl
  | @shared n hon hoff hn hn' hleast =>
    have hfind := find?_mem_of_least (ascending_pairwise (on.map Int64.toUInt64))
      (mem_ascending_toUInt64.mpr hn)
      (mem_ascending_toUInt64.mpr hn') fun x hx hx' => by
        obtain ⟨m, hm, rfl⟩ := List.mem_map.mp (mem_ascending.mp hx)
        exact (toUInt64_le_iff (hon n hn) (hon m hm)).mpr
          (hleast m hm (mem_ascending_toUInt64.mp hx'))
    simp only [Specification.ofLists, checkedMinterms_of_nonneg hon,
      checkedMinterms_of_nonneg hoff, bind, Except.bind, hfind]
    rfl

theorem exists_least_shared {on off : List Int64} (h : ∃ n ∈ on, n ∈ off) :
    ∃ n, n ∈ on ∧ n ∈ off ∧ ∀ m ∈ on, m ∈ off → n ≤ m := by
  obtain ⟨n, hn, hn'⟩ := h
  have hmem : n ∈ on.toFinset ∩ off.toFinset := by simp [hn, hn']
  obtain ⟨k, hk, hleast⟩ := Finset.exists_min_image _ Int64.toInt ⟨n, hmem⟩
  simp only [Finset.mem_inter, List.mem_toFinset] at hk hleast
  exact ⟨k, hk.1, hk.2, fun m hm hm' => Int64.le_iff_toInt_le.mpr (hleast m ⟨hm, hm'⟩)⟩

theorem describes_or_refused (on off : List Int64) :
    Describes on off ∨ ∃ e, Refused on off e := by
  rcases nonneg_or_firstNegative on with hon | ⟨n, hn⟩
  · rcases nonneg_or_firstNegative off with hoff | ⟨n, hn⟩
    · by_cases hdisj : ∃ n ∈ on, n ∈ off
      · obtain ⟨n, hn, hn', hleast⟩ := exists_least_shared hdisj
        exact Or.inr ⟨_, .shared hon hoff hn hn' hleast⟩
      · exact Or.inl ⟨hon, hoff, fun n hn hn' => hdisj ⟨n, hn, hn'⟩⟩
    · exact Or.inr ⟨_, .negativeOff hon hn⟩
  · exact Or.inr ⟨_, .negativeOn hn⟩

theorem ofLists_eq_ok {on off : List Int64} {s : Specification}
    (h : Specification.ofLists on off = .ok s) :
    Describes on off ∧ s = Specification.encoding on off := by
  rcases describes_or_refused on off with hd | ⟨e, he⟩
  · rw [ofLists_of_describes hd] at h
    exact ⟨hd, (Except.ok.inj h).symm⟩
  · rw [ofLists_of_refused he] at h
    cases h

/-! ## The vectors of a specification -/

theorem lt_two_pow_widthFor {on off : List UInt64} {n : UInt64} (h : n ∈ on ++ off) :
    n.toNat < 2 ^ widthFor on off := by
  have hle : n.toNat ≤ ((on ++ off).map UInt64.toNat).max?.getD 0 :=
    List.le_max?_getD_of_mem (List.mem_map_of_mem h)
  exact Nat.lt_of_le_of_lt hle Nat.lt_log2_self

/-- A width in which all words keep their bits is wide enough, unless it is 0. -/
theorem widthFor_le_of_lt {on off : List UInt64} {w : Nat} (hw : 1 ≤ w)
    (h : ∀ n ∈ on ++ off, n.toNat < 2 ^ w) : widthFor on off ≤ w := by
  have hmax : ((on ++ off).map UInt64.toNat).max?.getD 0 < 2 ^ w := by
    cases hm : ((on ++ off).map UInt64.toNat).max? with
    | none => exact Nat.two_pow_pos w
    | some m =>
      obtain ⟨n, hn, rfl⟩ := List.mem_map.mp (List.max?_mem hm)
      exact h n hn
  unfold widthFor
  by_cases hzero : ((on ++ off).map UInt64.toNat).max?.getD 0 = 0
  · rw [hzero, Nat.log2_zero]
    exact hw
  · exact (Nat.log2_lt hzero).mpr hmax

/-- Minterms are words of 64 bits. -/
theorem widthFor_le (on off : List UInt64) : widthFor on off ≤ 64 :=
  widthFor_le_of_lt (by decide) fun n _ => n.toNat_lt

namespace Specification

/-- All vectors have the width of the specification, and none is in both sets. -/
structure WellFormed (s : Specification) : Prop where
  on_width : ∀ v ∈ s.on, v.width = s.width
  off_width : ∀ v ∈ s.off, v.width = s.width
  disjoint : ∀ v ∈ s.on, v ∉ s.off

theorem mem_on_encoding {on off : List Int64} {v : BitVector} :
    v ∈ (encoding on off).on ↔ ∃ n ∈ on, v = encode n.toUInt64 (encoding on off).width := by
  simp [encoding, mem_ascending, eq_comm]

theorem mem_off_encoding {on off : List Int64} {v : BitVector} :
    v ∈ (encoding on off).off ↔ ∃ n ∈ off, v = encode n.toUInt64 (encoding on off).width := by
  simp [encoding, mem_ascending, eq_comm]

theorem toNat_lt_of_mem {on off : List Int64} {n : Int64} (h : n ∈ on ∨ n ∈ off) :
    n.toUInt64.toNat < 2 ^ (encoding on off).width := by
  refine lt_two_pow_widthFor (List.mem_append.mpr ?_)
  exact h.imp mem_ascending_toUInt64.mpr mem_ascending_toUInt64.mpr

theorem encoding_wellFormed {on off : List Int64} (h : Describes on off) :
    (encoding on off).WellFormed where
  on_width v hv := by
    obtain ⟨n, _, rfl⟩ := mem_on_encoding.mp hv
    exact BitVector.width_encode _ _
  off_width v hv := by
    obtain ⟨n, _, rfl⟩ := mem_off_encoding.mp hv
    exact BitVector.width_encode _ _
  disjoint v hv hv' := by
    obtain ⟨n, hn, rfl⟩ := mem_on_encoding.mp hv
    obtain ⟨m, hm, heq⟩ := mem_off_encoding.mp hv'
    have hnm := encode_injective (toNat_lt_of_mem (Or.inl hn)) (toNat_lt_of_mem (Or.inr hm)) heq
    exact h.disjoint n hn (toUInt64_injective hnm ▸ hm)

end Specification

end TwoLevel
