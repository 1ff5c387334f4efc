/-
  Minterms and their vectors.

  A word is found again from its vector up to the width, a vector from its word up to the 64
  variables of words, and the exclusive or can be taken on either side (`encode_decode_laws`).

  A specification uses the smallest width in which no value of its lists loses a bit. So its
  vectors are those of the values of the lists, each once and in increasing order
  (`ofLists_encodes_values`).
-/
import TwoLevel.Proofs.InPlace.Vectors
import TwoLevel.Proofs.Specifications

namespace TwoLevel

/-! ## Single vectors -/

/-- Reading the vector of a word gives the remainder of the word modulo `2 ^ w`, and the word
    itself from width 64 up. A vector is found again from its word exactly if none of its set bits
    belongs to a variable from 64 up. The exclusive or of the vectors of two words is the vector of
    their exclusive or. The loops over the set positions agree. -/
theorem encode_decode_laws :
    (∀ (n : UInt64) (w : Nat),
      (decode (encode n w)).toNat = (if w < 64 then n.toNat % 2 ^ w else n.toNat) ∧
      InPlace.decode w (InPlace.encode n w) = decode (encode n w)) ∧
    (∀ v : BitVector,
      (encode (decode v) v.width = v ↔ ∀ pos, v.get pos = true → v.variableAt pos < 64) ∧
      InPlace.decode v.width (.ofBits v.bits) = decode v) ∧
    ∀ (a b : UInt64) (w : Nat),
      (encode a w).xor (encode b w) = encode (a ^^^ b) w ∧
      InPlace.symmetricDifference (InPlace.encode a w) (InPlace.encode b w) =
        InPlace.encode (a ^^^ b) w := by
  refine ⟨fun n w => ⟨?_, ?_⟩, fun v => ⟨encode_decode_eq_iff v, InPlace.decode_refines v⟩,
    fun a b w => ⟨encode_xor a b w, ?_⟩⟩
  · rw [toNat_decode_encode]
    split
    · rfl
    · next hw =>
      have hpow : 2 ^ 64 ≤ 2 ^ w := Nat.pow_le_pow_right (by decide) (Nat.le_of_not_lt hw)
      exact Nat.mod_eq_of_lt (Nat.lt_of_lt_of_le n.toNat_lt hpow)
  · have hdecode := InPlace.decode_refines (encode n w)
    rwa [BitVector.width_encode, ← InPlace.encode_refines] at hdecode
  · have hwidth : (encode a w).width = (encode b w).width := by simp
    rw [InPlace.encode_refines, InPlace.encode_refines, InPlace.encode_refines,
      InPlace.symmetricDifference_refines hwidth, encode_xor]

/-- In width 65 the highest bit belongs to the variable 64 and is lost. -/
example : encode (decode ⟨true :: List.replicate 64 true⟩) 65 =
    ⟨false :: List.replicate 64 true⟩ := by
  decide +kernel

/-! ## The width of a specification -/

/-- The width is the least one from 1 on in which all words keep their bits. -/
theorem widthFor_isLeast (on off : List UInt64) :
    IsLeast {w | 1 ≤ w ∧ ∀ n ∈ on ++ off, n.toNat < 2 ^ w} (widthFor on off) :=
  ⟨⟨Nat.succ_pos _, fun _ hn => lt_two_pow_widthFor hn⟩, fun _ h => widthFor_le_of_lt h.1 h.2⟩

/-! ## The sets of a specification -/

/-- The vectors have width `w`, and the words which they denote are the values of `ns`, each once
    and in increasing order. -/
structure EncodesValues (w : Nat) (vs : List BitVector) (ns : List Int64) : Prop where
  width : ∀ v ∈ vs, v.width = w
  increasing : (vs.map decode).Pairwise (· < ·)
  mem_iff : ∀ u : UInt64, u ∈ vs.map decode ↔ ∃ n ∈ ns, n.toInt = u.toNat

/-- Words are found again from their vectors if the width has room for them. -/
theorem map_decode_encode {us : List UInt64} {w : Nat} (h : ∀ u ∈ us, u.toNat < 2 ^ w) :
    (us.map (encode · w)).map decode = us := by
  rw [List.map_map]
  exact (List.map_congr_left fun u hu => decode_encode_of_lt (h u hu)).trans (List.map_id us)

theorem mem_ascending_iff_toInt {ns : List Int64} (hns : ∀ n ∈ ns, 0 ≤ n) {u : UInt64} :
    u ∈ ascending (ns.map Int64.toUInt64) ↔ ∃ n ∈ ns, n.toInt = u.toNat := by
  rw [mem_ascending, List.mem_map]
  refine exists_congr fun n => and_congr_right fun hn => ?_
  rw [toInt_eq_toNat (hns n hn), ← UInt64.toNat_inj, Nat.cast_inj]

theorem EncodesValues.of_words {w : Nat} {vs : List BitVector} {ns : List Int64}
    (hns : ∀ n ∈ ns, 0 ≤ n) (hwidth : ∀ v ∈ vs, v.width = w)
    (hwords : vs.map decode = ascending (ns.map Int64.toUInt64)) : EncodesValues w vs ns where
  width := hwidth
  increasing := hwords ▸ ascending_pairwise _
  mem_iff u := by rw [hwords, mem_ascending_iff_toInt hns]

namespace Specification

theorem map_decode_on (on off : List Int64) :
    (encoding on off).on.map decode = ascending (on.map Int64.toUInt64) :=
  map_decode_encode fun _ hu => lt_two_pow_widthFor (List.mem_append_left _ hu)

theorem map_decode_off (on off : List Int64) :
    (encoding on off).off.map decode = ascending (off.map Int64.toUInt64) :=
  map_decode_encode fun _ hu => lt_two_pow_widthFor (List.mem_append_right _ hu)

end Specification

/-- The words of both sets are bounded by the same powers as the values of the lists. -/
theorem forall_minterms_lt_iff {on off : List Int64} (h : Describes on off) (w : Nat) :
    (∀ u ∈ ascending (on.map Int64.toUInt64) ++ ascending (off.map Int64.toUInt64),
      u.toNat < 2 ^ w) ↔ ∀ n ∈ on ++ off, n.toInt < 2 ^ w := by
  have hcast : ∀ n ∈ on ++ off, (n.toInt < 2 ^ w ↔ n.toUInt64.toNat < 2 ^ w) := by
    intro n hn
    rw [toInt_eq_toNat ((List.mem_append.mp hn).elim (h.on_nonneg n) (h.off_nonneg n))]
    exact_mod_cast Iff.rfl
  rw [forall₂_congr hcast]
  simp only [List.mem_append, mem_ascending, List.mem_map, or_imp, forall_and,
    forall_exists_index, and_imp, forall_apply_eq_imp_iff₂]

/-- Two lists which are accepted are encoded in the least width, from 1 on, in which all of their
    values keep their bits, and 63 bits are always enough. In this width the vectors of each set are
    those of the values of its list, each once and in increasing order, and no vector is in both
    sets. The count of leading zeros gives the same width. -/
theorem ofLists_encodes_values {on off : List Int64} {s : Specification}
    (h : Specification.ofLists on off = .ok s) :
    IsLeast {w | 1 ≤ w ∧ ∀ n ∈ on ++ off, n.toInt < 2 ^ w} s.width ∧
    s.width ≤ 63 ∧
    EncodesValues s.width s.on on ∧
    EncodesValues s.width s.off off ∧
    (∀ v ∈ s.on, v ∉ s.off) ∧
    InPlace.widthFor (s.on.map decode) (s.off.map decode) = s.width := by
  obtain ⟨hd, rfl⟩ := ofLists_eq_ok h
  have hwf := Specification.encoding_wellFormed hd
  have hleast : IsLeast {w | 1 ≤ w ∧ ∀ n ∈ on ++ off, n.toInt < 2 ^ w}
      (Specification.encoding on off).width := by
    have hwords := widthFor_isLeast (ascending (on.map Int64.toUInt64))
      (ascending (off.map Int64.toUInt64))
    simp only [forall_minterms_lt_iff hd] at hwords
    exact hwords
  have hroom : ∀ n ∈ on ++ off, n.toInt < 2 ^ 63 := fun n _ => n.toInt_lt
  refine ⟨hleast, hleast.2 ⟨by decide, hroom⟩,
    .of_words hd.on_nonneg hwf.on_width (Specification.map_decode_on on off),
    .of_words hd.off_nonneg hwf.off_width (Specification.map_decode_off on off), hwf.disjoint, ?_⟩
  rw [Specification.map_decode_on, Specification.map_decode_off]
  exact InPlace.widthFor_refines _ _

/-- The value 8 is the first one which does not fit into 3 bits. -/
theorem ofLists_encodes_values_at_power :
    let s : Specification := ⟨4, [encode 5 4, encode 8 4], [encode 0 4, encode 7 4]⟩
    Specification.ofLists [8, 5, 8] [7, 0] = .ok s ∧
      IsLeast {w | 1 ≤ w ∧ ∀ n ∈ ([8, 5, 8] ++ [7, 0] : List Int64), n.toInt < 2 ^ w} 4 ∧
      (s.on.map decode).Pairwise (· < ·) ∧
      (∀ u : UInt64, u ∈ s.off.map decode ↔ ∃ n ∈ ([7, 0] : List Int64), n.toInt = u.toNat) ∧
      ∀ v ∈ s.on, v ∉ s.off := by
  intro s
  have haccepted : Specification.ofLists [8, 5, 8] [7, 0] = .ok s := by decide +kernel
  obtain ⟨hleast, _, hon, hoff, hdisjoint, _⟩ := ofLists_encodes_values haccepted
  exact ⟨haccepted, hleast, hon.increasing, hoff.mem_iff, hdisjoint⟩

end TwoLevel
