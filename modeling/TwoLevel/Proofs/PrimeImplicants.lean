/-
  The terms of the results are prime implicants.

  To release a position of a cube is to make it free. The cube then contains all the vectors which
  it contained before (`contains_release`), with one literal less (`literalCount_release_lt`). A
  smallest implicant of a minterm would not be a smallest one if it still avoided the OFF-set
  after a release: so it is prime (`IsSmallestImplicant.isPrime`). Whatever a search selects, its
  terms are candidates, and each candidate is a smallest implicant of the minterm which it comes
  from (`terms_prime_implicants`).
-/
import TwoLevel.Proofs.Minimization

namespace TwoLevel

namespace Cube

/-! ## Released positions -/

/-- The cube with the value at a position made free. -/
def release (c : Cube) (p : Nat) : Cube :=
  ⟨c.values.set p .free⟩

theorem width_release (c : Cube) (p : Nat) : (c.release p).width = c.width :=
  List.length_set

theorem acceptsBits_cons (t : Ternary) (ts : List Ternary) (bits : List Bool) :
    acceptsBits (t :: ts) bits = (t.accepts (bits.headD false) && acceptsBits ts bits.tail) := by
  cases bits <;> rfl

theorem acceptsBits_set_free {ts : List Ternary} {bits : List Bool}
    (h : acceptsBits ts bits = true) (p : Nat) : acceptsBits (ts.set p .free) bits = true := by
  induction ts generalizing bits p with
  | nil => exact h
  | cons t ts ih =>
    rw [acceptsBits_cons, Bool.and_eq_true] at h
    cases p with
    | zero =>
      rw [List.set_cons_zero, acceptsBits_cons, h.2]
      rfl
    | succ p =>
      rw [List.set_cons_succ, acceptsBits_cons, h.1, ih h.2 p]
      rfl

theorem contains_release {c : Cube} {v : BitVector} (h : c.contains v = true) (p : Nat) :
    (c.release p).contains v = true :=
  acceptsBits_set_free h p

theorem literalCount_release_lt {c : Cube} {p : Nat} {t : Ternary} (h : c.values[p]? = some t)
    (ht : t ≠ .free) : (c.release p).literalCount < c.literalCount := by
  obtain ⟨hp, rfl⟩ := List.getElem?_eq_some_iff.mp h
  have hpos : 0 < c.literalCount :=
    List.countP_pos_iff.mpr ⟨_, List.getElem_mem hp, by simpa using ht⟩
  have hcount : (c.release p).literalCount = c.literalCount - 1 := by
    rw [literalCount, release, List.countP_set hp, if_pos (by simpa using ht)]
    rfl
  omega

/-- The cube contains no vector of the list, but with any of its fixed positions released it
    does. -/
structure IsPrime (off : List BitVector) (c : Cube) : Prop where
  avoids : ∀ r ∈ off, c.contains r = false
  release : ∀ p t, c.values[p]? = some t → t ≠ .free → ∃ r ∈ off, (c.release p).contains r = true

end Cube

/-- A smallest implicant has no position to spare. -/
theorem IsSmallestImplicant.isPrime {f : BitVector} {off : List BitVector} {c : Cube}
    (h : IsSmallestImplicant f off c) : c.IsPrime off := by
  refine ⟨h.avoids, fun p t hp ht => ?_⟩
  by_contra hnone
  have havoids : ∀ r ∈ off, (c.release p).contains r = false := fun r hr =>
    Bool.eq_false_iff.mpr fun hcr => hnone ⟨r, hr, hcr⟩
  have hle := h.least (c.release p)
    ⟨(c.width_release p).trans h.width, Cube.contains_release h.contains p, havoids⟩
  exact Nat.not_le_of_lt (Cube.literalCount_release_lt hp ht) hle

/-! ## The terms of the results -/

/-- Every term of a result contains a minterm of the ON-set and no minterm of the OFF-set, and no
    cube of the same width which does so for this minterm has fewer literals. With any of its fixed
    positions released, the term contains a minterm of the OFF-set. -/
theorem terms_prime_implicants {on off : List Int64} (h : Describes on off) :
    ∃ s exact greedy found, Specification.ofLists on off = .ok s ∧
      minimize .systematic on off = .ok exact ∧ minimize .heuristic on off = .ok greedy ∧
      minimizeAll on off = .ok found ∧
      ∀ e ∈ exact :: greedy :: found, ∀ t ∈ e.terms,
        (∃ f ∈ s.on, IsSmallestImplicant f s.off t) ∧ t.IsPrime s.off := by
  have hs := Specification.encoding_wellFormed h
  obtain ⟨exact, hexact, _, hcover⟩ := systematic_spec h
  obtain ⟨greedy, hgreedy, _, hterms, _⟩ := heuristic_spec h
  obtain ⟨found, _, hfound, hlists⟩ := minimizeAll_spec h
  refine ⟨_, exact, greedy, found, ofLists_of_describes h, hexact, hgreedy, hfound, ?_⟩
  have hcandidates : ∀ e ∈ exact :: greedy :: found, ∀ t ∈ e.terms,
      (Specification.encoding on off).IsCandidate t := by
    refine List.forall_mem_cons.mpr ⟨?_, List.forall_mem_cons.mpr ⟨?_, fun e he => ?_⟩⟩
    · exact isCandidate_of_isMinimumCover h hcover
    · exact fun t ht => Specification.isCandidate_of_mem hs (hterms t ht)
    · exact isCandidate_of_isMinimumCover h (hlists.minimum e he)
  intro e he t ht
  obtain ⟨f, hf, htf⟩ := hcandidates e he t ht
  exact ⟨⟨f, hf, htf⟩, htf.isPrime⟩

theorem terms_prime_implicants_cyclic :
    Describes [1, 2, 3, 4, 5, 6] [0, 7] ∧
      ∃ s exact greedy found, Specification.ofLists [1, 2, 3, 4, 5, 6] [0, 7] = .ok s ∧
        minimize .systematic [1, 2, 3, 4, 5, 6] [0, 7] = .ok exact ∧
        minimize .heuristic [1, 2, 3, 4, 5, 6] [0, 7] = .ok greedy ∧
        minimizeAll [1, 2, 3, 4, 5, 6] [0, 7] = .ok found ∧
        ∀ e ∈ exact :: greedy :: found, ∀ t ∈ e.terms,
          (∃ f ∈ s.on, IsSmallestImplicant f s.off t) ∧ t.IsPrime s.off := by
  have h : Describes [1, 2, 3, 4, 5, 6] [0, 7] := ⟨by simp, by simp, by simp⟩
  exact ⟨h, terms_prime_implicants h⟩

end TwoLevel
