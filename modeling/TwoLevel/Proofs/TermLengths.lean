/-
  How many literals the longest term of a result has.

  Every sum of cubes which is true on the ON-set and false on the OFF-set has, for each minterm of
  the ON-set, a term which is an implicant of it (`exists_implicant_of_separates`). The terms of
  both minimizers are smallest implicants, so none of them is longer than every term of such a
  sum (`longest_le_of_separates`). The longest terms of the two results have therefore the same
  number of literals, and no other sum does with less (`longest_term_least`).
-/
import TwoLevel.Proofs.Minimization

namespace TwoLevel

/-! ## The longest term -/

namespace Expression

/-- The number of literals of the longest term, 0 if there is no term. -/
def longest (e : Expression) : Nat :=
  (e.terms.map Cube.literalCount).max?.getD 0

theorem literalCount_le_longest {e : Expression} {t : Cube} (h : t ∈ e.terms) :
    t.literalCount ≤ e.longest :=
  List.le_max?_getD_of_mem (List.mem_map_of_mem h)

/-- Unless there is no term, some term is a longest one. -/
theorem exists_longest {e : Expression} (h : e.terms ≠ []) :
    ∃ t ∈ e.terms, t.literalCount = e.longest := by
  obtain ⟨n, hn⟩ : ∃ n, (e.terms.map Cube.literalCount).max? = some n :=
    Option.ne_none_iff_exists'.mp (by simpa using h)
  obtain ⟨t, ht, hcount⟩ := List.mem_map.mp (List.max?_mem hn)
  exact ⟨t, ht, by rw [longest, hn, hcount]; rfl⟩

theorem longest_le {e : Expression} {n : Nat} (h : ∀ t ∈ e.terms, t.literalCount ≤ n) :
    e.longest ≤ n := by
  by_cases hterms : e.terms = []
  · simp [longest, hterms]
  · obtain ⟨t, ht, hcount⟩ := exists_longest hterms
    exact hcount ▸ h t ht

end Expression

/-! ## A bound for all sums -/

section Bound

variable {on off : List Int64} {d : Expression}
  (hwidth : ∀ t ∈ d.terms, t.width = (Specification.encoding on off).width)
  (hd : Separates d on off)

include hwidth hd

/-- For each minterm of the ON-set, a sum which realises the function has an implicant of it. -/
theorem exists_implicant_of_separates (h : Describes on off) {f : BitVector}
    (hf : f ∈ (Specification.encoding on off).on) :
    ∃ u ∈ d.terms, IsImplicant f (Specification.encoding on off).off u := by
  obtain ⟨hcovers, havoids⟩ := (separates_iff hwidth).mp hd
  obtain ⟨u, hu, huf⟩ := hcovers f hf
  have hu : u ∈ d.terms := List.mem_toFinset.mp hu
  have hfwidth := (Specification.encoding_wellFormed h).on_width f hf
  exact ⟨u, hu, (hwidth u hu).trans hfwidth.symm, huf, fun r hr => havoids r hr u hu⟩

/-- A smallest implicant of the ON-set is not longer than every term of such a sum. -/
theorem exists_literalCount_le (h : Describes on off) {t : Cube}
    (ht : (Specification.encoding on off).IsCandidate t) :
    ∃ u ∈ d.terms, t.literalCount ≤ u.literalCount := by
  obtain ⟨f, hf, htf⟩ := ht
  obtain ⟨u, hu, huf⟩ := exists_implicant_of_separates hwidth hd h hf
  exact ⟨u, hu, htf.least u huf⟩

theorem longest_le_of_separates (h : Describes on off) {e : Expression}
    (he : ∀ t ∈ e.terms, (Specification.encoding on off).IsCandidate t) :
    e.longest ≤ d.longest := by
  refine Expression.longest_le fun t ht => ?_
  obtain ⟨u, hu, hle⟩ := exists_literalCount_le hwidth hd h (he t ht)
  exact Nat.le_trans hle (Expression.literalCount_le_longest hu)

/-- A sum which is true somewhere has a term, and so one as long as its longest term. -/
theorem exists_longest_le_of_separates (h : Describes on off) (hon : on ≠ []) {e : Expression}
    (he : ∀ t ∈ e.terms, (Specification.encoding on off).IsCandidate t) :
    ∃ u ∈ d.terms, e.longest ≤ u.literalCount := by
  obtain ⟨n, hn⟩ := List.exists_mem_of_ne_nil on hon
  obtain ⟨u, hu, _⟩ := exists_implicant_of_separates hwidth hd h
    (Specification.mem_on_encoding.mpr ⟨n, hn, rfl⟩)
  obtain ⟨v, hv, hcount⟩ := Expression.exists_longest (List.ne_nil_of_mem hu)
  exact ⟨v, hv, hcount ▸ longest_le_of_separates hwidth hd h he⟩

end Bound

/-! ## The two results -/

/-- The candidates of the greedy search are candidates of the exact one. -/
theorem candidateList_first_subset {s : Specification} (hs : s.WellFormed) {c : Cube}
    (hc : c ∈ s.candidateList .first) : c ∈ s.candidateList .all :=
  (Specification.mem_candidateList_all hs).mpr (Specification.isCandidate_of_mem hs hc)

/-- The exact result has no more terms than the greedy one. Their longest terms have the same
    number of literals, which is the least one: every sum of cubes of this width which realises the
    function has a term with at least as many, unless the ON-set is empty. -/
theorem longest_term_least {on off : List Int64} (h : Describes on off) :
    ∃ s exact greedy, Specification.ofLists on off = .ok s ∧
      minimize .systematic on off = .ok exact ∧ minimize .heuristic on off = .ok greedy ∧
      exact.size ≤ greedy.size ∧ exact.longest = greedy.longest ∧
      (∀ t ∈ exact.terms, t.width = s.width) ∧ Separates exact on off ∧
      ∀ d : Expression, (∀ t ∈ d.terms, t.width = s.width) → Separates d on off →
        exact.longest ≤ d.longest ∧
          (on ≠ [] → ∃ t ∈ d.terms, exact.longest ≤ t.literalCount) := by
  have hs := Specification.encoding_wellFormed h
  obtain ⟨exact, hexact, _, hcover⟩ := systematic_spec h
  obtain ⟨greedy, hgreedy, _, hterms, hcovers⟩ := heuristic_spec h
  have hexactTerms : ∀ t ∈ exact.terms, (Specification.encoding on off).IsCandidate t :=
    isCandidate_of_isMinimumCover h hcover
  have hgreedyTerms : ∀ t ∈ greedy.terms, (Specification.encoding on off).IsCandidate t :=
    fun t ht => Specification.isCandidate_of_mem hs (hterms t ht)
  have hexactSeparates := separates_of_isMinimumCover h hcover
  refine ⟨_, exact, greedy, ofLists_of_describes h, hexact, hgreedy, ?_, ?_,
    fun t ht => (hexactTerms t ht).width hs, hexactSeparates, fun d hwidth hd => ?_⟩
  · rw [Expression.size_eq_card, Expression.size_eq_card]
    refine hcover.least _ (fun c hc => ?_) hcovers
    exact candidateList_first_subset hs (hterms c (List.mem_toFinset.mp hc))
  · refine Nat.le_antisymm ?_ ?_
    · exact longest_le_of_separates (fun t ht => (hgreedyTerms t ht).width hs)
        (separates_of_covers h hgreedyTerms hcovers) h hexactTerms
    · exact longest_le_of_separates (fun t ht => (hexactTerms t ht).width hs) hexactSeparates h
        hgreedyTerms
  · exact ⟨longest_le_of_separates hwidth hd h hexactTerms,
      fun hon => exists_longest_le_of_separates hwidth hd h hon hexactTerms⟩

theorem longest_term_least_cyclic :
    Describes [1, 2, 3, 4, 5, 6] [0, 7] ∧
      ∃ s exact greedy, Specification.ofLists [1, 2, 3, 4, 5, 6] [0, 7] = .ok s ∧
        minimize .systematic [1, 2, 3, 4, 5, 6] [0, 7] = .ok exact ∧
        minimize .heuristic [1, 2, 3, 4, 5, 6] [0, 7] = .ok greedy ∧
        exact.size ≤ greedy.size ∧ exact.longest = greedy.longest ∧
        (∀ t ∈ exact.terms, t.width = s.width) ∧ Separates exact [1, 2, 3, 4, 5, 6] [0, 7] ∧
        ∀ d : Expression, (∀ t ∈ d.terms, t.width = s.width) →
          Separates d [1, 2, 3, 4, 5, 6] [0, 7] →
          exact.longest ≤ d.longest ∧
            (([1, 2, 3, 4, 5, 6] : List Int64) ≠ [] →
              ∃ t ∈ d.terms, exact.longest ≤ t.literalCount) := by
  have h : Describes [1, 2, 3, 4, 5, 6] [0, 7] := ⟨by simp, by simp, by simp⟩
  exact ⟨h, longest_term_least h⟩

/-- With an empty ON-set the result is the empty sum. It realises the function, and it has no term
    with any number of literals. -/
theorem no_term_of_empty_on_set :
    Describes [] [0] ∧
      ∃ s e, Specification.ofLists [] [0] = .ok s ∧ minimize .systematic [] [0] = .ok e ∧
        (∀ t ∈ e.terms, t.width = s.width) ∧ Separates e [] [0] ∧
        ¬ ∃ t ∈ e.terms, e.longest ≤ t.literalCount := by
  have h : Describes [] [0] := ⟨by simp, by simp, by simp⟩
  refine ⟨h, Specification.encoding [] [0], .empty 1, ofLists_of_describes h, ?_, ?_, ?_, ?_⟩
  · exact eq_ok_of_toOption (by decide +kernel)
  · simp [Expression.empty]
  · simp [Separates, Expression.empty, Expression.eval]
  · simp [Expression.empty]

end TwoLevel
