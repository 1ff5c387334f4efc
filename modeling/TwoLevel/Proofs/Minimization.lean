/-
  Main results on the minimizers, on lists of integers as a user gives them.

  * `minimizers_separate`: on two lists which describe a function, both methods and the search of
    all alternatives return sums which are true on the one list and false on the other.
  * `systematic_fewest_terms`: the exact result has the fewest terms among the sums whose terms
    for the ON-set are smallest implicants. Without this condition the statement is false
    (`fewer_terms_with_longer_implicant`): a longer implicant may contain several minterms which
    have no smallest implicant in common.
  * `alternatives_minimum_covers`: the alternatives are the minimum covers of the ON-set by the
    candidates, each once.
-/
import TwoLevel.Proofs.Minimizers

namespace TwoLevel

/-! ## From the lists to the specification -/

theorem specify_of_describes {on off : List Int64} (h : Describes on off) :
    specify on off = .ok (Specification.encoding on off) := by
  unfold specify
  rw [ofLists_of_describes h]
  rfl

theorem minimize_of_describes {on off : List Int64} (h : Describes on off) (method : Method) :
    minimize method on off = (method.search (Specification.encoding on off)).mapError .defect := by
  unfold minimize
  rw [specify_of_describes h]
  rfl

theorem minimize_of_search {on off : List Int64} (h : Describes on off) {method : Method}
    {e : Expression} (he : method.search (Specification.encoding on off) = .ok e) :
    minimize method on off = .ok e := by
  rw [minimize_of_describes h, he]
  rfl

theorem minimizeAll_of_describes {on off : List Int64} (h : Describes on off) :
    minimizeAll on off = (Specification.encoding on off).alternatives.mapError .defect := by
  unfold minimizeAll
  rw [specify_of_describes h]
  rfl

section Described

variable {on off : List Int64} (h : Describes on off)

include h

theorem systematic_spec :
    ∃ e, minimize .systematic on off = .ok e ∧ e.width = (Specification.encoding on off).width ∧
      IsMinimumCover ((Specification.encoding on off).candidateList .all)
        (Specification.encoding on off).on e.terms.toFinset := by
  obtain ⟨e, heq, hspec⟩ := Specification.exact_spec (Specification.encoding_wellFormed h)
  exact ⟨e, minimize_of_search h heq, hspec⟩

theorem heuristic_spec :
    ∃ e, minimize .heuristic on off = .ok e ∧ e.width = (Specification.encoding on off).width ∧
      (∀ t ∈ e.terms, t ∈ (Specification.encoding on off).candidateList .first) ∧
      Covers e.terms.toFinset (Specification.encoding on off).on := by
  obtain ⟨e, heq, hspec⟩ := Specification.greedy_spec (Specification.encoding_wellFormed h)
  exact ⟨e, minimize_of_search h heq, hspec⟩

theorem minimizeAll_spec :
    ∃ found, (Specification.encoding on off).alternatives = .ok found ∧
      minimizeAll on off = .ok found ∧ (Specification.encoding on off).ListsMinimumSums found := by
  have hs := Specification.encoding_wellFormed h
  obtain ⟨found, heq, hspec⟩ := Specification.alternatives_spec hs
  refine ⟨found, heq, ?_, hspec⟩
  rw [minimizeAll_of_describes h, heq]
  rfl

theorem isCandidate_of_isMinimumCover {e : Expression}
    (he : IsMinimumCover ((Specification.encoding on off).candidateList .all)
      (Specification.encoding on off).on e.terms.toFinset) :
    ∀ t ∈ e.terms, (Specification.encoding on off).IsCandidate t := fun t ht =>
  Specification.isCandidate_of_mem (Specification.encoding_wellFormed h)
    (he.subset t (List.mem_toFinset.mpr ht))

/-- A minimum cover of the ON-set by candidates realises the function. -/
theorem separates_of_isMinimumCover {e : Expression}
    (he : IsMinimumCover ((Specification.encoding on off).candidateList .all)
      (Specification.encoding on off).on e.terms.toFinset) : Separates e on off :=
  separates_of_covers h (isCandidate_of_isMinimumCover h he) he.covers

/-- A sum with a candidate for every value of the ON-set covers it by its candidates. -/
theorem covers_filter_candidates {d : Expression}
    (hd : ∀ n ∈ on, ∃ t ∈ d.terms, (Specification.encoding on off).IsCandidate t ∧
      t.eval n.toUInt64 = true) :
    Covers (d.terms.toFinset.filter
      (· ∈ (Specification.encoding on off).candidateList .all))
      (Specification.encoding on off).on := by
  have hs := Specification.encoding_wellFormed h
  intro v hv
  obtain ⟨n, hn, rfl⟩ := Specification.mem_on_encoding.mp hv
  obtain ⟨t, ht, hcand, heval⟩ := hd n hn
  rw [Cube.eval_eq_contains, hcand.width hs] at heval
  refine ⟨t, Finset.mem_filter.mpr ⟨List.mem_toFinset.mpr ht, ?_⟩, heval⟩
  exact (Specification.mem_candidateList_all hs).mpr hcand

end Described

/-! ## The sums realise the function -/

/-- Both methods and the search of all alternatives answer, and every sum which they return is
    true on the whole ON-set and false on the whole OFF-set. -/
theorem minimizers_separate {on off : List Int64} (h : Describes on off) :
    ∃ exact greedy found, minimize .systematic on off = .ok exact ∧
      minimize .heuristic on off = .ok greedy ∧ minimizeAll on off = .ok found ∧ found ≠ [] ∧
      Separates exact on off ∧ Separates greedy on off ∧ ∀ e ∈ found, Separates e on off := by
  obtain ⟨exact, hexact, _, hcover⟩ := systematic_spec h
  obtain ⟨greedy, hgreedy, _, hterms, hcovers⟩ := heuristic_spec h
  obtain ⟨found, _, hfound, hlists⟩ := minimizeAll_spec h
  refine ⟨exact, greedy, found, hexact, hgreedy, hfound, hlists.nonempty, ?_, ?_, ?_⟩
  · exact separates_of_isMinimumCover h hcover
  · refine separates_of_covers h (fun t ht => ?_) hcovers
    exact Specification.isCandidate_of_mem (Specification.encoding_wellFormed h) (hterms t ht)
  · exact fun e he => separates_of_isMinimumCover h (hlists.minimum e he)

/-- A cyclic function given unsorted and with a repetition: three ways to leave out no minterm. -/
theorem minimizers_separate_cyclic :
    Describes [6, 1, 2, 5, 3, 4, 1] [7, 0] ∧
      ∃ exact greedy found, minimize .systematic [6, 1, 2, 5, 3, 4, 1] [7, 0] = .ok exact ∧
        minimize .heuristic [6, 1, 2, 5, 3, 4, 1] [7, 0] = .ok greedy ∧
        minimizeAll [6, 1, 2, 5, 3, 4, 1] [7, 0] = .ok found ∧ found ≠ [] ∧
        Separates exact [6, 1, 2, 5, 3, 4, 1] [7, 0] ∧
        Separates greedy [6, 1, 2, 5, 3, 4, 1] [7, 0] ∧
        ∀ e ∈ found, Separates e [6, 1, 2, 5, 3, 4, 1] [7, 0] := by
  have h : Describes [6, 1, 2, 5, 3, 4, 1] [7, 0] := ⟨by simp, by simp, by simp⟩
  exact ⟨h, minimizers_separate h⟩

/-! ## The number of terms -/

/-- The exact result consists of smallest implicants of the ON-set, and no sum in which every
    value of the ON-set is matched by such an implicant has fewer terms. -/
theorem systematic_fewest_terms {on off : List Int64} (h : Describes on off) :
    ∃ s e, Specification.ofLists on off = .ok s ∧ minimize .systematic on off = .ok e ∧
      e.width = s.width ∧ (∀ t ∈ e.terms, s.IsCandidate t) ∧ Separates e on off ∧
      ∀ d : Expression,
        (∀ n ∈ on, ∃ t ∈ d.terms, s.IsCandidate t ∧ t.eval n.toUInt64 = true) →
        e.size ≤ d.size := by
  have hs := Specification.encoding_wellFormed h
  obtain ⟨e, heq, hwidth, hcover⟩ := systematic_spec h
  refine ⟨_, e, ofLists_of_describes h, heq, hwidth, fun t ht => ?_,
    separates_of_isMinimumCover h hcover, fun d hd => ?_⟩
  · exact Specification.isCandidate_of_mem hs (hcover.subset t (List.mem_toFinset.mpr ht))
  · have hleast := hcover.least _ (fun c hc => (Finset.mem_filter.mp hc).2)
      (covers_filter_candidates h hd)
    rw [Expression.size_eq_card, Expression.size_eq_card]
    exact Nat.le_trans hleast (Finset.card_filter_le _ _)

theorem systematic_fewest_terms_cyclic :
    Describes [1, 2, 3, 4, 5, 6] [0, 7] ∧
      ∃ s e, Specification.ofLists [1, 2, 3, 4, 5, 6] [0, 7] = .ok s ∧
        minimize .systematic [1, 2, 3, 4, 5, 6] [0, 7] = .ok e ∧
        e.width = s.width ∧ (∀ t ∈ e.terms, s.IsCandidate t) ∧
        Separates e [1, 2, 3, 4, 5, 6] [0, 7] ∧
        ∀ d : Expression, (∀ n ∈ ([1, 2, 3, 4, 5, 6] : List Int64),
            ∃ t ∈ d.terms, s.IsCandidate t ∧ t.eval n.toUInt64 = true) →
          e.size ≤ d.size := by
  have h : Describes [1, 2, 3, 4, 5, 6] [0, 7] := ⟨by simp, by simp, by simp⟩
  exact ⟨h, systematic_fewest_terms h⟩

theorem eq_ok_of_toOption {ε α : Type} {x : Except ε α} {a : α} (h : x.toOption = some a) :
    x = .ok a := by
  cases x with
  | error e => cases h
  | ok b => exact congrArg _ (Option.some.inj h)

/-- Against the OFF-set `0100`, `1000` the smallest implicants of `1101` and `1110` are `x0` and
    `x1`, and the exact result is their sum. The longer implicant `x3x2` contains both minterms
    and is a sum with a single term. -/
theorem fewer_terms_with_longer_implicant :
    Describes [13, 14] [4, 8] ∧
      ∃ s e d, Specification.ofLists [13, 14] [4, 8] = .ok s ∧
        minimize .systematic [13, 14] [4, 8] = .ok e ∧ d.width = s.width ∧ d.Uniform ∧
        Separates d [13, 14] [4, 8] ∧ d.size < e.size := by
  have h : Describes [13, 14] [4, 8] := ⟨by simp, by simp, by simp⟩
  refine ⟨h, Specification.encoding [13, 14] [4, 8],
    ⟨4, [⟨[.free, .free, .free, .one]⟩, ⟨[.free, .free, .one, .free]⟩], by decide⟩,
    ⟨4, [⟨[.one, .one, .free, .free]⟩], by decide⟩, ?_, ?_, ?_, ?_, ?_, ?_⟩
  · exact ofLists_of_describes h
  · exact eq_ok_of_toOption (by decide +kernel)
  · decide +kernel
  · decide
  · refine ⟨?_, ?_⟩ <;>
      simp [Expression.eval, Cube.eval, Cube.literals, Cube.literalsOf, Ternary.polarity?,
        Literal.eval] <;>
      decide
  · decide

/-! ## All alternatives -/

/-- The alternatives, read as sets of terms, are the sets of candidates with the fewest elements
    which cover the ON-set. None is listed twice, and none has lost a term. -/
theorem alternatives_minimum_covers {on off : List Int64} (h : Describes on off) :
    ∃ s candidates found, Specification.ofLists on off = .ok s ∧
      s.candidates .all = .ok candidates ∧ s.alternatives = .ok found ∧
      minimizeAll on off = .ok found ∧
      (∀ S : Finset Cube, S ∈ found.map (fun e => e.terms.toFinset) ↔
        IsMinimumCover candidates s.on S) ∧
      (found.map fun e => e.terms.toFinset).Nodup ∧
      ∀ e ∈ found, ∀ S : Finset Cube, IsMinimumCover candidates s.on S → e.size = S.card := by
  have hs := Specification.encoding_wellFormed h
  obtain ⟨found, halt, hfound, hlists⟩ := minimizeAll_spec h
  refine ⟨_, _, found, ofLists_of_describes h, Specification.candidates_eq hs .all, halt, hfound,
    fun S => ?_, hlists.distinct, fun e he S hS => ?_⟩
  · constructor
    · intro hmem
      obtain ⟨e, he, rfl⟩ := List.mem_map.mp hmem
      exact hlists.minimum e he
    · intro hS
      obtain ⟨e, he, rfl⟩ := hlists.complete S hS
      exact List.mem_map_of_mem he
  · have hmin := hlists.minimum e he
    rw [Expression.size_eq_card]
    exact Nat.le_antisymm (hmin.least S hS.subset hS.covers)
      (hS.least _ hmin.subset hmin.covers)

theorem alternatives_minimum_covers_cyclic :
    Describes [1, 2, 3, 4, 5, 6] [0, 7] ∧
      ∃ s candidates found, Specification.ofLists [1, 2, 3, 4, 5, 6] [0, 7] = .ok s ∧
        s.candidates .all = .ok candidates ∧ s.alternatives = .ok found ∧
        minimizeAll [1, 2, 3, 4, 5, 6] [0, 7] = .ok found ∧
        (∀ S : Finset Cube, S ∈ found.map (fun e => e.terms.toFinset) ↔
          IsMinimumCover candidates s.on S) ∧
        (found.map fun e => e.terms.toFinset).Nodup ∧
        ∀ e ∈ found, ∀ S : Finset Cube, IsMinimumCover candidates s.on S → e.size = S.card := by
  have h : Describes [1, 2, 3, 4, 5, 6] [0, 7] := ⟨by simp, by simp, by simp⟩
  exact ⟨h, alternatives_minimum_covers h⟩

end TwoLevel
