/-
  What the greedy search keeps.

  The search removes what a candidate contains from the minterms left to cover, and stops when
  none is left. In a closed form it keeps the candidates which contain some minterm that no
  candidate before them contains, whether that one was kept or not (`newlyCovering`). The invariant
  of the search is that the minterms left are those which no candidate visited so far contains: a
  candidate which is skipped contains none of them, so that it makes no difference
  (`greedyTerms_filter`).

  Hence every term covers a minterm which no term before it covers (`exists_newly_covered`), and
  there are at most as many terms as minterms (`length_greedyTerms_le`). The search in place, with
  its removals by index and its early end, has the same result (`greedy_newly_covering`).
-/
import TwoLevel.Proofs.InPlace.Minimizers

namespace TwoLevel

namespace Specification

/-- A cube of the list, given with its place, contains one of the vectors that no cube before it
    contains. -/
def coversNew (cubes : List Cube) (vs : List BitVector) (x : Cube × Nat) : Bool :=
  vs.any fun v => x.1.contains v && !(cubes.take x.2).any (·.contains v)

/-- The cubes of a list which contain one of the vectors that no cube before them contains. -/
def newlyCovering (cubes : List Cube) (vs : List BitVector) : List Cube :=
  (cubes.zipIdx.filter (coversNew cubes vs)).map (·.1)

/-! ## The closed form -/

theorem coversNew_append (before : List Cube) (c : Cube) (after : List Cube)
    (vs : List BitVector) :
    coversNew (before ++ c :: after) vs (c, before.length) =
      (vs.filter fun v => !before.any (·.contains v)).any c.contains := by
  rw [coversNew, List.take_left, List.any_filter]
  exact congrArg vs.any (funext fun v => Bool.and_comm _ _)

/-- The search from the middle on: the cubes of `before` have been visited. -/
theorem greedyTerms_filter (before cubes : List Cube) (vs : List BitVector) :
    greedyTerms cubes (vs.filter fun v => !before.any (·.contains v)) =
      ((cubes.zipIdx before.length).filter (coversNew (before ++ cubes) vs)).map (·.1) := by
  induction cubes generalizing before with
  | nil => rfl
  | cons c cubes ih =>
    have hleft : (vs.filter fun v => !before.any (·.contains v)).filter (fun v => !c.contains v) =
        vs.filter fun v => !(before ++ [c]).any (·.contains v) := by
      rw [List.filter_filter]
      exact List.filter_congr fun v _ => by simp [Bool.and_comm]
    have hnext := ih (before ++ [c])
    rw [List.length_append, List.length_singleton, List.append_assoc, List.singleton_append]
      at hnext
    rw [greedyTerms_cons, hleft, hnext, List.zipIdx_cons, List.filter_cons, coversNew_append]
    dsimp only
    split <;> rfl

theorem greedyTerms_eq_newlyCovering (cubes : List Cube) (vs : List BitVector) :
    greedyTerms cubes vs = newlyCovering cubes vs := by
  have hall : (vs.filter fun v => !([] : List Cube).any (·.contains v)) = vs :=
    List.filter_eq_self.mpr fun _ _ => rfl
  have h := greedyTerms_filter [] cubes vs
  rwa [hall] at h

/-- `11` is skipped: `1-` before it contains the only vector which it contains. -/
example :
    newlyCovering [⟨[.one, .free]⟩, ⟨[.one, .one]⟩, ⟨[.free, .one]⟩]
      [⟨[false, true]⟩, ⟨[true, false]⟩, ⟨[true, true]⟩] =
        [⟨[.one, .free]⟩, ⟨[.free, .one]⟩] := by
  decide

/-! ## The cubes kept -/

/-- A cube which is kept contains a vector that no cube kept before it contains. -/
theorem exists_newly_covered {cubes before after : List Cube} {uncovered : List BitVector}
    {t : Cube} (h : greedyTerms cubes uncovered = before ++ t :: after) :
    ∃ v ∈ uncovered, t.contains v = true ∧ ∀ u ∈ before, u.contains v = false := by
  induction cubes generalizing before uncovered with
  | nil => simp [greedyTerms] at h
  | cons c cubes ih =>
    rw [greedyTerms_cons] at h
    dsimp only at h
    split at h
    · next hany =>
      cases before with
      | nil =>
        obtain ⟨rfl, _⟩ := List.cons.inj h
        obtain ⟨v, hv, hcv⟩ := List.any_eq_true.mp hany
        exact ⟨v, hv, hcv, fun _ hu => absurd hu List.not_mem_nil⟩
      | cons u before =>
        obtain ⟨rfl, hlater⟩ := List.cons.inj h
        obtain ⟨v, hv, htv, hbefore⟩ := ih hlater
        obtain ⟨hv, hcv⟩ := List.mem_filter.mp hv
        exact ⟨v, hv, htv, List.forall_mem_cons.mpr ⟨by simpa using hcv, hbefore⟩⟩
    · obtain ⟨v, hv, hrest⟩ := ih h
      exact ⟨v, List.mem_of_mem_filter hv, hrest⟩

/-- Each cube which is kept removes a vector. -/
theorem length_greedyTerms_le (cubes : List Cube) (uncovered : List BitVector) :
    (greedyTerms cubes uncovered).length ≤ uncovered.length := by
  induction cubes generalizing uncovered with
  | nil => exact Nat.zero_le _
  | cons c cubes ih =>
    have hlater := ih (uncovered.filter fun v => !c.contains v)
    rw [greedyTerms_cons]
    dsimp only
    split
    · next hany =>
      have hlt : (uncovered.filter fun v => !c.contains v).length < uncovered.length := by
        rw [List.length_filter_lt_length_iff_exists]
        simpa using hany
      rw [List.length_cons]
      omega
    · exact Nat.le_trans hlater (List.length_filter_le _ _)

/-- The candidates are distinct, so that none of those kept is lost. -/
theorem greedy_terms {s : Specification} (hs : s.WellFormed) :
    ∃ e, s.greedy = .ok e ∧ e.terms = greedyTerms (s.candidateList .first) s.on :=
  ⟨_, greedy_eq hs,
    eraseDups_of_nodup ((nodup_candidateList .first).sublist (greedyTerms_sublist _ _))⟩

/-! ## The distinct minterms -/

/-- The ON-set has one vector for each value of the list. -/
theorem length_on_encoding (on off : List Int64) :
    (encoding on off).on.length = on.toFinset.card := by
  have hnodup : (ascending (on.map Int64.toUInt64)).Nodup :=
    (ascending_pairwise (on.map Int64.toUInt64)).imp UInt64.ne_of_lt
  have hset : (ascending (on.map Int64.toUInt64)).toFinset = on.toFinset.image Int64.toUInt64 := by
    ext u
    simp [mem_ascending]
  calc (encoding on off).on.length = (ascending (on.map Int64.toUInt64)).length := List.length_map _
    _ = (ascending (on.map Int64.toUInt64)).toFinset.card :=
        (List.toFinset_card_of_nodup hnodup).symm
    _ = on.toFinset.card := by
        rw [hset, Finset.card_image_of_injective _ fun _ _ => toUInt64_injective]

end Specification

/-! ## The greedy result -/

/-- A term of the greedy result is true on a value of the ON-set on which no earlier term is. -/
theorem exists_newly_true {on off : List Int64} (h : Describes on off) {before after : List Cube}
    {t : Cube}
    (heq : Specification.greedyTerms ((Specification.encoding on off).candidateList .first)
      (Specification.encoding on off).on = before ++ t :: after) :
    ∃ n ∈ on, t.eval n.toUInt64 = true ∧ ∀ u ∈ before, u.eval n.toUInt64 = false := by
  have hs := Specification.encoding_wellFormed h
  have hwidth : ∀ u ∈ before ++ t :: after, u.width = (Specification.encoding on off).width := by
    intro u hu
    have hcandidate := (Specification.greedyTerms_sublist _ _).subset (heq ▸ hu)
    exact (Specification.isCandidate_of_mem hs hcandidate).width hs
  obtain ⟨v, hv, htv, hbefore⟩ := Specification.exists_newly_covered heq
  obtain ⟨n, hn, rfl⟩ := Specification.mem_on_encoding.mp hv
  refine ⟨n, hn, ?_, fun u hu => ?_⟩
  · rw [Cube.eval_eq_contains, hwidth t (by simp), htv]
  · rw [Cube.eval_eq_contains, hwidth u (List.mem_append_left _ hu), hbefore u hu]

/-- The terms of the greedy result are, in the order of the candidates, those candidates which
    contain a minterm of the ON-set that no candidate before them contains. So each term is true on
    a value of the ON-set on which no term before it is, and there are at most as many terms as
    different values. -/
theorem greedy_newly_covering {on off : List Int64} (h : Describes on off) :
    ∃ s candidates e, Specification.ofLists on off = .ok s ∧
      s.candidates .first = .ok candidates ∧ s.greedy = .ok e ∧
      (InPlace.greedy s).run = some (.ok e) ∧ minimize .heuristic on off = .ok e ∧
      e.terms = Specification.newlyCovering candidates s.on ∧
      (∀ before t after, e.terms = before ++ t :: after →
        ∃ n ∈ on, t.eval n.toUInt64 = true ∧ ∀ u ∈ before, u.eval n.toUInt64 = false) ∧
      e.size ≤ on.toFinset.card := by
  have hs := Specification.encoding_wellFormed h
  obtain ⟨e, hgreedy, hterms⟩ := Specification.greedy_terms hs
  refine ⟨_, _, e, ofLists_of_describes h, Specification.candidates_eq hs .first, hgreedy, ?_,
    minimize_of_search h hgreedy, ?_, fun before t after heq => ?_, ?_⟩
  · rw [InPlace.greedy_refines hs hgreedy]
    rfl
  · rw [hterms, Specification.greedyTerms_eq_newlyCovering]
  · exact exists_newly_true h (hterms.symm.trans heq)
  · rw [Expression.size, hterms, ← Specification.length_on_encoding on off]
    exact Specification.length_greedyTerms_le _ _

theorem greedy_newly_covering_cyclic :
    Describes [1, 2, 3, 4, 5, 6] [0, 7] ∧
      ∃ s candidates e, Specification.ofLists [1, 2, 3, 4, 5, 6] [0, 7] = .ok s ∧
        s.candidates .first = .ok candidates ∧ s.greedy = .ok e ∧
        (InPlace.greedy s).run = some (.ok e) ∧
        minimize .heuristic [1, 2, 3, 4, 5, 6] [0, 7] = .ok e ∧
        e.terms = Specification.newlyCovering candidates s.on ∧
        (∀ before t after, e.terms = before ++ t :: after →
          ∃ n ∈ ([1, 2, 3, 4, 5, 6] : List Int64), t.eval n.toUInt64 = true ∧
            ∀ u ∈ before, u.eval n.toUInt64 = false) ∧
        e.size ≤ ([1, 2, 3, 4, 5, 6] : List Int64).toFinset.card := by
  have h : Describes [1, 2, 3, 4, 5, 6] [0, 7] := ⟨by simp, by simp, by simp⟩
  exact ⟨h, greedy_newly_covering h⟩

end TwoLevel
