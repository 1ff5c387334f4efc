/-
  What the two minimizers return, for a specification whose sets are disjoint.

  The candidates of the exact search are the smallest implicants of the minterms of the ON-set
  (`mem_candidateList_all`). Its results are the smallest sets of candidates which cover the
  ON-set, each once (`alternatives_spec`). The greedy search takes candidates of the same kind,
  and they cover the ON-set too (`greedy_spec`). Neither reports a defect.

  Terms which are candidates avoid the OFF-set, so that every sum of this kind which covers the
  ON-set realises the function (`separates_of_covers`).
-/
import TwoLevel.Minimize
import TwoLevel.Proofs.Implicants
import TwoLevel.Proofs.Specifications
import TwoLevel.Proofs.Sums

namespace TwoLevel

/-! ## Covers of the ON-set -/

/-- Every vector is contained by one of the cubes. -/
def Covers (S : Finset Cube) (vs : List BitVector) : Prop :=
  ∀ v ∈ vs, ∃ c ∈ S, c.contains v = true

/-- A set of candidates which covers the vectors, and none with fewer elements does. -/
structure IsMinimumCover (candidates : List Cube) (vs : List BitVector) (S : Finset Cube) :
    Prop where
  subset : ∀ c ∈ S, c ∈ candidates
  covers : Covers S vs
  least : ∀ T : Finset Cube, (∀ c ∈ T, c ∈ candidates) → Covers T vs → S.card ≤ T.card

/-- The cube is a smallest implicant of a minterm of the ON-set. -/
def Specification.IsCandidate (s : Specification) (c : Cube) : Prop :=
  ∃ f ∈ s.on, IsSmallestImplicant f s.off c

namespace Specification

/-- What the expansion of a minterm returns. -/
def implicants (s : Specification) (ties : Ties) (f : BitVector) : List Cube :=
  (expand f s.off ties).toOption.getD []

/-- The distinct results of the expansions of the ON-set. -/
def candidateList (s : Specification) (ties : Ties) : List Cube :=
  (s.on.flatMap (s.implicants ties)).eraseDups

variable {s : Specification}

section Candidates

variable (hs : s.WellFormed) {f : BitVector} (hf : f ∈ s.on)

include hs hf

theorem off_width_of_mem_on : ∀ r ∈ s.off, r.width = f.width :=
  fun r hr => (hs.off_width r hr).trans (hs.on_width f hf).symm

theorem expand_eq_implicants (ties : Ties) : expand f s.off ties = .ok (s.implicants ties f) := by
  obtain ⟨cubes, hok, _⟩ := expand_all_spec (off_width_of_mem_on hs hf) (hs.disjoint f hf)
  unfold implicants
  rw [expand_eq_map_all, hok]
  rfl

theorem implicants_all_spec :
    s.implicants .all f ≠ [] ∧
      ∀ c, c ∈ s.implicants .all f ↔ IsSmallestImplicant f s.off c := by
  obtain ⟨cubes, hok, hne, _, hmem⟩ :=
    expand_all_spec (off_width_of_mem_on hs hf) (hs.disjoint f hf)
  unfold implicants
  rw [hok]
  exact ⟨hne, hmem⟩

theorem implicants_eq_select (ties : Ties) :
    s.implicants ties f = ties.select (s.implicants .all f) := by
  have h := expand_eq_implicants hs hf ties
  rw [expand_eq_map_all, expand_eq_implicants hs hf] at h
  exact (Except.ok.inj h).symm

theorem mem_implicants {ties : Ties} {c : Cube} (hc : c ∈ s.implicants ties f) :
    IsSmallestImplicant f s.off c := by
  rw [implicants_eq_select hs hf] at hc
  exact ((implicants_all_spec hs hf).2 c).mp (Ties.mem_of_mem_select hc)

theorem exists_mem_implicants (ties : Ties) : ∃ c, c ∈ s.implicants ties f := by
  refine List.exists_mem_of_ne_nil _ ?_
  rw [implicants_eq_select hs hf]
  have hne := (implicants_all_spec hs hf).1
  cases ties with
  | all => exact hne
  | first => simpa [Ties.select] using hne

end Candidates

theorem candidates_eq (hs : s.WellFormed) (ties : Ties) :
    s.candidates ties = .ok (s.candidateList ties) := by
  have hmap : (s.on.mapM fun f => expand f s.off ties) = pure (s.on.map (s.implicants ties)) :=
    mapM_eq_pure_map fun f hf => expand_eq_implicants hs hf ties
  unfold candidates
  rw [hmap]
  rfl

theorem mem_candidateList {ties : Ties} {c : Cube} :
    c ∈ s.candidateList ties ↔ ∃ f ∈ s.on, c ∈ s.implicants ties f := by
  unfold candidateList
  rw [List.mem_eraseDups, List.mem_flatMap]

theorem nodup_candidateList (ties : Ties) : (s.candidateList ties).Nodup :=
  nodup_eraseDups _

/-- The candidates of the exact search are the smallest implicants of the ON-set. -/
theorem mem_candidateList_all (hs : s.WellFormed) {c : Cube} :
    c ∈ s.candidateList .all ↔ s.IsCandidate c := by
  rw [mem_candidateList]
  exact exists_congr fun f => and_congr_right fun hf => (implicants_all_spec hs hf).2 c

theorem isCandidate_of_mem (hs : s.WellFormed) {ties : Ties} {c : Cube}
    (hc : c ∈ s.candidateList ties) : s.IsCandidate c := by
  obtain ⟨f, hf, hcf⟩ := mem_candidateList.mp hc
  exact ⟨f, hf, mem_implicants hs hf hcf⟩

/-- Every minterm is contained by a candidate which it expands into. -/
theorem exists_candidate (hs : s.WellFormed) (ties : Ties) {f : BitVector} (hf : f ∈ s.on) :
    ∃ c ∈ s.candidateList ties, c.contains f = true := by
  obtain ⟨c, hc⟩ := exists_mem_implicants hs hf ties
  exact ⟨c, mem_candidateList.mpr ⟨f, hf, hc⟩, (mem_implicants hs hf hc).contains⟩

/-! ## The exact search -/

theorem mem_rowLabels_coveringMatrix {candidates : List Cube} {v : BitVector} {c : Cube} :
    c ∈ (s.coveringMatrix candidates).rowLabels (.positions (fun c => c.contains v) candidates) ↔
      c ∈ candidates ∧ c.contains v = true := by
  rw [CoverMatrix.mem_rowLabels]
  show (∃ k ∈ Row.positions (fun c : Cube => c.contains v) candidates, candidates[k]? = some c) ↔ _
  simp only [Row.mem_positions]
  constructor
  · intro h
    obtain ⟨k, ⟨d, hd, hdv⟩, hc⟩ := h
    rw [hd, Option.some_inj] at hc
    subst hc
    exact ⟨List.mem_of_getElem? hd, hdv⟩
  · intro h
    obtain ⟨hc, hcv⟩ := h
    obtain ⟨k, hk⟩ := List.mem_iff_getElem?.mp hc
    exact ⟨k, ⟨c, hk, hcv⟩, hk⟩

theorem coveringMatrix_wellFormed {candidates : List Cube} (h : candidates.Nodup) :
    (s.coveringMatrix candidates).WellFormed := by
  refine ⟨fun row hrow k hk => ?_, h⟩
  obtain ⟨v, _, rfl⟩ := List.mem_map.mp hrow
  obtain ⟨c, hc, _⟩ := Row.mem_positions.mp hk
  exact (List.getElem?_eq_some_iff.mp hc).1

theorem hits_coveringMatrix {candidates : List Cube} {S : Finset Cube}
    (hS : ∀ c ∈ S, c ∈ candidates) : (s.coveringMatrix candidates).Hits S ↔ Covers S s.on := by
  simp only [CoverMatrix.Hits, coveringMatrix, CoverMatrix.ofRelation, List.forall_mem_map, Covers]
  refine forall₂_congr fun v _ => exists_congr fun c => and_congr_right fun hc => ?_
  exact mem_rowLabels_coveringMatrix.trans (and_iff_right (hS c hc))

theorem isMinimalCover_coveringMatrix_iff {candidates : List Cube} {S : Finset Cube} :
    (s.coveringMatrix candidates).IsMinimalCover S ↔ IsMinimumCover candidates s.on S := by
  constructor
  · intro h
    obtain ⟨hlabels, hhits, hleast⟩ := h
    exact ⟨hlabels, (hits_coveringMatrix hlabels).mp hhits,
      fun T hT hcov => hleast T hT ((hits_coveringMatrix hT).mpr hcov)⟩
  · intro h
    obtain ⟨hsubset, hcovers, hleast⟩ := h
    exact ⟨hsubset, (hits_coveringMatrix hsubset).mpr hcovers,
      fun T hT hhits => hleast T hT ((hits_coveringMatrix hT).mp hhits)⟩

theorem coveringMatrix_coverable {candidates : List Cube}
    (h : ∀ v ∈ s.on, ∃ c ∈ candidates, c.contains v = true) :
    (s.coveringMatrix candidates).Coverable := by
  intro row hrow hempty
  obtain ⟨v, hv, rfl⟩ := List.mem_map.mp hrow
  obtain ⟨c, hc, hcv⟩ := h v hv
  obtain ⟨k, hk, _⟩ := CoverMatrix.mem_rowLabels.mp
    ((mem_rowLabels_coveringMatrix (s := s)).mpr ⟨hc, hcv⟩)
  rw [Row.mem_def, hempty] at hk
  cases hk

/-- The sums which the exact search returns, as lists of terms. -/
structure ListsMinimumSums (s : Specification) (found : List Expression) : Prop where
  nonempty : found ≠ []
  width : ∀ e ∈ found, e.width = s.width
  minimum : ∀ e ∈ found, IsMinimumCover (s.candidateList .all) s.on e.terms.toFinset
  complete : ∀ S : Finset Cube, IsMinimumCover (s.candidateList .all) s.on S →
    ∃ e ∈ found, e.terms.toFinset = S
  distinct : (found.map fun e => e.terms.toFinset).Nodup

/-- The exact search returns the minimum covers of the ON-set by candidates, each once. -/
theorem alternatives_spec (hs : s.WellFormed) :
    ∃ found, s.alternatives = .ok found ∧ s.ListsMinimumSums found := by
  obtain ⟨forced, rest, covers, hsimp, hext, hcovers, hlists⟩ :=
    CoverMatrix.simplify_minimalCovers_spec
      (coveringMatrix_wellFormed (s := s) (nodup_candidateList .all))
      (coveringMatrix_coverable fun v hv => exists_candidate hs .all hv)
  let sum (cover : List Cube) := cover.foldl Expression.push (.ofTerms s.width forced)
  have hterms : ∀ cover ∈ covers, (sum cover).terms = forced ++ cover := by
    intro cover hcover
    have hforced : (Expression.ofTerms s.width forced).terms = forced :=
      eraseDups_of_nodup hext.nodup
    have hnodup := hlists.nodup _ (List.mem_map_of_mem hcover)
    rw [Expression.foldl_push_terms (by rwa [hforced]), hforced]
  refine ⟨covers.map sum, ?_, ?_⟩
  · unfold alternatives
    rw [candidates_eq hs]
    simp only [bind, Except.bind, hsimp, hcovers]
    rfl
  · refine ⟨by simpa using hlists.nonempty, ?_, ?_, ?_, ?_⟩
    · exact List.forall_mem_map.mpr fun cover _ => Expression.foldl_push_width _ cover
    · refine List.forall_mem_map.mpr fun cover hcover => ?_
      rw [hterms cover hcover]
      exact isMinimalCover_coveringMatrix_iff.mp (hlists.minimal _ (List.mem_map_of_mem hcover))
    · intro S hS
      obtain ⟨C, hC, rfl⟩ := hlists.complete S (isMinimalCover_coveringMatrix_iff.mpr hS)
      obtain ⟨cover, hcover, rfl⟩ := List.mem_map.mp hC
      exact ⟨_, List.mem_map_of_mem hcover, by rw [hterms cover hcover]⟩
    · have hmap : (covers.map sum).map (fun e => e.terms.toFinset) =
          (covers.map (forced ++ ·)).map List.toFinset := by
        rw [List.map_map, List.map_map]
        exact List.map_congr_left fun cover hcover => congrArg List.toFinset (hterms cover hcover)
      rw [hmap]
      exact hlists.distinct

/-- The exact search returns the first of its alternatives. -/
theorem exact_spec (hs : s.WellFormed) :
    ∃ e, s.exact = .ok e ∧ e.width = s.width ∧
      IsMinimumCover (s.candidateList .all) s.on e.terms.toFinset := by
  obtain ⟨found, hfound, hlists⟩ := alternatives_spec hs
  obtain _ | ⟨e, others⟩ := found
  · exact absurd rfl hlists.nonempty
  · refine ⟨e, by rw [exact, hfound]; rfl, ?_, ?_⟩
    · exact hlists.width e List.mem_cons_self
    · exact hlists.minimum e List.mem_cons_self

/-! ## The greedy search -/

theorem greedyTerms_cons (c : Cube) (cubes : List Cube) (uncovered : List BitVector) :
    greedyTerms (c :: cubes) uncovered =
      let later := greedyTerms cubes (uncovered.filter fun v => !c.contains v)
      if uncovered.any c.contains then c :: later else later :=
  rfl

theorem greedyTerms_sublist (cubes : List Cube) (uncovered : List BitVector) :
    (greedyTerms cubes uncovered).Sublist cubes := by
  induction cubes generalizing uncovered with
  | nil => exact List.Sublist.slnil
  | cons c cubes ih =>
    rw [greedyTerms_cons]
    dsimp only
    split
    · exact (ih _).cons_cons c
    · exact (ih _).cons c

/-- A vector which some cube contains is contained by one of the cubes taken. -/
theorem exists_mem_greedyTerms {cubes : List Cube} {uncovered : List BitVector} {v : BitVector}
    (hv : v ∈ uncovered) (h : ∃ c ∈ cubes, c.contains v = true) :
    ∃ c ∈ greedyTerms cubes uncovered, c.contains v = true := by
  induction cubes generalizing uncovered with
  | nil => simp at h
  | cons c cubes ih =>
    rw [greedyTerms_cons]
    dsimp only
    cases hc : c.contains v with
    | true =>
      rw [if_pos (List.any_eq_true.mpr ⟨v, hv, hc⟩)]
      exact ⟨c, List.mem_cons_self, hc⟩
    | false =>
      have hlater : ∃ d ∈ cubes, d.contains v = true := by
        obtain ⟨d, hd, hdv⟩ := h
        rcases List.mem_cons.mp hd with rfl | hd
        · rw [hc] at hdv
          cases hdv
        · exact ⟨d, hd, hdv⟩
      have hv' : v ∈ uncovered.filter fun v => !c.contains v :=
        List.mem_filter.mpr ⟨hv, by rw [hc]; rfl⟩
      obtain ⟨d, hd, hdv⟩ := ih hv' hlater
      split
      · exact ⟨d, List.mem_cons_of_mem c hd, hdv⟩
      · exact ⟨d, hd, hdv⟩

theorem greedy_eq (hs : s.WellFormed) :
    s.greedy = .ok (.ofTerms s.width (greedyTerms (s.candidateList .first) s.on)) := by
  have hall : (s.on.all fun v => (s.candidateList .first).any (·.contains v)) = true :=
    List.all_eq_true.mpr fun v hv =>
      List.any_eq_true.mpr (exists_candidate hs .first hv)
  rw [greedy, candidates_eq hs]
  simp only [bind, Except.bind, hall, if_true]
  rfl

theorem greedy_spec (hs : s.WellFormed) :
    ∃ e, s.greedy = .ok e ∧ e.width = s.width ∧
      (∀ t ∈ e.terms, t ∈ s.candidateList .first) ∧ Covers e.terms.toFinset s.on := by
  refine ⟨_, greedy_eq hs, rfl, fun t ht => ?_, fun v hv => ?_⟩
  · exact (greedyTerms_sublist _ _).subset (List.mem_eraseDups.mp ht)
  · obtain ⟨c, hc, hcv⟩ := exists_mem_greedyTerms hv (exists_candidate hs .first hv)
    exact ⟨c, List.mem_toFinset.mpr (List.mem_eraseDups.mpr hc), hcv⟩

end Specification

/-! ## The functions of the sums -/

/-- The sum is true on the values of the ON-set and false on those of the OFF-set. -/
def Separates (e : Expression) (on off : List Int64) : Prop :=
  (∀ n ∈ on, e.eval n.toUInt64 = true) ∧ ∀ n ∈ off, e.eval n.toUInt64 = false

instance (e : Expression) (on off : List Int64) : Decidable (Separates e on off) :=
  inferInstanceAs (Decidable (_ ∧ _))

theorem eval_eq_true_iff {e : Expression} {w : Nat} (hw : ∀ t ∈ e.terms, t.width = w)
    {n : UInt64} : e.eval n = true ↔ ∃ t ∈ e.terms, t.contains (encode n w) = true := by
  unfold Expression.eval
  rw [List.any_eq_true]
  refine exists_congr fun t => and_congr_right fun ht => ?_
  rw [Cube.eval_eq_contains, hw t ht]

/-- A sum of cubes of the width of the specification, in terms of the encoded sets. -/
theorem separates_iff {e : Expression} {on off : List Int64}
    (hw : ∀ t ∈ e.terms, t.width = (Specification.encoding on off).width) :
    Separates e on off ↔
      Covers e.terms.toFinset (Specification.encoding on off).on ∧
        ∀ v ∈ (Specification.encoding on off).off, ∀ t ∈ e.terms, t.contains v = false := by
  have hcovers : Covers e.terms.toFinset (Specification.encoding on off).on ↔
      ∀ n ∈ on, e.eval n.toUInt64 = true := by
    constructor
    · intro h n hn
      obtain ⟨t, ht, htv⟩ := h _ (Specification.mem_on_encoding.mpr ⟨n, hn, rfl⟩)
      exact (eval_eq_true_iff hw).mpr ⟨t, List.mem_toFinset.mp ht, htv⟩
    · intro h v hv
      obtain ⟨n, hn, rfl⟩ := Specification.mem_on_encoding.mp hv
      obtain ⟨t, ht, htv⟩ := (eval_eq_true_iff hw).mp (h n hn)
      exact ⟨t, List.mem_toFinset.mpr ht, htv⟩
  have havoids : (∀ v ∈ (Specification.encoding on off).off, ∀ t ∈ e.terms,
      t.contains v = false) ↔ ∀ n ∈ off, e.eval n.toUInt64 = false := by
    constructor
    · intro h n hn
      refine Bool.eq_false_iff.mpr fun heval => ?_
      obtain ⟨t, ht, htv⟩ := (eval_eq_true_iff hw).mp heval
      rw [h _ (Specification.mem_off_encoding.mpr ⟨n, hn, rfl⟩) t ht] at htv
      cases htv
    · intro h v hv t ht
      obtain ⟨n, hn, rfl⟩ := Specification.mem_off_encoding.mp hv
      refine Bool.eq_false_iff.mpr fun htv => ?_
      have heval := (eval_eq_true_iff hw).mpr ⟨t, ht, htv⟩
      rw [h n hn] at heval
      cases heval
  rw [hcovers, havoids, Separates]

namespace Specification.IsCandidate

variable {s : Specification} {c : Cube}

theorem width (hs : s.WellFormed) (h : s.IsCandidate c) : c.width = s.width := by
  obtain ⟨f, hf, hc⟩ := h
  exact hc.width.trans (hs.on_width f hf)

theorem avoids (h : s.IsCandidate c) : ∀ v ∈ s.off, c.contains v = false := by
  obtain ⟨f, _, hc⟩ := h
  exact hc.avoids

end Specification.IsCandidate

/-- A sum of candidates which covers the ON-set realises the function. -/
theorem separates_of_covers {e : Expression} {on off : List Int64} (h : Describes on off)
    (hterms : ∀ t ∈ e.terms, (Specification.encoding on off).IsCandidate t)
    (hcovers : Covers e.terms.toFinset (Specification.encoding on off).on) :
    Separates e on off := by
  have hs := Specification.encoding_wellFormed h
  refine (separates_iff fun t ht => (hterms t ht).width hs).mpr ⟨hcovers, fun v hv t ht => ?_⟩
  exact (hterms t ht).avoids v hv

end TwoLevel
