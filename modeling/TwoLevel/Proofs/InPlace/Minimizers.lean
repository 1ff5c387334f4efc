/-
  The two minimizers, in place and with every index checked.

  For a specification whose sets are disjoint each of them returns what its definition without
  indices returns, and no index is out of range. Two lists of integers which describe no function
  are refused before anything is read by index (`minimize_refines`, `minimizeAll_refines`).
-/
import TwoLevel.Proofs.InPlace.Expansion
import TwoLevel.Proofs.InPlace.Minterms
import TwoLevel.Proofs.Minimization

namespace TwoLevel.InPlace

def candidates (s : Specification) (ties : Ties) : Checked (List Cube) := do
  let found ← s.on.mapM fun f => expand f s.off ties
  return found.flatten.eraseDups

/-- Which candidates contain which minterms of the ON-set. -/
def coveringMatrix (s : Specification) (candidates : List Cube) : CoverMatrix Cube :=
  .ofRelation s.on candidates fun f c => InPlace.contains c (.ofBits f.bits)

def alternatives (s : Specification) : Checked (List Expression) := do
  if s.on.isEmpty then
    return [.empty s.width]
  let candidates ← candidates s .all
  let (mandatory, rest) ← simplify (coveringMatrix s candidates)
  let base := Expression.ofTerms s.width mandatory
  if rest.columnCount = 0 then
    return [base]
  let covers ← minimalCovers rest
  return covers.map fun cover => cover.foldl Expression.push base

def exact (s : Specification) : Checked Expression := do
  let found ← alternatives s
  return found.headD (.empty s.width)

/-- Takes the cubes in their order. Each removes the vectors which it contains, and is added to
    the sum if there were any. -/
def coverGreedily : List Cube → List BitVector → Expression →
    Option (List BitVector × Expression)
  | [], uncovered, e => some (uncovered, e)
  | c :: cubes, uncovered, e =>
    if uncovered.isEmpty then some (uncovered, e)
    else do
      let contained (v : BitVector) := InPlace.contains c (.ofBits v.bits)
      let left ← removeDown (fun vs i => vs[i]?.map contained) 0 uncovered.length uncovered
      coverGreedily cubes left (if left.length < uncovered.length then e.push c else e)

def greedy (s : Specification) : Checked Expression := do
  let candidates ← candidates s .first
  let (uncovered, e) ← coverGreedily candidates s.on (.empty s.width)
  if uncovered.isEmpty then
    return e
  else
    throw .uncoveredMinterm

def search : Method → Specification → Checked Expression
  | .systematic => exact
  | .heuristic => greedy

/-- A search on the function which two lists describe. -/
def onLists {α : Type} (run : Specification → Checked α) (on off : List Int64) :
    Option (Except Error α) :=
  match InPlace.ofLists on off with
  | .ok s => (run s).run.map (·.mapError .defect)
  | .error e => some (.error (.input e))

/-- A sum of products which is true on the ON-set and false on the OFF-set. -/
def minimize (method : Method) (on off : List Int64) : Option (Except Error Expression) :=
  onLists (search method) on off

/-- All sums with the fewest terms which the exact search finds. -/
def minimizeAll (on off : List Int64) : Option (Except Error (List Expression)) :=
  onLists alternatives on off

/-! ## The exact search -/

variable {s : Specification}

theorem candidates_refines (hs : s.WellFormed) (ties : Ties) :
    InPlace.candidates s ties = pure (s.candidateList ties) := by
  have hmap : (s.on.mapM fun f => InPlace.expand f s.off ties) =
      pure (s.on.map (s.implicants ties)) :=
    mapM_eq_pure_map fun f hf => by
      rw [expand_refines (Specification.off_width_of_mem_on hs hf),
        Specification.expand_eq_implicants hs hf, lift_ok]
  unfold InPlace.candidates
  rw [hmap, pure_bind]
  rfl

theorem coveringMatrix_refines (s : Specification) (candidates : List Cube) :
    InPlace.coveringMatrix s candidates = s.coveringMatrix candidates := by
  unfold InPlace.coveringMatrix
  simp only [contains_refines]
  rfl

theorem alternatives_of_empty (w : Nat) (off : List BitVector) :
    Specification.alternatives ⟨w, [], off⟩ = .ok [.empty w] := by
  have hcandidates : Specification.candidates ⟨w, [], off⟩ .all = .ok [] := rfl
  have hsimplify : (Specification.coveringMatrix ⟨w, [], off⟩ []).simplify =
      .ok ([], ⟨[], []⟩) := rfl
  have hcovers : (⟨[], []⟩ : CoverMatrix Cube).minimalCovers = .ok [[]] := rfl
  unfold Specification.alternatives
  rw [hcandidates]
  simp only [bind, Except.bind, hsimplify, hcovers]
  rfl

theorem alternatives_refines (hs : s.WellFormed) {found : List Expression}
    (h : s.alternatives = .ok found) : InPlace.alternatives s = pure found := by
  obtain ⟨mandatory, rest, covers, hsimp, hext, hcovers, _⟩ :=
    CoverMatrix.simplify_minimalCovers_spec
      (Specification.coveringMatrix_wellFormed (s := s) (Specification.nodup_candidateList .all))
      (Specification.coveringMatrix_coverable fun v hv => Specification.exists_candidate hs .all hv)
  have hfound : found = covers.map fun cover =>
      cover.foldl Expression.push (.ofTerms s.width mandatory) := by
    unfold Specification.alternatives at h
    rw [Specification.candidates_eq hs] at h
    simp only [bind, Except.bind, hsimp, hcovers] at h
    exact (Except.ok.inj h).symm
  unfold InPlace.alternatives
  by_cases hon : s.on.isEmpty = true
  · rw [if_pos hon]
    obtain ⟨w, on, off⟩ := s
    obtain rfl : on = [] := List.isEmpty_iff.mp hon
    exact congrArg pure (Except.ok.inj ((alternatives_of_empty w off).symm.trans h))
  · rw [if_neg hon, candidates_refines hs, pure_bind, coveringMatrix_refines, simplify_refines,
      hsimp, lift_ok, pure_bind]
    by_cases hcount : rest.columnCount = 0
    · have hnil : covers = [[]] := covers_of_no_columns hext hcount hcovers
      simp only [hcount, if_true, hfound, hnil]
      rfl
    · simp only [hcount, if_false, minimalCovers_refines hcovers, pure_bind, hfound]

theorem exact_refines (hs : s.WellFormed) {e : Expression} (h : s.exact = .ok e) :
    InPlace.exact s = pure e := by
  obtain ⟨found, hfound, _⟩ := Specification.alternatives_spec hs
  unfold Specification.exact at h
  rw [hfound] at h
  unfold InPlace.exact
  rw [alternatives_refines hs hfound, pure_bind, ← Except.ok.inj h]

/-! ## The greedy search -/

theorem greedyTerms_nil (cubes : List Cube) : Specification.greedyTerms cubes [] = [] := by
  induction cubes with
  | nil => rfl
  | cons c cubes ih =>
    rw [Specification.greedyTerms_cons]
    exact ih

/-- The vectors which no cube contains are left, and the cubes which were kept are added. -/
theorem coverGreedily_refines (cubes : List Cube) (uncovered : List BitVector) (e : Expression) :
    coverGreedily cubes uncovered e =
      some (uncovered.filter (fun v => !cubes.any (·.contains v)),
        (Specification.greedyTerms cubes uncovered).foldl Expression.push e) := by
  induction cubes generalizing uncovered e with
  | nil => simp [coverGreedily, Specification.greedyTerms]
  | cons c cubes ih =>
    simp only [coverGreedily, contains_refines]
    by_cases hempty : uncovered.isEmpty = true
    · rw [if_pos hempty, List.isEmpty_iff.mp hempty, greedyTerms_nil]
      rfl
    · have hremove : removeDown (fun vs i => vs[i]?.map c.contains) 0 uncovered.length uncovered =
          some (uncovered.filter fun v => !c.contains v) := by
        have hloop := @removeDown_eq_filter _ (fun vs i => vs[i]?.map c.contains) c.contains []
          (fun middle v back => by simp) uncovered []
        simpa using hloop
      have hshrinks : (uncovered.filter fun v => !c.contains v).length < uncovered.length ↔
          uncovered.any c.contains = true := by
        rw [List.length_filter_lt_length_iff_exists]
        simp
      have hfilter : (uncovered.filter fun v => !c.contains v).filter
          (fun v => !cubes.any (·.contains v)) =
          uncovered.filter fun v => !(c :: cubes).any (·.contains v) := by
        rw [List.filter_filter]
        refine List.filter_congr fun v _ => ?_
        simp [Bool.and_comm]
      rw [if_neg hempty, hremove, Specification.greedyTerms_cons]
      simp only [Option.bind_eq_bind, Option.bind_some, ih, hfilter, hshrinks]
      split <;> rfl

theorem foldl_push_empty (w : Nat) {ts : List Cube} (h : ts.Nodup) :
    ts.foldl Expression.push (.empty w) = .ofTerms w ts := by
  refine Expression.ext_terms (Expression.foldl_push_width _ ts) ?_
  exact (Expression.foldl_push_terms (e := .empty w) h).trans (eraseDups_of_nodup h).symm

theorem greedy_refines (hs : s.WellFormed) {e : Expression} (h : s.greedy = .ok e) :
    InPlace.greedy s = pure e := by
  have hnodup : (Specification.greedyTerms (s.candidateList .first) s.on).Nodup :=
    (Specification.nodup_candidateList .first).sublist (Specification.greedyTerms_sublist _ _)
  have hcovered : s.on.filter (fun v => !(s.candidateList .first).any (·.contains v)) = [] := by
    refine List.filter_eq_nil_iff.mpr fun v hv => ?_
    have hany : (s.candidateList .first).any (·.contains v) = true :=
      List.any_eq_true.mpr (Specification.exists_candidate hs .first hv)
    simp [hany]
  rw [Specification.greedy_eq hs] at h
  unfold InPlace.greedy
  rw [candidates_refines hs, pure_bind, coverGreedily_refines, hcovered, foldl_push_empty _ hnodup,
    Except.ok.inj h]
  rfl

/-! ## Lists of integers -/

/-- A search which neither leaves its lists nor reports a defect on a well-formed specification
    has an answer for any two lists of integers. -/
theorem onLists_refines {α : Type} {run : Specification → Checked α}
    {search : Specification → Except Defect α}
    (h : ∀ s, s.WellFormed → ∃ a, search s = .ok a ∧ run s = pure a) (on off : List Int64) :
    onLists run on off = some (specify on off >>= fun s => (search s).mapError .defect) := by
  rcases describes_or_refused on off with hd | ⟨reason, hr⟩
  · obtain ⟨a, hsearch, hrun⟩ := h _ (Specification.encoding_wellFormed hd)
    unfold onLists
    rw [specify_of_describes hd, ofLists_refines, ofLists_of_describes hd]
    simp only [hrun, bind, Except.bind, hsearch]
    rfl
  · unfold onLists specify
    rw [ofLists_refines, ofLists_of_refused hr]
    rfl

theorem minimize_refines (method : Method) (on off : List Int64) :
    InPlace.minimize method on off = some (TwoLevel.minimize method on off) := by
  refine onLists_refines (fun s hs => ?_) on off
  cases method with
  | systematic =>
    obtain ⟨e, he, _⟩ := Specification.exact_spec hs
    exact ⟨e, he, exact_refines hs he⟩
  | heuristic =>
    obtain ⟨e, he, _⟩ := Specification.greedy_spec hs
    exact ⟨e, he, greedy_refines hs he⟩

theorem minimizeAll_refines (on off : List Int64) :
    InPlace.minimizeAll on off = some (TwoLevel.minimizeAll on off) := by
  refine onLists_refines (fun s hs => ?_) on off
  obtain ⟨found, hfound, _⟩ := Specification.alternatives_spec hs
  exact ⟨found, hfound, alternatives_refines hs hfound⟩

end TwoLevel.InPlace
