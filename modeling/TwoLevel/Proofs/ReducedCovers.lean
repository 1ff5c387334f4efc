/-
  What the operations on a covering matrix do to its covers.

  Any series of operations is sound, whatever rows are dominated: a set of labels which hits the
  rows that are left, together with the labels taken on the way, hits the rows of the first matrix.
  Columns are lost, but a row only ever gets shorter, and a row is only dropped if it includes a
  row which stays or has a column which is taken. One operation keeps this (`hits_of_perform?`),
  and so does a series (`hits_of_run`, `reductions_keep_covers`).

  Nothing is lost if the dominated rows are dropped first: then the minimal covers of the matrix
  are those of the rest, each with the labels taken (`reduced_minimal_covers`).
-/
import TwoLevel.Proofs.MatrixHistory

namespace TwoLevel

namespace MandatoryScan

/-- Every row visited is kept, or one of its columns is selected. -/
theorem kept_or_forced {rows : List Row} (hok : (ofRows rows).failed = false) :
    ∀ r ∈ rows, r ∈ (ofRows rows).kept ∨ ∃ c ∈ (ofRows rows).forced, c ∈ r := by
  induction rows with
  | nil => exact fun _ hr => absurd hr List.not_mem_nil
  | cons q rows ih =>
    rw [ofRows_cons] at hok ⊢
    intro r hr
    rcases visit_cases q (ofRows rows) with ⟨_, heq⟩ | ⟨hrest, c, hc, _, heq⟩ | ⟨hrest, heq⟩
    · rw [heq] at hok
      cases hok
    · rw [heq]
      rcases List.mem_cons.mp hr with rfl | hr
      · exact Or.inr ⟨c, by simp, hc⟩
      · rcases ih hrest r hr with hr | ⟨d, hd, hdr⟩
        · exact Or.inl hr
        · exact Or.inr ⟨d, List.mem_append_left [c] hd, hdr⟩
    · rw [heq]
      rcases List.mem_cons.mp hr with rfl | hr
      · exact Or.inl List.mem_cons_self
      · exact (ih hrest r hr).imp_left (List.mem_cons_of_mem q)

end MandatoryScan

namespace CoverMatrix

variable {L : Type} {m : CoverMatrix L}

/-! ## One operation -/

/-- A set which hits the rows with some of the columns hits them with all. -/
theorem hits_of_reindex {order : List Nat} (horder : ∀ c ∈ order, c < m.labels.length)
    {S : Finset L} (h : (m.reindex order).Hits S) : m.Hits S := by
  intro r hr
  obtain ⟨l, hl, hlr⟩ := h _ (List.mem_map_of_mem hr)
  obtain ⟨c, _, hcr, hcl⟩ := (mem_rowLabels_reindex horder).mp hlr
  exact ⟨l, hl, mem_rowLabels.mpr ⟨c, hcr, hcl⟩⟩

theorem hits_of_extractMandatory (h : m.WellFormed) {labels : List L}
    (hok : m.extractMandatory.1 = .ok labels) {S : Finset L} (hlabels : ∀ l ∈ labels, l ∈ S)
    (hS : m.extractMandatory.2.Hits S) : m.Hits S := by
  have hused := dropUnused_wellFormed h
  -- the rows which stay have lost the selected columns, which only makes them harder to hit
  have hrest : Hits ⟨(MandatoryScan.ofRows m.dropUnused.rows).kept, m.dropUnused.labels⟩ S :=
    hits_of_reindex (fun _ hc => mem_columns.mp (List.mem_filter.mp hc).1) hS
  obtain ⟨hscan, rfl⟩ := of_extractMandatory_eq_ok hok
  refine (hits_dropUnused h.inBounds).mp fun r hr => ?_
  rcases MandatoryScan.kept_or_forced hscan r hr with hr | ⟨c, hc, hcr⟩
  · exact hrest r hr
  · obtain ⟨l, hl⟩ := exists_label hused.inBounds hr hcr
    exact ⟨l, hlabels l (mem_labelsAt.mpr ⟨c, hc, hl⟩), mem_rowLabels.mpr ⟨c, hcr, hl⟩⟩

/-- A set which hits the rows that an operation leaves, and has the labels which it returns, hits
    the rows from before. -/
theorem hits_of_perform? (h : m.WellFormed) {op : Operation} {labels : List L}
    {next : CoverMatrix L} (hop : m.perform? op = some (.ok labels, next)) {S : Finset L}
    (hlabels : ∀ l ∈ labels, l ∈ S) (hS : next.Hits S) : m.Hits S := by
  cases op with
  | reduce =>
    obtain ⟨_, rfl⟩ := Prod.mk.inj (Option.some.inj hop)
    exact hits_reduce.mp hS
  | sortColumns =>
    obtain ⟨_, rfl⟩ := Prod.mk.inj (Option.some.inj hop)
    exact (hits_sortColumns h.inBounds).mp hS
  | removeColumn c =>
    obtain ⟨_, hremoved, heq⟩ := Option.map_eq_some_iff.mp hop
    obtain ⟨_, _, rfl⟩ := Option.map_eq_some_iff.mp hremoved
    obtain ⟨_, rfl⟩ := Prod.mk.inj heq
    exact hits_of_reindex (fun _ hc => mem_columns.mp (List.mem_filter.mp hc).1) hS
  | extractMandatory =>
    have hextract : m.extractMandatory = (.ok labels, next) := Option.some.inj hop
    refine hits_of_extractMandatory h (congrArg Prod.fst hextract) hlabels ?_
    rwa [hextract]

/-! ## Series of operations -/

theorem hits_of_run (h : m.WellFormed) {ops : List Operation} {returned : List (List L)}
    {last : CoverMatrix L} (hrun : m.run ops = some (returned.map .ok, last)) {S : Finset L}
    (hreturned : ∀ l ∈ returned.flatten, l ∈ S) (hS : last.Hits S) : m.Hits S := by
  induction ops generalizing m returned with
  | nil =>
    obtain ⟨_, rfl⟩ := Prod.mk.inj (Option.some.inj hrun)
    exact hS
  | cons op ops ih =>
    obtain ⟨_, next, _, hop, hnext, hresults⟩ := run_cons_eq_some hrun
    obtain ⟨labels, later, rfl, rfl, rfl⟩ := List.map_eq_cons_iff.mp hresults
    rw [List.flatten_cons, List.forall_mem_append] at hreturned
    obtain ⟨hlabels, hlater⟩ := hreturned
    exact hits_of_perform? h hop hlabels
      (ih (perform?_derivedFrom h hop).wellFormed hnext hlater)

/-- The labels which a series of operations returns are labels of the first matrix. -/
theorem returned_mem_labels (h : m.WellFormed) {ops : List Operation} {returned : List (List L)}
    {last : CoverMatrix L} (hrun : m.run ops = some (returned.map .ok, last)) :
    ∀ l ∈ returned.flatten, l ∈ m.labels := by
  induction ops generalizing m returned with
  | nil =>
    obtain ⟨hnil, _⟩ := Prod.mk.inj (Option.some.inj hrun)
    rw [List.map_eq_nil_iff.mp hnil.symm]
    exact fun _ hl => absurd hl List.not_mem_nil
  | cons op ops ih =>
    obtain ⟨_, next, _, hop, hnext, hresults⟩ := run_cons_eq_some hrun
    obtain ⟨labels, later, rfl, rfl, rfl⟩ := List.map_eq_cons_iff.mp hresults
    have hderived : m.DerivedFrom next := perform?_derivedFrom h hop
    obtain ⟨_, _, hperform, _, hreturned⟩ := perform?_spec h (accepts_of_perform?_eq_some hop)
    obtain ⟨rfl, _⟩ := Prod.mk.inj (Option.some.inj (hop.symm.trans hperform))
    rw [List.flatten_cons, List.forall_mem_append]
    exact ⟨fun l hl => (hreturned labels rfl l hl).1,
      fun l hl => hderived.labels l (ih hderived.wellFormed hnext l hl)⟩

/-- Only the removal of a column can be refused. -/
theorem exists_run {ops : List Operation} (hops : ∀ c, .removeColumn c ∉ ops) :
    ∃ results last, m.run ops = some (results, last) := by
  induction ops generalizing m with
  | nil => exact ⟨_, _, rfl⟩
  | cons op ops ih =>
    obtain ⟨result, next, hop⟩ : ∃ result next, m.perform? op = some (result, next) := by
      cases op with
      | removeColumn c => exact absurd List.mem_cons_self (hops c)
      | _ => exact ⟨_, _, rfl⟩
    obtain ⟨results, last, hrun⟩ :=
      @ih next fun c hc => hops c (List.mem_cons_of_mem op hc)
    exact ⟨result :: results, last, by simp [run, hop, hrun]⟩

end CoverMatrix

/-- Any series of reductions goes through. If no extraction fails, the labels which they return,
    together with those of any cover of the last matrix, are the labels of a cover of the first
    one. -/
theorem reductions_keep_covers {L : Type} {first : CoverMatrix L} (hbounds : first.InBounds)
    (hnodup : first.labels.Nodup) {ops : List Operation} (hops : ∀ c, .removeColumn c ∉ ops) :
    ∃ results last, first.run ops = some (results, last) ∧
      InPlace.run first ops = some (results, last) ∧
      ∀ returned : List (List L), results = returned.map .ok →
        ∀ cols, last.isCoveredBy cols = true →
          ∃ sel, (∀ c ∈ sel, c < first.labels.length) ∧
            first.labelsAt sel = returned.flatten ++ last.labelsAt cols ∧
            first.isCoveredBy sel = true := by
  classical
  have hfirst : first.WellFormed := ⟨hbounds, hnodup⟩
  obtain ⟨results, last, hrun⟩ := CoverMatrix.exists_run (m := first) hops
  refine ⟨results, last, hrun, by rw [InPlace.run_refines hfirst, hrun], ?_⟩
  intro returned hok cols hcols
  subst hok
  have hlast := CoverMatrix.run_derivedFrom hfirst hrun
  -- all labels are labels of the first matrix, so that they stand for a selection of its columns
  have hlabels : ∀ l ∈ returned.flatten ++ last.labelsAt cols, l ∈ first.labels := by
    intro l hl
    rcases List.mem_append.mp hl with hl | hl
    · exact CoverMatrix.returned_mem_labels hfirst hrun l hl
    · exact hlast.labels l (lookup_subset hl)
  obtain ⟨sel, hsel, hlookup⟩ := exists_lookup_eq hlabels
  have heq : first.labelsAt sel = returned.flatten ++ last.labelsAt cols := hlookup
  refine ⟨sel, hsel, heq, ?_⟩
  rw [CoverMatrix.isCoveredBy_iff_hits hfirst, heq]
  refine CoverMatrix.hits_of_run hfirst hrun (fun l hl => ?_) ?_
  · exact List.mem_toFinset.mpr (List.mem_append_left _ hl)
  · refine ((CoverMatrix.isCoveredBy_iff_hits hlast.wellFormed).mp hcols).mono ?_
    rw [List.toFinset_append]
    exact Finset.subset_union_right

/-- Without the removal of dominated rows, the extraction selects `b` for the first row, although
    the third one has it as well; the three rows which stay are left with the same columns. -/
theorem reductions_keep_covers_dominated :
    let first : CoverMatrix Char :=
      ⟨[.ofList [0, 1], .ofList [0], .ofList [1, 2, 3], .ofList [2, 3], .ofList [2, 3]],
        ['a', 'b', 'c', 'd']⟩
    let ops : List Operation := [.extractMandatory, .reduce, .sortColumns, .extractMandatory]
    first.InBounds ∧ first.labels.Nodup ∧ (∀ c, .removeColumn c ∉ ops) ∧
      ∃ results last, first.run ops = some (results, last) ∧
        InPlace.run first ops = some (results, last) ∧
        results = [.ok ['a', 'b'], .ok [], .ok [], .ok []] ∧ last.isCoveredBy [1] = true ∧
        ∃ sel, (∀ c ∈ sel, c < first.labels.length) ∧
          first.labelsAt sel = ['a', 'b'] ++ last.labelsAt [1] ∧ first.isCoveredBy sel = true := by
  intro first ops
  have hbounds : first.InBounds := by decide
  have hnodup : first.labels.Nodup := by decide
  have hops : ∀ c, .removeColumn c ∉ ops := by simp [ops]
  obtain ⟨results, last, hrun, hinPlace, hkeep⟩ := reductions_keep_covers hbounds hnodup hops
  have heval : first.run ops =
      some ([['a', 'b'], [], [], []].map .ok, ⟨[.ofList [0, 1]], ['c', 'd']⟩) := by
    decide +kernel
  obtain ⟨rfl, rfl⟩ := Prod.mk.inj (Option.some.inj (hrun.symm.trans heval))
  exact ⟨hbounds, hnodup, hops, _, _, hrun, hinPlace, rfl, by decide,
    hkeep _ rfl [1] (by decide)⟩

/-- The three reductions in a row fail exactly if some row has none of the columns. Else the
    minimal covers of the matrix are those of the rest, each with the labels which the extraction
    returned; none of them is listed twice, and no label comes both from the extraction and from the
    cover of the rest. -/
theorem reduced_minimal_covers {L : Type} [DecidableEq L] {m : CoverMatrix L}
    (hbounds : m.InBounds) (hnodup : m.labels.Nodup) :
    ∃ result rest,
      m.run [.reduce, .sortColumns, .extractMandatory] = some ([.ok [], .ok [], result], rest) ∧
      InPlace.run m [.reduce, .sortColumns, .extractMandatory] =
        some ([.ok [], .ok [], result], rest) ∧
      (∀ d, result = .error d ↔
        d = .rowWithoutColumn ∧ ∃ r ∈ m.rows, ∀ c < m.labels.length, c ∉ r) ∧
      ∀ forced, result = .ok forced →
        ∃ covers, rest.minimalCovers = .ok covers ∧
          (∀ C ∈ covers, (forced ++ C).Nodup) ∧
          (∀ S : Finset L, m.IsMinimalCover S ↔ ∃ C ∈ covers, (forced ++ C).toFinset = S) ∧
          (covers.map fun C => (forced ++ C).toFinset).Nodup := by
  have hm : m.WellFormed := ⟨hbounds, hnodup⟩
  have hrun : m.run [.reduce, .sortColumns, .extractMandatory] =
      some ([.ok [], .ok [], m.reduce.sortColumns.extractMandatory.1],
        m.reduce.sortColumns.extractMandatory.2) := rfl
  refine ⟨_, _, hrun, by rw [InPlace.run_refines hm, hrun], ?_⟩
  rw [← CoverMatrix.not_isCoveredBy_columns_iff, CoverMatrix.isCoveredBy_columns_iff hbounds]
  by_cases hcov : m.Coverable
  · obtain ⟨forced, rest, covers, hsimp, _, hcovers, hlists⟩ :=
      CoverMatrix.simplify_minimalCovers_spec hm hcov
    rw [CoverMatrix.simplify_eq_ok_iff.mp hsimp]
    refine ⟨fun d => by simp [hcov], fun labels hlabels => ?_⟩
    obtain rfl : forced = labels := Except.ok.inj hlabels
    refine ⟨covers, hcovers, fun C hC => hlists.nodup _ (List.mem_map_of_mem hC), fun S => ?_, ?_⟩
    · simp only [hlists.isMinimalCover_iff, List.mem_map, exists_exists_and_eq_and]
    · have hdistinct := hlists.distinct
      rwa [List.map_map] at hdistinct
  · rw [CoverMatrix.simplify_eq_error_iff.mp (CoverMatrix.simplify_eq_error hcov)]
    refine ⟨fun d => ?_, fun forced hok => by cases hok⟩
    rw [Except.error.injEq]
    exact ⟨fun heq => ⟨heq.symm, hcov⟩, fun heq => heq.1.symm⟩

/-- One row is dominated, one forces the column of `e`, and the rest has three minimal covers. -/
theorem reduced_minimal_covers_tied :
    let m : CoverMatrix Char :=
      ⟨[.ofList [0, 1], .ofList [1, 2], .ofList [0, 1, 3], .ofList [4], .ofList [2, 3]],
        ['a', 'b', 'c', 'd', 'e']⟩
    m.InBounds ∧ m.labels.Nodup ∧
      ∃ rest covers,
        m.run [.reduce, .sortColumns, .extractMandatory] =
          some ([.ok [], .ok [], .ok ['e']], rest) ∧
        InPlace.run m [.reduce, .sortColumns, .extractMandatory] =
          some ([.ok [], .ok [], .ok ['e']], rest) ∧
        rest.minimalCovers = .ok covers ∧ covers.length = 3 ∧
        (∀ C ∈ covers, (['e'] ++ C).Nodup) ∧
        (∀ S : Finset Char, m.IsMinimalCover S ↔ ∃ C ∈ covers, (['e'] ++ C).toFinset = S) ∧
        (covers.map fun C => (['e'] ++ C).toFinset).Nodup := by
  intro m
  have hbounds : m.InBounds := by decide
  have hnodup : m.labels.Nodup := by decide
  obtain ⟨result, rest, hrun, hinPlace, _, hcovers⟩ := reduced_minimal_covers hbounds hnodup
  have heval : m.run [.reduce, .sortColumns, .extractMandatory] =
      some ([.ok [], .ok [], .ok ['e']],
        ⟨[.ofList [1, 3], .ofList [0, 1], .ofList [0, 2]], ['b', 'c', 'a', 'd']⟩) := by
    decide +kernel
  obtain ⟨hresult, rfl⟩ := Prod.mk.inj (Option.some.inj (hrun.symm.trans heval))
  obtain rfl : result = .ok ['e'] := by simpa using hresult
  obtain ⟨covers, hok, hspec⟩ := hcovers _ rfl
  have hlength : covers.length = 3 := by
    have hthree : ((⟨[.ofList [1, 3], .ofList [0, 1], .ofList [0, 2]], ['b', 'c', 'a', 'd']⟩ :
        CoverMatrix Char).minimalCovers.map List.length).toOption = some 3 := by decide +kernel
    rw [hok] at hthree
    exact Option.some.inj hthree
  exact ⟨hbounds, hnodup, _, covers, hrun, hinPlace, hok, hlength, hspec⟩

end TwoLevel
