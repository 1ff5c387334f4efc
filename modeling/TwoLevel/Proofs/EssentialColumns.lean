/-
  Columns which belong to every cover.

  Model. `IsEssential m c`: every list of columns which covers `m` has `c`. In a matrix with
  distinct labels this is a property of the label of `c` (`isEssential_iff`).

  On a matrix without dominated rows one extraction selects all essential columns and no other one
  (`Extracted.mem_forced_iff`). What it leaves is settled (`Settled`): every row has several
  columns and every column is in a row, so that a second extraction has nothing to do
  (`extractMandatory_of_settled`). The removal of dominated rows and the sort of the columns keep
  the covers (`run_reductions`), hence the first matrix may have dominated rows
  (`one_extraction_suffices`).
-/
import TwoLevel.Proofs.MatrixHistory

namespace TwoLevel

namespace CoverMatrix

variable {L : Type} {m : CoverMatrix L}

/-! ## Essential columns -/

/-- Every list of columns which covers the matrix has the column. -/
def IsEssential (m : CoverMatrix L) (c : Nat) : Prop :=
  ∀ sel : List Nat, m.isCoveredBy sel = true → c ∈ sel

/-- A column is essential if its label is in every set which hits the rows. -/
theorem isEssential_iff (h : m.WellFormed) {c : Nat} {l : L} (hl : m.labels[c]? = some l) :
    m.IsEssential c ↔ ∀ S : Finset L, m.Hits S → l ∈ S := by
  classical
  constructor
  · intro hc S hS
    have hcover : m.isCoveredBy (m.columnsOf (S.filter (· ∈ m.labels))) = true := by
      rw [isCoveredBy_iff_hits h, labelsAt_columnsOf fun _ hk => (Finset.mem_filter.mp hk).2]
      exact hS.filter_labels
    obtain ⟨k, hk, hck⟩ := mem_columnsOf.mp (hc _ hcover)
    obtain rfl : l = k := Option.some.inj (hl.symm.trans hck)
    exact (Finset.mem_filter.mp hk).1
  · intro hS sel hsel
    have hmem := hS _ ((isCoveredBy_iff_hits h).mp hsel)
    obtain ⟨d, hd, hdl⟩ := mem_labelsAt.mp (List.mem_toFinset.mp hmem)
    exact position_unique h.nodup hl hdl ▸ hd

/-- A row with several columns has a label other than any given one. -/
theorem exists_mem_rowLabels_ne (h : m.WellFormed) {r : Row} (hr : r ∈ m.rows)
    (hsize : 2 ≤ r.size) (l : L) : ∃ k ∈ m.rowLabels r, k ≠ l := by
  obtain ⟨c, hc, d, hd, hne⟩ : ∃ c ∈ r, ∃ d ∈ r, c ≠ d := by
    match hcols : r.columns with
    | [] => simp [Row.size, hcols] at hsize
    | [c] => simp [Row.size, hcols] at hsize
    | c :: d :: cs =>
      have hlt : c < d := (List.pairwise_cons.mp (hcols ▸ r.ascending)).1 d List.mem_cons_self
      exact ⟨c, by simp [Row.mem_def, hcols], d, by simp [Row.mem_def, hcols], Nat.ne_of_lt hlt⟩
  obtain ⟨k, hk⟩ := exists_label h.inBounds hr hc
  obtain ⟨j, hj⟩ := exists_label h.inBounds hr hd
  by_cases heq : k = l
  · refine ⟨j, mem_rowLabels.mpr ⟨d, hd, hj⟩, fun hjl => hne ?_⟩
    exact position_unique h.nodup hk (by rw [hj, hjl, heq])
  · exact ⟨k, mem_rowLabels.mpr ⟨c, hc, hk⟩, heq⟩

/-- No label but the forced ones is in every set which hits the rows: what is left can be hit
    without it. -/
theorem Extracted.mem_forced_iff {forced : List L} {rest : CoverMatrix L}
    (h : m.Extracted forced rest) {l : L} :
    l ∈ forced ↔ ∀ S : Finset L, m.Hits S → l ∈ S := by
  classical
  constructor
  · intro hl S hS
    exact ((h.hits S).mp hS).1 l hl
  · intro hS
    by_contra hl
    have hhits : m.Hits (forced.toFinset ∪ rest.labels.toFinset.erase l) := by
      refine h.hits_union fun r hr => ?_
      obtain ⟨k, hk, hne⟩ := exists_mem_rowLabels_ne h.wellFormed hr (h.several r hr) l
      exact ⟨k, by simp [hne, mem_labels_of_mem_rowLabels hk], hk⟩
    have hmem := hS _ hhits
    simp [hl] at hmem

/-! ## Reductions which keep the covers -/

/-- Any series of removals of dominated rows and sorts of the columns keeps the covers; no row
    includes another from the first removal on. -/
theorem run_reductions (h : m.WellFormed) {ops : List Operation}
    (hops : ∀ op ∈ ops, op = .reduce ∨ op = .sortColumns) :
    ∃ last, m.run ops = some (List.replicate ops.length (.ok []), last) ∧ m.SameCovers last ∧
      (m.Antichain ∨ .reduce ∈ ops → last.Antichain) := by
  induction ops generalizing m with
  | nil => exact ⟨m, rfl, sameCovers_refl h, fun hm => hm.resolve_right List.not_mem_nil⟩
  | cons op ops ih =>
    rw [List.forall_mem_cons] at hops
    obtain ⟨next, hop, hnext, hanti⟩ : ∃ next, m.perform? op = some (.ok [], next) ∧
        m.SameCovers next ∧ (m.Antichain ∨ .reduce = op → next.Antichain) := by
      rcases hops.1 with rfl | rfl
      · exact ⟨_, rfl, sameCovers_reduce h, fun _ => m.reduce_antichain⟩
      · refine ⟨_, rfl, sameCovers_sortColumns h, fun hm => ?_⟩
        exact sortColumns_antichain h.inBounds (hm.resolve_right (by simp))
    obtain ⟨last, hrun, hlast, hlastAnti⟩ := ih hnext.wellFormed hops.2
    refine ⟨last, by simp [run, hop, hrun, List.replicate_succ], hnext.trans hlast, fun hm => ?_⟩
    apply hlastAnti
    rcases hm with hm | hm
    · exact Or.inl (hanti (Or.inl hm))
    · rcases List.mem_cons.mp hm with hm | hm
      · exact Or.inl (hanti (Or.inr hm))
      · exact Or.inr hm

/-! ## What an extraction leaves -/

/-- Every row has several columns, and every column is in a row. -/
structure Settled (m : CoverMatrix L) : Prop where
  several : ∀ r ∈ m.rows, 2 ≤ r.size
  used : ∀ c < m.labels.length, ∃ r ∈ m.rows, c ∈ r

theorem Settled.labels_eq_nil_iff (h : m.Settled) (hbounds : m.InBounds) :
    m.labels = [] ↔ m.rows = [] := by
  constructor
  · intro hlabels
    refine List.eq_nil_iff_forall_not_mem.mpr fun r hr => ?_
    have hpos : 0 < r.columns.length := by
      have hsize : 2 ≤ r.columns.length := h.several r hr
      omega
    obtain ⟨c, hc⟩ := List.exists_mem_of_length_pos hpos
    have hlt : c < m.labels.length := hbounds r hr c hc
    simp [hlabels] at hlt
  · intro hrows
    by_contra hne
    obtain ⟨r, hr, _⟩ := h.used 0 (List.length_pos_iff.mpr hne)
    simp [hrows] at hr

theorem Settled.dropUnused_eq (h : m.Settled) (hbounds : m.InBounds) : m.dropUnused = m := by
  have hused : m.usedColumns = m.columns := by
    refine List.filter_eq_self.mpr fun c hc => ?_
    obtain ⟨r, hr, hcr⟩ := h.used c (mem_columns.mp hc)
    exact List.any_eq_true.mpr ⟨r, hr, Row.contains_iff.mpr hcr⟩
  have hdrop : m.dropUnused = m.reindex m.usedColumns := rfl
  rw [hdrop, hused, reindex_columns hbounds]

/-- A further extraction finds nothing. -/
theorem extractMandatory_of_settled (h : m.Settled) (hbounds : m.InBounds) :
    m.extractMandatory = (.ok [], m) := by
  have hsingle : ∀ r ∈ m.rows, r.isSingle = false := by
    intro r hr
    have hsize := h.several r hr
    have hne : r.size ≠ 1 := by omega
    simpa [Row.isSingle] using hne
  have hcov : m.Coverable := by
    intro r hr
    have hsize := h.several r hr
    exact Row.columns_ne_nil_iff.mpr (by omega)
  have hspares : m.rows.Pairwise Row.Spares := by
    refine List.pairwise_of_forall_mem_list fun r _ s hs hsingleton => ?_
    simp [hsingle s hs] at hsingleton
  have hnone : singleColumns m.rows = [] := by
    refine List.eq_nil_iff_forall_not_mem.mpr fun c hc => ?_
    obtain ⟨r, hr, hrsingle, _⟩ := mem_singleColumns.mp hc
    simp [hsingle r hr] at hrsingle
  have hall : otherRows m.rows = m.rows :=
    List.filter_eq_self.mpr fun r hr => by simp [hsingle r hr]
  have hscan : MandatoryScan.ofRows m.rows = ⟨[], m.rows, false⟩ := by
    rw [MandatoryScan.ofRows_eq hspares hcov, hnone, hall]
  have hkept : m.reindex (m.columns.filter fun c => decide (c ∉ ([] : List Nat))) = m := by
    rw [List.filter_eq_self.mpr fun c _ => by simp, reindex_columns hbounds]
  unfold extractMandatory
  simp only [h.dropUnused_eq hbounds, hscan]
  exact Prod.ext rfl hkept

/-- If every column which is kept was in a row, it still is. -/
theorem exists_row_of_reindex {order : List Nat} (horder : ∀ c ∈ order, c < m.labels.length)
    (hused : ∀ c ∈ order, ∃ r ∈ m.rows, c ∈ r) {k : Nat}
    (hk : k < (m.reindex order).labels.length) : ∃ r ∈ (m.reindex order).rows, k ∈ r := by
  rw [length_reindex_labels horder] at hk
  obtain ⟨c, hc⟩ := Option.isSome_iff_exists.mp (isSome_getElem? hk)
  obtain ⟨r, hr, hcr⟩ := hused c (List.mem_of_getElem? hc)
  exact ⟨_, List.mem_map_of_mem hr, mem_positions_contains.mpr ⟨c, hc, hcr⟩⟩

theorem dropUnused_used : ∀ c < m.dropUnused.labels.length, ∃ r ∈ m.dropUnused.rows, c ∈ r :=
  fun _ hc => exists_row_of_reindex (fun _ => lt_of_mem_usedColumns)
    (fun _ hd => (mem_usedColumns.mp hd).2) hc

/-- A column which is not selected stands in a row with several columns. -/
theorem withoutSingles_used (hused : ∀ c < m.labels.length, ∃ r ∈ m.rows, c ∈ r) :
    ∀ c < m.withoutSingles.labels.length, ∃ r ∈ m.withoutSingles.rows, c ∈ r := by
  intro k hk
  refine exists_row_of_reindex (fun c hc => mem_columns.mp (List.mem_filter.mp hc).1) ?_ hk
  intro c hc
  obtain ⟨hcolumn, hfree⟩ := List.mem_filter.mp hc
  obtain ⟨r, hr, hcr⟩ := hused c (mem_columns.mp hcolumn)
  have hother : r.isSingle = false := by
    by_contra hsingle
    exact of_decide_eq_true hfree
      (mem_singleColumns.mpr ⟨r, hr, Bool.eq_true_of_not_eq_false hsingle, hcr⟩)
  exact ⟨r, mem_otherRows.mpr ⟨hr, hother⟩, hcr⟩

theorem withoutSingles_antichain (h : m.WellFormed) (hanti : m.Antichain) :
    m.withoutSingles.Antichain :=
  reindex_antichain (m := ⟨otherRows m.rows, m.labels⟩) (keeps_otherRows h hanti)
    (List.Pairwise.sublist List.filter_sublist hanti)

/-- On a matrix without dominated and without empty rows, an extraction selects the essential
    columns, and what it leaves is settled. -/
theorem extractMandatory_settles (h : m.WellFormed) (hanti : m.Antichain) (hcov : m.Coverable) :
    ∃ forced rest, m.extractMandatory = (.ok forced, rest) ∧ m.Extracted forced rest ∧
      rest.Antichain ∧ rest.Settled := by
  obtain ⟨forced, heq, hext⟩ := extractMandatory_spec h hanti hcov
  refine ⟨forced, _, heq, hext, ?_, ⟨hext.several, withoutSingles_used dropUnused_used⟩⟩
  exact withoutSingles_antichain (dropUnused_wellFormed h) (dropUnused_antichain h.inBounds hanti)

end CoverMatrix

/-- Once the dominated rows are removed, and whether or not the columns are sorted, one extraction
    returns the labels of exactly those columns which belong to every cover of the first matrix,
    each once. Every row which is left has several columns, every column which is left is in a row,
    no row includes another, and a second extraction returns nothing and changes nothing. -/
theorem one_extraction_suffices {L : Type} {m : CoverMatrix L} (hbounds : m.InBounds)
    (hnodup : m.labels.Nodup) (hcov : ∀ r ∈ m.rows, ∃ c, c ∈ r) {ops : List Operation}
    (hops : ∀ op ∈ ops, op = .reduce ∨ op = .sortColumns) (hreduce : .reduce ∈ ops) :
    ∃ reduced forced rest,
      m.run ops = some (List.replicate ops.length (.ok []), reduced) ∧
      InPlace.run m ops = some (List.replicate ops.length (.ok []), reduced) ∧
      reduced.extractMandatory = (.ok forced, rest) ∧
      InPlace.extractMandatory reduced = some (.ok forced, rest) ∧
      forced.Nodup ∧
      (∀ l, l ∈ forced ↔ ∃ c, m.labels[c]? = some l ∧ m.IsEssential c) ∧
      (∀ r ∈ rest.rows, 2 ≤ r.size) ∧
      (∀ c < rest.labels.length, ∃ r ∈ rest.rows, c ∈ r) ∧
      rest.rows.Pairwise Incomparable ∧
      (rest.labels = [] ↔ rest.rows = []) ∧
      rest.extractMandatory = (.ok [], rest) ∧
      InPlace.extractMandatory rest = some (.ok [], rest) := by
  have hm : m.WellFormed := ⟨hbounds, hnodup⟩
  have hcoverable : m.Coverable := by
    intro r hr
    obtain ⟨c, hc⟩ := hcov r hr
    exact List.ne_nil_of_mem hc
  obtain ⟨reduced, hrun, hsame, hanti⟩ := CoverMatrix.run_reductions hm hops
  obtain ⟨forced, rest, hextract, hext, hrestAnti, hsettled⟩ :=
    CoverMatrix.extractMandatory_settles hsame.wellFormed (hanti (Or.inr hreduce))
      (hsame.coverable hcoverable)
  have hrest : rest.InBounds := hext.wellFormed.inBounds
  have hagain := CoverMatrix.extractMandatory_of_settled hsettled hrest
  refine ⟨reduced, forced, rest, hrun, by rw [InPlace.run_refines hm, hrun], hextract, ?_,
    hext.nodup, fun l => ?_, hsettled.several, hsettled.used, hrestAnti,
    hsettled.labels_eq_nil_iff hrest, hagain, ?_⟩
  · rw [InPlace.extractMandatory_refines hsame.wellFormed.inBounds, hextract]
  · have hforced : l ∈ forced ↔ ∀ S : Finset L, m.Hits S → l ∈ S := by
      rw [hext.mem_forced_iff]
      exact forall_congr' fun S => imp_congr_left (hsame.hits S)
    constructor
    · intro hl
      have hlabel : l ∈ m.labels := (hsame.labels l).mp (hext.forced_labels l hl)
      obtain ⟨c, hc⟩ := List.mem_iff_getElem?.mp hlabel
      exact ⟨c, hc, (CoverMatrix.isEssential_iff hm hc).mpr (hforced.mp hl)⟩
    · intro hex
      obtain ⟨c, hc, hessential⟩ := hex
      exact hforced.mpr ((CoverMatrix.isEssential_iff hm hc).mp hessential)
  · rw [InPlace.extractMandatory_refines hrest, hagain]

/-- Two columns are essential, one is in no row, and three rows are left. -/
theorem one_extraction_suffices_cyclic :
    let m : CoverMatrix Char :=
      ⟨[.ofList [0, 1], .ofList [1, 2], .ofList [0, 2], .ofList [3], .ofList [0, 3], .ofList [5]],
        ['a', 'b', 'c', 'd', 'e', 'f']⟩
    let ops : List Operation := [.reduce, .sortColumns]
    let rest : CoverMatrix Char :=
      ⟨[.ofList [1, 2], .ofList [0, 2], .ofList [0, 1]], ['a', 'b', 'c']⟩
    m.InBounds ∧ m.labels.Nodup ∧ (∀ r ∈ m.rows, ∃ c, c ∈ r) ∧
      (∀ op ∈ ops, op = .reduce ∨ op = .sortColumns) ∧ .reduce ∈ ops ∧
      ∃ reduced, m.run ops = some ([.ok [], .ok []], reduced) ∧
        InPlace.extractMandatory reduced = some (.ok ['d', 'f'], rest) ∧
        (∀ l, l ∈ ['d', 'f'] ↔ ∃ c, m.labels[c]? = some l ∧ m.IsEssential c) ∧
        rest.rows.Pairwise Incomparable ∧
        InPlace.extractMandatory rest = some (.ok [], rest) := by
  intro m ops rest
  have hbounds : m.InBounds := by decide
  have hnodup : m.labels.Nodup := by decide
  have hcov : ∀ r ∈ m.rows, ∃ c, c ∈ r := by
    intro r hr
    have hne : ∀ q ∈ m.rows, q.columns ≠ [] := by decide
    exact List.exists_mem_of_ne_nil _ (hne r hr)
  have hops : ∀ op ∈ ops, op = .reduce ∨ op = .sortColumns := by decide
  have hreduce : .reduce ∈ ops := by decide
  obtain ⟨reduced, forced, left, hrun, _, hextract, hinPlace, _, hforced, _, _, hanti, _, _,
    hagain⟩ := one_extraction_suffices hbounds hnodup hcov hops hreduce
  have heval : (m.run ops).map (·.2.extractMandatory) = some (.ok ['d', 'f'], rest) := by
    decide +kernel
  rw [hrun] at heval
  obtain ⟨hok, rfl⟩ := Prod.mk.inj (hextract.symm.trans (Option.some.inj heval))
  obtain rfl := Except.ok.inj hok
  exact ⟨hbounds, hnodup, hcov, hops, hreduce, reduced, hrun, hinPlace, hforced, hanti, hagain⟩

end TwoLevel
