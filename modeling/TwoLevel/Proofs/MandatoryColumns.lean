/-
  Mandatory columns of a matrix whose rows are pairwise incomparable.

  A row with a single column is then the only row with this column: any other row with it would
  include the first one. So a visit never meets a column selected before, and the scan of the rows
  has a closed form (`MandatoryScan.ofRows_eq`): it selects the columns of the single rows and
  keeps the other rows. For the closed form alone it is enough that no row has the column of a
  single row after it (`Row.Spares`). From it, `simplify_spec`: if no row is empty, `simplify`
  returns labels and a matrix such that a set hits the rows of the first matrix exactly if it has
  all these labels and hits the rows which are left. With an empty row it fails
  (`simplify_eq_error`). Its first two steps keep all covers (`SameCovers`).
-/
import TwoLevel.Cover.Simplification
import TwoLevel.Proofs.Covers

namespace TwoLevel

/-! ## Rows with a single column -/

/-- The row has exactly one column. -/
def Row.isSingle (r : Row) : Bool :=
  r.size == 1

theorem Row.columns_eq_of_isSingle {r : Row} (h : r.isSingle = true) {c : Nat} (hc : c ∈ r) :
    r.columns = [c] := by
  obtain ⟨d, hd⟩ := List.length_eq_one_iff.mp (beq_iff_eq.mp h)
  rw [Row.mem_def, hd, List.mem_singleton] at hc
  rw [hd, hc]

/-- A row which has the column of a single row includes it. -/
theorem Row.subset_of_isSingle {r s : Row} (h : r.isSingle = true) {c : Nat} (hr : c ∈ r)
    (hs : c ∈ s) : r.subset s = true := by
  refine Row.subset_iff.mpr fun d hd => ?_
  rw [Row.mem_def, Row.columns_eq_of_isSingle h hr, List.mem_singleton] at hd
  exact hd ▸ hs

/-- If `s` has a single column, `r` does not have it. -/
def Row.Spares (r s : Row) : Prop :=
  s.isSingle = true → ∀ c ∈ s, c ∉ r

instance (r s : Row) : Decidable (r.Spares s) :=
  inferInstanceAs (Decidable (s.isSingle = true → ∀ c ∈ s.columns, c ∉ r))

theorem Incomparable.spares {r s : Row} (h : Incomparable r s) : r.Spares s :=
  fun hsingle _ hs hr => h.2 (Row.subset_of_isSingle hsingle hs hr)

/-- The columns of the single rows, from the last row to the first. -/
def singleColumns (rows : List Row) : List Nat :=
  (rows.reverse.filter Row.isSingle).flatMap Row.columns

/-- The rows with no or several columns. -/
def otherRows (rows : List Row) : List Row :=
  rows.filter fun r => !r.isSingle

theorem mem_singleColumns {rows : List Row} {c : Nat} :
    c ∈ singleColumns rows ↔ ∃ r ∈ rows, r.isSingle = true ∧ c ∈ r := by
  simp [singleColumns, Row.mem_def, and_assoc]

theorem mem_otherRows {rows : List Row} {r : Row} :
    r ∈ otherRows rows ↔ r ∈ rows ∧ r.isSingle = false := by
  simp [otherRows]

theorem singleColumns_cons (r : Row) (rows : List Row) :
    singleColumns (r :: rows) = singleColumns rows ++ if r.isSingle then r.columns else [] := by
  cases h : r.isSingle <;> simp [singleColumns, h]

/-! ## The scan of the rows -/

theorem not_mem_singleColumns {r : Row} {rows : List Row} (h : ∀ s ∈ rows, r.Spares s)
    {c : Nat} (hc : c ∈ r) : c ∉ singleColumns rows := by
  intro hmem
  obtain ⟨s, hs, hsingle, hcs⟩ := mem_singleColumns.mp hmem
  exact h s hs hsingle c hcs hc

theorem nodup_singleColumns {rows : List Row} (h : rows.Pairwise Row.Spares) :
    (singleColumns rows).Nodup := by
  induction rows with
  | nil => exact List.nodup_nil
  | cons r rows ih =>
    obtain ⟨hr, hrows⟩ := List.pairwise_cons.mp h
    rw [singleColumns_cons]
    split
    · refine List.nodup_append.mpr ⟨ih hrows, r.nodup_columns, ?_⟩
      intro c hc d hd heq
      subst heq
      exact not_mem_singleColumns hr hd hc
    · simpa using ih hrows

/-- No row is left with the column of a single row. -/
theorem not_mem_singleColumns_of_mem_otherRows {rows : List Row}
    (h : rows.Pairwise Incomparable) {r : Row} (hr : r ∈ otherRows rows) {c : Nat} (hc : c ∈ r) :
    c ∉ singleColumns rows := by
  intro hmem
  obtain ⟨hrows, hother⟩ := mem_otherRows.mp hr
  obtain ⟨s, hs, hsingle, hcs⟩ := mem_singleColumns.mp hmem
  have hne : r ≠ s := fun heq => by simp [heq, hsingle] at hother
  have hsub : s.subset r = true := Row.subset_of_isSingle hsingle hcs hc
  exact (h.forall hrows hs hne).2 hsub

namespace MandatoryScan

theorem ofRows_cons (r : Row) (rows : List Row) : ofRows (r :: rows) = visit r (ofRows rows) :=
  rfl

/-- What one visit can do: fail, if all columns of the row are selected or a visit has failed
    before; select the only column of the row which is not selected yet; or keep the row. -/
theorem visit_cases (row : Row) (s : MandatoryScan) :
    (s.failed = true ∨ ∀ c ∈ row, c ∈ s.forced) ∧
        visit row s = { s with kept := row :: s.kept, failed := true } ∨
      s.failed = false ∧ (∃ c ∈ row, (∀ d ∈ row, d = c ∨ d ∈ s.forced) ∧
        visit row s = { s with forced := s.forced ++ [c] }) ∨
      s.failed = false ∧ visit row s = { s with kept := row :: s.kept } := by
  by_cases hs : s.failed = true
  · exact Or.inl ⟨Or.inl hs, by rw [visit, if_pos hs, ← hs]⟩
  · have hok : s.failed = false := Bool.eq_false_iff.mpr hs
    have hmem : ∀ d ∈ row, d ∈ (row.columns.filter fun c => decide (c ∉ s.forced)) ∨
        d ∈ s.forced := by
      intro d hd
      by_cases hforced : d ∈ s.forced
      · exact Or.inr hforced
      · exact Or.inl (List.mem_filter.mpr ⟨hd, decide_eq_true hforced⟩)
    rw [visit, if_neg hs]
    rcases hfree : row.columns.filter fun c => decide (c ∉ s.forced) with _ | ⟨c, _ | ⟨d, cs⟩⟩
    · rw [hfree] at hmem
      exact Or.inl ⟨Or.inr fun c hc => (hmem c hc).resolve_left List.not_mem_nil, rfl⟩
    · have hc : c ∈ row := (List.mem_filter.mp (hfree ▸ List.mem_singleton_self c)).1
      rw [hfree] at hmem
      refine Or.inr (Or.inl ⟨hok, c, hc, fun d hd => ?_, rfl⟩)
      exact (hmem d hd).imp_left List.mem_singleton.mp
    · exact Or.inr (Or.inr ⟨hok, rfl⟩)

/-- An empty row ends the scan, wherever it stands. -/
theorem failed_of_empty_row {rows : List Row} {r : Row} (hr : r ∈ rows) (h : r.columns = []) :
    (ofRows rows).failed = true := by
  induction rows with
  | nil => cases hr
  | cons q rows ih =>
    rw [ofRows_cons, visit]
    split
    · next hfailed => exact hfailed
    · next hok =>
      rcases List.mem_cons.mp hr with rfl | hr
      · rw [h]
        rfl
      · exact absurd (ih hr) hok

theorem ofRows_eq {rows : List Row} (hspares : rows.Pairwise Row.Spares)
    (hne : ∀ r ∈ rows, r.columns ≠ []) :
    ofRows rows = ⟨singleColumns rows, otherRows rows, false⟩ := by
  induction rows with
  | nil => rfl
  | cons r rows ih =>
    obtain ⟨hr, hrows⟩ := List.pairwise_cons.mp hspares
    have hfree : (r.columns.filter fun c => decide (c ∉ singleColumns rows)) = r.columns :=
      List.filter_eq_self.mpr fun c hc => decide_eq_true (not_mem_singleColumns hr hc)
    rw [ofRows_cons, ih hrows fun s hs => hne s (List.mem_cons_of_mem r hs), singleColumns_cons]
    simp only [visit, Bool.false_eq_true, if_false, hfree]
    match hcols : r.columns with
    | [] => exact absurd hcols (hne r List.mem_cons_self)
    | [c] => simp [otherRows, Row.isSingle, Row.size, hcols]
    | c :: d :: cs => simp [otherRows, Row.isSingle, Row.size, hcols]

end MandatoryScan

/-! ## Rows in new columns -/

namespace Row

variable {order : List Nat} {r s : Row}

theorem positions_subset_iff (hr : ∀ c ∈ r, c ∈ order) :
    (positions r.contains order).subset (positions s.contains order) = true ↔
      r.subset s = true := by
  simp only [subset_iff, CoverMatrix.mem_positions_contains]
  constructor
  · intro h c hc
    obtain ⟨k, hk⟩ := List.mem_iff_getElem?.mp (hr c hc)
    obtain ⟨d, hd, hds⟩ := h k ⟨c, hk, hc⟩
    rw [hk, Option.some_inj] at hd
    exact hd ▸ hds
  · intro h k heq
    obtain ⟨c, hk, hc⟩ := heq
    exact ⟨c, hk, h c hc⟩

theorem positions_incomparable (hr : ∀ c ∈ r, c ∈ order) (hs : ∀ c ∈ s, c ∈ order)
    (h : Incomparable r s) :
    Incomparable (positions r.contains order) (positions s.contains order) :=
  ⟨fun hsub => h.1 ((positions_subset_iff hr).mp hsub),
    fun hsub => h.2 ((positions_subset_iff hs).mp hsub)⟩

theorem size_positions_eq_countP (p : Nat → Bool) (l : List Nat) :
    (positions p l).size = l.countP p := by
  have hfst : l = l.zipIdx.map (·.1) := by simp
  conv_rhs => rw [hfst, List.countP_map, List.countP_eq_length_filter]
  simp [size, positions, Function.comp_def]

/-- The new columns of a row are as many as the old ones. -/
theorem size_positions (hnodup : order.Nodup) (hr : ∀ c ∈ r, c ∈ order) :
    (positions r.contains order).size = r.size := by
  rw [size_positions_eq_countP, List.countP_eq_length_filter]
  have hperm : (order.filter r.contains).Perm r.columns := by
    refine (List.perm_ext_iff_of_nodup (hnodup.filter _) r.nodup_columns).mpr fun c => ?_
    rw [List.mem_filter, contains_iff]
    exact ⟨fun h => h.2, fun h => ⟨hr c h, h⟩⟩
  exact hperm.length_eq

theorem columns_ne_nil_iff : r.columns ≠ [] ↔ 0 < r.size :=
  List.length_pos_iff.symm

end Row

namespace CoverMatrix

variable {L : Type} {m : CoverMatrix L}

/-- What `reduce` establishes: of two rows neither includes the other. -/
def Antichain (m : CoverMatrix L) : Prop :=
  m.rows.Pairwise Incomparable

theorem Antichain.spares (h : m.Antichain) : m.rows.Pairwise Row.Spares :=
  List.Pairwise.imp (fun hrs => hrs.spares) h

/-- Every row has a column. -/
def Coverable (m : CoverMatrix L) : Prop :=
  ∀ r ∈ m.rows, r.columns ≠ []

section Reindex

variable {order : List Nat} (hkeeps : ∀ r ∈ m.rows, ∀ c ∈ r, c ∈ order)

include hkeeps

theorem reindex_antichain (h : m.Antichain) : (m.reindex order).Antichain :=
  List.pairwise_map.mpr <| List.Pairwise.imp_of_mem
    (fun {_ _} hr hs hrs => Row.positions_incomparable (hkeeps _ hr) (hkeeps _ hs) hrs) h

theorem exists_row_of_mem_reindex (hnodup : order.Nodup) {q : Row}
    (hq : q ∈ (m.reindex order).rows) : ∃ r ∈ m.rows, q.size = r.size := by
  obtain ⟨r, hr, rfl⟩ := List.mem_map.mp hq
  exact ⟨r, hr, Row.size_positions hnodup (hkeeps r hr)⟩

theorem reindex_coverable (hnodup : order.Nodup) (h : m.Coverable) :
    (m.reindex order).Coverable := by
  intro q hq
  obtain ⟨r, hr, hsize⟩ := exists_row_of_mem_reindex hkeeps hnodup hq
  rw [Row.columns_ne_nil_iff, hsize]
  exact Row.columns_ne_nil_iff.mp (h r hr)

end Reindex

theorem reduce_coverable (h : m.Coverable) : m.reduce.Coverable :=
  fun r hr => h r (mem_of_mem_reduceDominated hr)

/-! ## Extraction -/

/-- What an extraction leaves of a matrix `m`: labels which are in every set that hits the rows
    of `m`, and a matrix for the rest of such a set. -/
structure Extracted (m : CoverMatrix L) (forced : List L) (rest : CoverMatrix L) : Prop where
  wellFormed : rest.WellFormed
  nodup : forced.Nodup
  forced_labels : ∀ l ∈ forced, l ∈ m.labels
  rest_labels : ∀ l ∈ rest.labels, l ∈ m.labels
  disjoint : ∀ l ∈ forced, l ∉ rest.labels
  hits : ∀ S : Finset L, m.Hits S ↔ (∀ l ∈ forced, l ∈ S) ∧ rest.Hits S
  several : ∀ r ∈ rest.rows, 2 ≤ r.size

theorem Extracted.coverable {forced : List L} {rest : CoverMatrix L}
    (h : m.Extracted forced rest) : rest.Coverable := by
  intro r hr
  have hsize := h.several r hr
  exact Row.columns_ne_nil_iff.mpr (by omega)

/-- The matrix without its single rows and their columns. -/
def withoutSingles (m : CoverMatrix L) : CoverMatrix L :=
  reindex ⟨otherRows m.rows, m.labels⟩
    (m.columns.filter fun c => decide (c ∉ singleColumns m.rows))

theorem extractMandatory_eq (hspares : m.dropUnused.rows.Pairwise Row.Spares)
    (hcov : m.dropUnused.Coverable) :
    m.extractMandatory = (.ok (m.dropUnused.labelsAt (singleColumns m.dropUnused.rows)),
      m.dropUnused.withoutSingles) := by
  simp only [extractMandatory, MandatoryScan.ofRows_eq hspares hcov]
  rfl

/-- An extraction which succeeds returns the labels of the columns that the scan has selected. -/
theorem of_extractMandatory_eq_ok {labels : List L} (hok : m.extractMandatory.1 = .ok labels) :
    (MandatoryScan.ofRows m.dropUnused.rows).failed = false ∧
      labels = m.dropUnused.labelsAt (MandatoryScan.ofRows m.dropUnused.rows).forced := by
  unfold extractMandatory at hok
  dsimp only at hok
  split at hok
  · cases hok
  · next hscan => exact ⟨Bool.eq_false_iff.mpr hscan, (Except.ok.inj hok).symm⟩

section WithoutSingles

variable (h : m.WellFormed) (hanti : m.Antichain)

include h hanti

theorem keeps_otherRows :
    ∀ r ∈ otherRows m.rows, ∀ c ∈ r,
      c ∈ m.columns.filter fun c => decide (c ∉ singleColumns m.rows) := by
  intro r hr c hc
  refine List.mem_filter.mpr ⟨?_, ?_⟩
  · exact mem_columns_of_mem_row h.inBounds (mem_otherRows.mp hr).1 hc
  · exact decide_eq_true (not_mem_singleColumns_of_mem_otherRows hanti hr hc)

theorem hits_withoutSingles {S : Finset L} :
    m.Hits S ↔ (∀ l ∈ m.labelsAt (singleColumns m.rows), l ∈ S) ∧ m.withoutSingles.Hits S := by
  have hrest : m.withoutSingles.Hits S ↔ Hits ⟨otherRows m.rows, m.labels⟩ S :=
    hits_reindex (fun _ hc => mem_columns.mp (List.mem_filter.mp hc).1) (keeps_otherRows h hanti)
  rw [hrest]
  constructor
  · intro hS
    refine ⟨fun l hl => ?_, fun r hr => hS r (mem_otherRows.mp hr).1⟩
    obtain ⟨c, hc, hcl⟩ := mem_labelsAt.mp hl
    obtain ⟨r, hr, hsingle, hcr⟩ := mem_singleColumns.mp hc
    obtain ⟨k, hk, hkr⟩ := hS r hr
    obtain ⟨d, hd, hdk⟩ := mem_rowLabels.mp hkr
    rw [Row.mem_def, Row.columns_eq_of_isSingle hsingle hcr, List.mem_singleton] at hd
    rw [hd, hcl, Option.some_inj] at hdk
    exact hdk ▸ hk
  · intro heq r hr
    obtain ⟨hforced, hS⟩ := heq
    cases hsingle : r.isSingle
    · exact hS r (mem_otherRows.mpr ⟨hr, hsingle⟩)
    · obtain ⟨c, hcols⟩ := List.length_eq_one_iff.mp (beq_iff_eq.mp hsingle)
      have hc : c ∈ r := by rw [Row.mem_def, hcols]; exact List.mem_singleton_self c
      obtain ⟨l, hl⟩ := exists_label h.inBounds hr hc
      refine ⟨l, hforced l ?_, mem_rowLabels.mpr ⟨c, hc, hl⟩⟩
      exact mem_labelsAt.mpr ⟨c, mem_singleColumns.mpr ⟨r, hr, hsingle, hc⟩, hl⟩

theorem withoutSingles_extracted (hcov : m.Coverable) :
    m.Extracted (m.labelsAt (singleColumns m.rows)) m.withoutSingles where
  wellFormed := reindex_wellFormed (fun _ hc => mem_columns.mp (List.mem_filter.mp hc).1)
    ⟨fun r hr => h.inBounds r (mem_otherRows.mp hr).1, h.nodup⟩ (List.nodup_range.filter _)
  nodup := nodup_lookup h.nodup (nodup_singleColumns hanti.spares)
  forced_labels _ hl := lookup_subset hl
  rest_labels _ hl := lookup_subset hl
  disjoint l hl hrest := by
    obtain ⟨c, hc, hcl⟩ := mem_labelsAt.mp hl
    obtain ⟨d, hd, hdl⟩ := mem_lookup.mp hrest
    have heq : c = d := position_unique h.nodup hcl hdl
    exact of_decide_eq_true (List.mem_filter.mp hd).2 (heq ▸ hc)
  hits _ := hits_withoutSingles h hanti
  several q hq := by
    obtain ⟨r, hr, hsize⟩ := exists_row_of_mem_reindex (keeps_otherRows h hanti)
      (List.nodup_range.filter _) hq
    obtain ⟨hrows, hother⟩ := mem_otherRows.mp hr
    have hpos : 0 < r.size := Row.columns_ne_nil_iff.mp (hcov r hrows)
    have hne : r.size ≠ 1 := by simpa [Row.isSingle] using hother
    omega

end WithoutSingles

/-! ## The three reductions in a row -/

theorem Extracted.of_hits_iff {a : CoverMatrix L} {forced : List L} {rest : CoverMatrix L}
    (h : a.Extracted forced rest) (hlabels : ∀ l ∈ a.labels, l ∈ m.labels)
    (hhits : ∀ S : Finset L, a.Hits S ↔ m.Hits S) : m.Extracted forced rest :=
  { h with
    forced_labels := fun l hl => hlabels l (h.forced_labels l hl)
    rest_labels := fun l hl => hlabels l (h.rest_labels l hl)
    hits := fun S => (hhits S).symm.trans (h.hits S) }

theorem dropUnused_antichain (h : m.InBounds) (hanti : m.Antichain) : m.dropUnused.Antichain :=
  reindex_antichain (fun _ hr _ hc => mem_usedColumns_of_mem_row h hr hc) hanti

theorem dropUnused_coverable (h : m.InBounds) (hcov : m.Coverable) : m.dropUnused.Coverable :=
  reindex_coverable (fun _ hr _ hc => mem_usedColumns_of_mem_row h hr hc)
    (List.nodup_range.filter _) hcov

theorem sortColumns_antichain (h : m.InBounds) (hanti : m.Antichain) : m.sortColumns.Antichain :=
  reindex_antichain (fun r hr c hc => mem_weightOrder.mpr (h r hr c hc)) hanti

theorem sortColumns_coverable (h : m.InBounds) (hcov : m.Coverable) : m.sortColumns.Coverable :=
  reindex_coverable (fun r hr c hc => mem_weightOrder.mpr (h r hr c hc))
    (weightOrder_perm.nodup_iff.mpr List.nodup_range) hcov

theorem extractMandatory_spec (h : m.WellFormed) (hanti : m.Antichain) (hcov : m.Coverable) :
    ∃ forced, m.extractMandatory = (.ok forced, m.dropUnused.withoutSingles) ∧
      m.Extracted forced m.dropUnused.withoutSingles := by
  have hd := dropUnused_wellFormed h
  have hdanti := dropUnused_antichain h.inBounds hanti
  have hdcov := dropUnused_coverable h.inBounds hcov
  refine ⟨_, extractMandatory_eq hdanti.spares hdcov, ?_⟩
  exact (withoutSingles_extracted hd hdanti hdcov).of_hits_iff
    (fun _ => mem_labels_of_mem_dropUnused) fun _ => hits_dropUnused h.inBounds

theorem reduce_antichain (m : CoverMatrix L) : m.reduce.Antichain :=
  reduceDominated_antichain m.rows

/-! ## Reductions which keep the covers -/

/-- `n` has the labels of `m`, and the same sets of them hit its rows. -/
structure SameCovers (m n : CoverMatrix L) : Prop where
  wellFormed : n.WellFormed
  labels : ∀ l, l ∈ n.labels ↔ l ∈ m.labels
  hits : ∀ S : Finset L, n.Hits S ↔ m.Hits S
  coverable : m.Coverable → n.Coverable

theorem SameCovers.trans {n k : CoverMatrix L} (h : m.SameCovers n) (hk : n.SameCovers k) :
    m.SameCovers k where
  wellFormed := hk.wellFormed
  labels l := (hk.labels l).trans (h.labels l)
  hits S := (hk.hits S).trans (h.hits S)
  coverable hm := hk.coverable (h.coverable hm)

theorem sameCovers_refl (h : m.WellFormed) : m.SameCovers m :=
  ⟨h, fun _ => Iff.rfl, fun _ => Iff.rfl, id⟩

theorem sameCovers_reduce (h : m.WellFormed) : m.SameCovers m.reduce where
  wellFormed := reduce_wellFormed h
  labels _ := Iff.rfl
  hits _ := hits_reduce
  coverable := reduce_coverable

theorem sameCovers_sortColumns (h : m.WellFormed) : m.SameCovers m.sortColumns where
  wellFormed := sortColumns_wellFormed h
  labels _ := labels_sortColumns_perm.mem_iff
  hits _ := hits_sortColumns h.inBounds
  coverable := sortColumns_coverable h.inBounds

/-! ## Simplification -/

theorem simplify_eq_ok_iff {forced : List L} {rest : CoverMatrix L} :
    m.simplify = .ok (forced, rest) ↔
      m.reduce.sortColumns.extractMandatory = (.ok forced, rest) := by
  unfold simplify
  rcases m.reduce.sortColumns.extractMandatory with ⟨_ | _, _⟩ <;> simp [Except.map]

theorem simplify_eq_error_iff {d : Defect} :
    m.simplify = .error d ↔ m.reduce.sortColumns.extractMandatory.1 = .error d := by
  unfold simplify
  rcases m.reduce.sortColumns.extractMandatory with ⟨_ | _, _⟩ <;> simp [Except.map]

/-- A matrix without empty rows is simplified, and nothing about its covers is lost. -/
theorem simplify_spec (h : m.WellFormed) (hcov : m.Coverable) :
    ∃ forced rest, m.simplify = .ok (forced, rest) ∧ m.Extracted forced rest := by
  have hr := reduce_wellFormed h
  have hsame : m.SameCovers m.reduce.sortColumns :=
    (sameCovers_reduce h).trans (sameCovers_sortColumns hr)
  obtain ⟨forced, heq, hext⟩ := extractMandatory_spec hsame.wellFormed
    (sortColumns_antichain hr.inBounds m.reduce_antichain) (hsame.coverable hcov)
  refine ⟨forced, _, simplify_eq_ok_iff.mpr heq, hext.of_hits_iff ?_ hsame.hits⟩
  exact fun l hl => (hsame.labels l).mp hl

/-! ## Empty rows -/

theorem coverable_of_reindex {order : List Nat} (h : (m.reindex order).Coverable) :
    m.Coverable := by
  intro r hr hempty
  refine h _ (List.mem_map_of_mem hr) (List.eq_nil_iff_forall_not_mem.mpr fun k hk => ?_)
  obtain ⟨c, _, hc⟩ := mem_positions_contains.mp hk
  rw [Row.mem_def, hempty] at hc
  cases hc

/-- An empty row is included by all rows, so that it is not dropped. -/
theorem coverable_of_reduce (h : m.reduce.Coverable) : m.Coverable := by
  intro r hr hempty
  obtain ⟨s, hs, hsr⟩ := exists_mem_reduceDominated_subset hr
  refine h s hs (List.eq_nil_iff_forall_not_mem.mpr fun c hc => ?_)
  have hcr : c ∈ r := Row.subset_iff.mp hsr c hc
  rw [Row.mem_def, hempty] at hcr
  cases hcr

theorem extractMandatory_eq_error (h : ¬ m.Coverable) :
    m.extractMandatory.1 = .error .rowWithoutColumn := by
  have hused : ¬ m.dropUnused.Coverable := mt coverable_of_reindex h
  unfold Coverable at hused
  push Not at hused
  obtain ⟨r, hr, hempty⟩ := hused
  unfold extractMandatory
  dsimp only
  rw [MandatoryScan.failed_of_empty_row hr hempty]
  rfl

/-- A matrix with an empty row is not simplified. -/
theorem simplify_eq_error (h : ¬ m.Coverable) : m.simplify = .error .rowWithoutColumn := by
  have hsorted : ¬ m.reduce.sortColumns.Coverable :=
    mt (fun hs => coverable_of_reduce (coverable_of_reindex hs)) h
  exact simplify_eq_error_iff.mpr (extractMandatory_eq_error hsorted)

end CoverMatrix

end TwoLevel
