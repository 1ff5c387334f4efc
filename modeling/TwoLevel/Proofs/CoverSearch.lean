/-
  The search of the minimal covers.

  Ending the search early loses nothing (`selections_succ_cons`). So the selections of size `k` are
  the sublists of the columns with `k` elements which hit every row (`mem_selections`); they come in
  lexicographic order, and none is listed twice (`selections_pairwise`). The sizes are tried from 0
  up, so that the first size with a selection is the least one (`minimalCoverColumns_spec`). By
  labels (`minimalCovers_spec`): in a matrix without empty rows the search succeeds, and its
  results, read as sets, are the minimal covers of the matrix, each once.
-/
import TwoLevel.Cover.Minimal
import TwoLevel.Proofs.MandatoryColumns

namespace TwoLevel

/-! ## Selections of one size -/

theorem all_meets_cons {c : Nat} {sel : List Nat} {rows : List Row} :
    (rows.all (·.meets (c :: sel))) = true ↔
      ((rows.filter fun r => !r.contains c).all (·.meets sel)) = true := by
  simp only [List.all_eq_true, List.mem_filter, Row.meets, List.any_cons, Bool.or_eq_true]
  constructor
  · intro h r heq
    obtain ⟨hr, hc⟩ := heq
    exact (h r hr).resolve_left fun hcr => by simp [hcr] at hc
  · intro h r hr
    cases hc : r.contains c
    · exact Or.inr (h r ⟨hr, by rw [hc]; rfl⟩)
    · exact Or.inl rfl

theorem all_meets_of_subset {sel cols : List Nat} {rows : List Row} (hsub : sel ⊆ cols)
    (h : (rows.all (·.meets sel)) = true) : (rows.all (·.meets cols)) = true := by
  simp only [List.all_eq_true, Row.meets_iff] at h ⊢
  intro r hr
  obtain ⟨c, hc, hcr⟩ := h r hr
  exact ⟨c, hsub hc, hcr⟩

/-- If all columns together miss a row, there is no selection. -/
theorem selections_eq_nil {cols : List Nat} {rows : List Row}
    (h : ¬ (rows.all (·.meets cols)) = true) (k : Nat) : selections k cols rows = [] := by
  cases k with
  | zero =>
    cases rows with
    | nil => exact absurd rfl h
    | cons r rows => rw [selections, List.isEmpty_cons, if_neg Bool.false_ne_true]
  | succ k =>
    cases cols with
    | nil => rfl
    | cons c cols => exact if_neg h

/-- Ending the search below a row which cannot be hit skips no selection. -/
theorem selections_succ_cons (k c : Nat) (cols : List Nat) (rows : List Row) :
    selections (k + 1) (c :: cols) rows =
      (selections k cols (rows.filter fun r => !r.contains c)).map (c :: ·) ++
        selections (k + 1) cols rows := by
  by_cases h : (rows.all (·.meets (c :: cols))) = true
  · exact if_pos h
  · have hrest : ¬ (rows.all (·.meets cols)) = true := fun hall =>
      h (all_meets_of_subset (List.subset_cons_self c cols) hall)
    rw [selections_eq_nil h, selections_eq_nil (fun hall => h (all_meets_cons.mpr hall)),
      selections_eq_nil hrest]
    rfl

/-- Only the empty selection has no element, and it hits no row. -/
theorem mem_selections_zero {cols sel : List Nat} {rows : List Row} :
    sel ∈ selections 0 cols rows ↔
      sel.Sublist cols ∧ sel.length = 0 ∧ (rows.all (·.meets sel)) = true := by
  rw [List.length_eq_zero_iff, selections]
  cases rows with
  | nil =>
    simp only [List.isEmpty_nil, if_true, List.mem_singleton, List.all_nil, and_true]
    exact ⟨fun h => ⟨h ▸ List.nil_sublist cols, h⟩, fun h => h.2⟩
  | cons r rows =>
    simp only [List.isEmpty_cons, Bool.false_eq_true, if_false, List.not_mem_nil, false_iff]
    intro heq
    obtain ⟨_, rfl, h⟩ := heq
    simp [Row.meets] at h

theorem mem_selections {k : Nat} {cols sel : List Nat} {rows : List Row} :
    sel ∈ selections k cols rows ↔
      sel.Sublist cols ∧ sel.length = k ∧ (rows.all (·.meets sel)) = true := by
  induction cols generalizing k rows sel with
  | nil =>
    cases k with
    | zero => exact mem_selections_zero
    | succ k =>
      simp only [selections, List.not_mem_nil, List.sublist_nil, false_iff]
      intro h
      obtain ⟨rfl, hlen, _⟩ := h
      cases hlen
  | cons c cols ih =>
    cases k with
    | zero => exact mem_selections_zero
    | succ k =>
      rw [selections_succ_cons, List.mem_append, List.mem_map]
      constructor
      · rintro (⟨t, ht, rfl⟩ | h)
        · obtain ⟨hsub, hlen, hall⟩ := ih.mp ht
          exact ⟨hsub.cons_cons c, congrArg (· + 1) hlen, all_meets_cons.mpr hall⟩
        · obtain ⟨hsub, hlen, hall⟩ := ih.mp h
          exact ⟨hsub.cons c, hlen, hall⟩
      · intro h
        obtain ⟨hsub, hlen, hall⟩ := h
        cases hsub with
        | cons _ hsub => exact Or.inr (ih.mpr ⟨hsub, hlen, hall⟩)
        | cons_cons _ hsub =>
          exact Or.inl ⟨_, ih.mpr ⟨hsub, Nat.succ.inj hlen, all_meets_cons.mp hall⟩, rfl⟩

/-- The selections which have the first column come before those which do not. -/
theorem selections_pairwise {k : Nat} {cols : List Nat} {rows : List Row}
    (h : cols.Pairwise (· < ·)) : (selections k cols rows).Pairwise (List.Lex (· < ·)) := by
  induction cols generalizing k rows with
  | nil =>
    cases k with
    | zero => cases rows <;> simp [selections]
    | succ k => exact List.Pairwise.nil
  | cons c cols ih =>
    obtain ⟨hc, hcols⟩ := List.pairwise_cons.mp h
    cases k with
    | zero => cases rows <;> simp [selections]
    | succ k =>
      rw [selections_succ_cons]
      refine List.pairwise_append.mpr ⟨?_, ih hcols, ?_⟩
      · exact List.pairwise_map.mpr ((ih hcols).imp List.Lex.cons)
      · intro sel hsel other hother
        obtain ⟨t, _, rfl⟩ := List.mem_map.mp hsel
        obtain ⟨hsub, hlen, _⟩ := mem_selections.mp hother
        obtain ⟨d, ds, rfl⟩ := List.exists_cons_of_length_eq_add_one hlen
        exact .rel (hc d (hsub.subset List.mem_cons_self))

theorem nodup_selections {k : Nat} {cols : List Nat} {rows : List Row}
    (h : cols.Pairwise (· < ·)) : (selections k cols rows).Nodup := by
  refine (selections_pairwise h).imp fun {sel other} hlex heq => ?_
  subst heq
  exact List.lex_irrefl Nat.lt_irrefl sel hlex

/-! ## The least size -/

theorem findSome?_range_eq_some {α : Type} {f : Nat → Option α} {n : Nat} {a : α}
    (h : (List.range n).findSome? f = some a) :
    ∃ k, f k = some a ∧ ∀ j < k, f j = none := by
  induction n with
  | zero => simp at h
  | succ n ih =>
    rw [List.range_succ, List.findSome?_append] at h
    cases hn : (List.range n).findSome? f with
    | some b =>
      rw [hn] at h
      exact ih (hn.trans h)
    | none =>
      rw [hn] at h
      refine ⟨n, by simpa using h, fun j hj => ?_⟩
      exact List.findSome?_eq_none_iff.mp hn j (List.mem_range.mpr hj)

namespace CoverMatrix

variable {L : Type} {m : CoverMatrix L}

theorem coversOfSize?_eq_none_iff {k : Nat} :
    m.coversOfSize? k = none ↔ selections k m.columns m.rows = [] := by
  unfold coversOfSize?
  split
  · next h => simp [h]
  · next hne => simpa using hne

theorem eq_of_coversOfSize?_eq_some {k : Nat} {covers : List (List Nat)}
    (h : m.coversOfSize? k = some covers) :
    covers = selections k m.columns m.rows ∧ covers ≠ [] := by
  unfold coversOfSize? at h
  split at h
  · cases h
  · next hne =>
    cases h
    exact ⟨rfl, hne⟩

/-- The covers which the search finds are selections of one size. -/
theorem eq_selections_of_minimalCoverColumns {covers : List (List Nat)}
    (h : m.minimalCoverColumns = .ok covers) : ∃ k, covers = selections k m.columns m.rows := by
  unfold minimalCoverColumns at h
  split at h
  · next found hfind =>
    obtain ⟨k, hk, _⟩ := findSome?_range_eq_some hfind
    exact ⟨k, Except.ok.inj h ▸ (eq_of_coversOfSize?_eq_some hk).1⟩
  · cases h

/-- All columns together miss a row exactly if it has none of them. -/
theorem not_isCoveredBy_columns_iff :
    ¬ m.isCoveredBy m.columns = true ↔ ∃ r ∈ m.rows, ∀ c < m.labels.length, c ∉ r := by
  simp only [isCoveredBy_iff, mem_columns]
  push Not
  rfl

/-- All columns cover a matrix exactly if it has no empty rows. -/
theorem isCoveredBy_columns_iff (h : m.InBounds) :
    m.isCoveredBy m.columns = true ↔ m.Coverable := by
  rw [isCoveredBy_iff]
  refine forall₂_congr fun r hr => ⟨fun hex => ?_, fun hne => ?_⟩
  · obtain ⟨c, _, hc⟩ := hex
    exact List.ne_nil_of_mem hc
  · obtain ⟨c, hc⟩ := List.exists_mem_of_ne_nil _ hne
    exact ⟨c, mem_columns_of_mem_row h hr hc, hc⟩

theorem minimalCoverColumns_spec (h : m.isCoveredBy m.columns = true) :
    ∃ k, m.minimalCoverColumns = .ok (selections k m.columns m.rows) ∧
      selections k m.columns m.rows ≠ [] ∧
      ∀ j < k, selections j m.columns m.rows = [] := by
  unfold minimalCoverColumns
  cases hfind : (List.range (m.columnCount + 1)).findSome? m.coversOfSize? with
  | some covers =>
    obtain ⟨k, hk, hleast⟩ := findSome?_range_eq_some hfind
    obtain ⟨rfl, hne⟩ := eq_of_coversOfSize?_eq_some hk
    exact ⟨k, rfl, hne, fun j hj => coversOfSize?_eq_none_iff.mp (hleast j hj)⟩
  | none =>
    have hall : m.columns ∈ selections m.columnCount m.columns m.rows :=
      mem_selections.mpr ⟨List.Sublist.refl _, List.length_range, h⟩
    have hnone := List.findSome?_eq_none_iff.mp hfind m.columnCount
      (List.mem_range.mpr (Nat.lt_succ_self _))
    rw [coversOfSize?_eq_none_iff.mp hnone] at hall
    cases hall

/-- If there are none of a size below `k`, every selection has at least `k` columns. -/
theorem le_of_mem_selections {k : Nat} (hleast : ∀ j < k, selections j m.columns m.rows = [])
    {j : Nat} {sel : List Nat} (h : sel ∈ selections j m.columns m.rows) : k ≤ j := by
  by_contra hlt
  rw [hleast j (Nat.lt_of_not_le hlt)] at h
  cases h

/-- If all columns together miss a row, no selection of them is a cover. -/
theorem minimalCoverColumns_eq_error (h : ¬ m.isCoveredBy m.columns = true) :
    m.minimalCoverColumns = .error .noCover := by
  have hnone : ∀ k ∈ List.range (m.columnCount + 1), m.coversOfSize? k = none := fun k _ =>
    coversOfSize?_eq_none_iff.mpr (selections_eq_nil h k)
  unfold minimalCoverColumns
  rw [List.findSome?_eq_none_iff.mpr hnone]

/-! ## Covers as sets of labels -/

theorem lt_of_mem_sublist {sel : List Nat} (h : sel.Sublist m.columns) :
    ∀ c ∈ sel, c < m.labels.length :=
  fun _ hc => mem_columns.mp (h.subset hc)

theorem length_labelsAt {sel : List Nat} (h : sel.Sublist m.columns) :
    (m.labelsAt sel).length = sel.length :=
  length_lookup (lt_of_mem_sublist h)

theorem nodup_labelsAt (hm : m.WellFormed) {sel : List Nat} (h : sel.Sublist m.columns) :
    (m.labelsAt sel).Nodup :=
  nodup_lookup hm.nodup (List.nodup_range.sublist h)

variable [DecidableEq L]

/-- The columns whose labels are in the set. -/
def columnsOf (m : CoverMatrix L) (S : Finset L) : List Nat :=
  m.columns.filter fun c => (m.labels[c]?).any fun l => decide (l ∈ S)

theorem columnsOf_sublist (S : Finset L) : (m.columnsOf S).Sublist m.columns :=
  List.filter_sublist

theorem mem_columnsOf {S : Finset L} {c : Nat} :
    c ∈ m.columnsOf S ↔ ∃ l ∈ S, m.labels[c]? = some l := by
  simp only [columnsOf, List.mem_filter, mem_columns, Option.any_eq_true, decide_eq_true_eq]
  constructor
  · intro h
    obtain ⟨_, l, hl, hS⟩ := h
    exact ⟨l, hS, hl⟩
  · intro h
    obtain ⟨l, hS, hl⟩ := h
    exact ⟨(List.getElem?_eq_some_iff.mp hl).1, l, hl, hS⟩

theorem labelsAt_columnsOf {S : Finset L} (hS : ∀ l ∈ S, l ∈ m.labels) :
    (m.labelsAt (m.columnsOf S)).toFinset = S := by
  ext l
  rw [List.mem_toFinset, mem_labelsAt]
  constructor
  · intro h
    obtain ⟨c, hc, hl⟩ := h
    obtain ⟨k, hk, hck⟩ := mem_columnsOf.mp hc
    rw [hl, Option.some_inj] at hck
    exact hck ▸ hk
  · intro hl
    obtain ⟨c, hc⟩ := List.mem_iff_getElem?.mp (hS l hl)
    exact ⟨c, mem_columnsOf.mpr ⟨l, hl, hc⟩, hc⟩

theorem card_labelsAt (hm : m.WellFormed) {sel : List Nat} (h : sel.Sublist m.columns) :
    (m.labelsAt sel).toFinset.card = sel.length := by
  rw [List.toFinset_card_of_nodup (nodup_labelsAt hm h), length_labelsAt h]

/-- A sublist of the columns is determined by the set of its labels. -/
theorem eq_of_labelsAt_toFinset_eq (hm : m.WellFormed) {sel other : List Nat}
    (hsel : sel.Sublist m.columns) (hother : other.Sublist m.columns)
    (h : (m.labelsAt sel).toFinset = (m.labelsAt other).toFinset) : sel = other := by
  have key : ∀ {a b : List Nat}, a.Sublist m.columns →
      (m.labelsAt a).toFinset = (m.labelsAt b).toFinset → ∀ c ∈ a, c ∈ b := by
    intro a b ha hab c hc
    have hl := List.getElem?_eq_getElem (lt_of_mem_sublist ha c hc)
    have hmem := List.mem_toFinset.mpr (mem_labelsAt.mpr ⟨c, hc, hl⟩)
    rw [hab] at hmem
    obtain ⟨d, hd, hdl⟩ := mem_labelsAt.mp (List.mem_toFinset.mp hmem)
    exact position_unique hm.nodup hl hdl ▸ hd
  exact (List.pairwise_lt_range.sublist hsel).eq_of_mem_iff (List.pairwise_lt_range.sublist hother)
    fun c => ⟨key hsel h c, key hother h.symm c⟩

/-- A set of labels which hits every row is found among the selections of its size. -/
theorem columnsOf_mem_selections (hm : m.WellFormed) {S : Finset L} (hS : ∀ l ∈ S, l ∈ m.labels)
    (h : m.Hits S) : m.columnsOf S ∈ selections S.card m.columns m.rows := by
  refine mem_selections.mpr ⟨columnsOf_sublist S, ?_, ?_⟩
  · rw [← card_labelsAt hm (columnsOf_sublist S), labelsAt_columnsOf hS]
  · rw [← labelsAt_columnsOf hS] at h
    exact (isCoveredBy_iff_hits hm).mpr h

/-- What the minimal covers of a matrix are, when they are listed as lists of labels. -/
structure ListsMinimalCovers (m : CoverMatrix L) (covers : List (List L)) : Prop where
  nonempty : covers ≠ []
  nodup : ∀ C ∈ covers, C.Nodup
  minimal : ∀ C ∈ covers, m.IsMinimalCover C.toFinset
  complete : ∀ S : Finset L, m.IsMinimalCover S → ∃ C ∈ covers, C.toFinset = S
  distinct : (covers.map List.toFinset).Nodup

theorem ListsMinimalCovers.isMinimalCover_iff {covers : List (List L)}
    (h : m.ListsMinimalCovers covers) {S : Finset L} :
    m.IsMinimalCover S ↔ ∃ C ∈ covers, C.toFinset = S := by
  refine ⟨h.complete S, fun hex => ?_⟩
  obtain ⟨C, hC, rfl⟩ := hex
  exact h.minimal C hC

theorem selections_listsMinimalCovers (hm : m.WellFormed) {k : Nat}
    (hne : selections k m.columns m.rows ≠ [])
    (hleast : ∀ j < k, selections j m.columns m.rows = []) :
    m.ListsMinimalCovers ((selections k m.columns m.rows).map m.labelsAt) := by
  have hsize : ∀ S : Finset L, (∀ l ∈ S, l ∈ m.labels) → m.Hits S → k ≤ S.card :=
    fun S hS hhits => le_of_mem_selections hleast (columnsOf_mem_selections hm hS hhits)
  have hcover : ∀ sel ∈ selections k m.columns m.rows,
      m.IsMinimalCover (m.labelsAt sel).toFinset := by
    intro sel hsel
    obtain ⟨hsub, hlen, hall⟩ := mem_selections.mp hsel
    refine ⟨fun l hl => lookup_subset (List.mem_toFinset.mp hl), ?_, fun T hT hhits => ?_⟩
    · exact (isCoveredBy_iff_hits hm).mp hall
    · rw [card_labelsAt hm hsub, hlen]
      exact hsize T hT hhits
  refine ⟨by simpa using hne, ?_, ?_, ?_, ?_⟩
  · exact List.forall_mem_map.mpr fun sel hsel => nodup_labelsAt hm (mem_selections.mp hsel).1
  · exact List.forall_mem_map.mpr hcover
  · intro S hS
    obtain ⟨sel, hsel⟩ := List.exists_mem_of_ne_nil _ hne
    obtain ⟨hsub, hlen, _⟩ := mem_selections.mp hsel
    have hcard : S.card = k := by
      refine Nat.le_antisymm ?_ (hsize S hS.labels hS.hits)
      rw [← hlen, ← card_labelsAt hm hsub]
      exact hS.least _ (hcover sel hsel).labels (hcover sel hsel).hits
    refine ⟨_, List.mem_map_of_mem ?_, labelsAt_columnsOf hS.labels⟩
    exact hcard ▸ columnsOf_mem_selections hm hS.labels hS.hits
  · rw [List.map_map]
    refine (nodup_selections List.pairwise_lt_range).map_on fun a ha b hb hab => ?_
    exact eq_of_labelsAt_toFinset_eq hm (mem_selections.mp ha).1 (mem_selections.mp hb).1 hab

theorem minimalCovers_spec (hm : m.WellFormed) (hcov : m.Coverable) :
    ∃ covers, m.minimalCovers = .ok covers ∧ m.ListsMinimalCovers covers := by
  obtain ⟨k, heq, hne, hleast⟩ :=
    minimalCoverColumns_spec ((isCoveredBy_columns_iff hm.inBounds).mpr hcov)
  refine ⟨_, ?_, selections_listsMinimalCovers hm hne hleast⟩
  unfold minimalCovers
  rw [heq]
  rfl

/-! ## The covers of the whole matrix -/

section Extracted

variable {forced : List L} {rest : CoverMatrix L} (h : m.Extracted forced rest)

include h

theorem Extracted.disjoint_toFinset {S : Finset L} (hS : ∀ l ∈ S, l ∈ rest.labels) :
    Disjoint forced.toFinset S :=
  Finset.disjoint_left.mpr fun l hl hlS => h.disjoint l (List.mem_toFinset.mp hl) (hS l hlS)

/-- The labels taken first, together with a cover of the rest. -/
theorem Extracted.hits_union {S : Finset L} (hS : rest.Hits S) : m.Hits (forced.toFinset ∪ S) :=
  (h.hits _).mpr ⟨fun _ hl => Finset.mem_union_left _ (List.mem_toFinset.mpr hl),
    hS.mono Finset.subset_union_right⟩

theorem Extracted.labels_union {S : Finset L} (hS : ∀ l ∈ S, l ∈ rest.labels) :
    ∀ l ∈ forced.toFinset ∪ S, l ∈ m.labels := by
  intro l hl
  rcases Finset.mem_union.mp hl with hl | hl
  · exact h.forced_labels l (List.mem_toFinset.mp hl)
  · exact h.rest_labels l (hS l hl)

theorem Extracted.card_union {S : Finset L} (hS : ∀ l ∈ S, l ∈ rest.labels) :
    (forced.toFinset ∪ S).card = forced.length + S.card := by
  rw [Finset.card_union_of_disjoint (h.disjoint_toFinset hS),
    List.toFinset_card_of_nodup h.nodup]

/-- What a set which hits all rows has beyond the forced labels hits the rest. -/
theorem Extracted.exists_rest {T : Finset L} (hT : m.Hits T) :
    ∃ S : Finset L, (∀ l ∈ S, l ∈ rest.labels) ∧ rest.Hits S ∧ forced.toFinset ∪ S ⊆ T := by
  obtain ⟨hforced, hrest⟩ := (h.hits T).mp hT
  refine ⟨T.filter (· ∈ rest.labels), fun l hl => (Finset.mem_filter.mp hl).2,
    hrest.filter_labels, ?_⟩
  refine Finset.union_subset (fun l hl => hforced l (List.mem_toFinset.mp hl)) ?_
  exact Finset.filter_subset _ T

theorem Extracted.isMinimalCover_union {S : Finset L} (hS : rest.IsMinimalCover S) :
    m.IsMinimalCover (forced.toFinset ∪ S) := by
  refine ⟨h.labels_union hS.labels, h.hits_union hS.hits, fun T _ hT => ?_⟩
  obtain ⟨R, hR, hRhits, hRT⟩ := h.exists_rest hT
  calc (forced.toFinset ∪ S).card = forced.length + S.card := h.card_union hS.labels
    _ ≤ forced.length + R.card := Nat.add_le_add_left (hS.least R hR hRhits) _
    _ = (forced.toFinset ∪ R).card := (h.card_union hR).symm
    _ ≤ T.card := Finset.card_le_card hRT

theorem Extracted.exists_isMinimalCover_rest {T : Finset L} (hT : m.IsMinimalCover T) :
    ∃ S, rest.IsMinimalCover S ∧ forced.toFinset ∪ S = T := by
  obtain ⟨S, hS, hShits, hST⟩ := h.exists_rest hT.hits
  have hcard : ∀ R : Finset L, (∀ l ∈ R, l ∈ rest.labels) → rest.Hits R →
      T.card ≤ forced.length + R.card := by
    intro R hR hRhits
    rw [← h.card_union hR]
    exact hT.least _ (h.labels_union hR) (h.hits_union hRhits)
  have heq : forced.toFinset ∪ S = T := by
    refine Finset.eq_of_subset_of_card_le hST ?_
    rw [h.card_union hS]
    exact hcard S hS hShits
  refine ⟨S, ⟨hS, hShits, fun R hR hRhits => ?_⟩, heq⟩
  have hle := hcard R hR hRhits
  rw [← heq, h.card_union hS] at hle
  exact Nat.le_of_add_le_add_left hle

theorem Extracted.listsMinimalCovers {covers : List (List L)}
    (hcovers : rest.ListsMinimalCovers covers) :
    m.ListsMinimalCovers (covers.map (forced ++ ·)) where
  nonempty := by simpa using hcovers.nonempty
  nodup := List.forall_mem_map.mpr fun C hC => by
    refine List.nodup_append'.mpr ⟨h.nodup, hcovers.nodup C hC, fun l hl hlC => ?_⟩
    exact h.disjoint l hl ((hcovers.minimal C hC).labels l (List.mem_toFinset.mpr hlC))
  minimal := List.forall_mem_map.mpr fun C hC => by
    rw [List.toFinset_append]
    exact h.isMinimalCover_union (hcovers.minimal C hC)
  complete T hT := by
    obtain ⟨S, hS, rfl⟩ := h.exists_isMinimalCover_rest hT
    obtain ⟨C, hC, rfl⟩ := hcovers.complete S hS
    exact ⟨_, List.mem_map_of_mem hC, List.toFinset_append⟩
  distinct := by
    have hunion : ((covers.map List.toFinset).map (forced.toFinset ∪ ·)).Nodup := by
      refine hcovers.distinct.map_on fun S hS T hT heq => ?_
      obtain ⟨C, hC, rfl⟩ := List.mem_map.mp hS
      obtain ⟨D, hD, rfl⟩ := List.mem_map.mp hT
      have hCdisj := h.disjoint_toFinset (hcovers.minimal C hC).labels
      have hDdisj := h.disjoint_toFinset (hcovers.minimal D hD).labels
      rw [← Finset.union_sdiff_cancel_left hCdisj, ← Finset.union_sdiff_cancel_left hDdisj]
      exact congrArg (· \ forced.toFinset) heq
    simpa [List.map_map, Function.comp_def, List.toFinset_append] using hunion

end Extracted

/-- Simplification and search together list the minimal covers of a matrix without empty rows. -/
theorem simplify_minimalCovers_spec (hm : m.WellFormed) (hcov : m.Coverable) :
    ∃ forced rest covers, m.simplify = .ok (forced, rest) ∧ m.Extracted forced rest ∧
      rest.minimalCovers = .ok covers ∧ m.ListsMinimalCovers (covers.map (forced ++ ·)) := by
  obtain ⟨forced, rest, hsimp, hext⟩ := simplify_spec hm hcov
  obtain ⟨covers, hcovers, hlists⟩ := minimalCovers_spec hext.wellFormed hext.coverable
  exact ⟨forced, rest, covers, hsimp, hext, hcovers, hext.listsMinimalCovers hlists⟩

end CoverMatrix

end TwoLevel
