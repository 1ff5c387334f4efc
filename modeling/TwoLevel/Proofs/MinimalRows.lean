/-
  The rows which the removal of dominated rows leaves.

  They are the rows of the list which include no other one (`mem_reduceDominated_iff`), and they
  come in a strict order: by size, and rows of one size by the first column in which they differ
  (`reduceDominated_precedes`). A list in strict order is known by its elements, so that the result
  depends on the set of the rows only (`reduceDominated_congr`), and what is left once is left
  again (`reduceDominated_idem`).
-/
import TwoLevel.Proofs.InPlace.Loops

namespace TwoLevel

/-! ## The strict order of the rows -/

theorem head_le_of_mem {a c : Nat} {as : List Nat} (h : (a :: as).Pairwise (· < ·))
    (hc : c ∈ a :: as) : a ≤ c := by
  rcases List.mem_cons.mp hc with rfl | hc
  · exact Nat.le_refl c
  · exact Nat.le_of_lt ((List.pairwise_cons.mp h).1 c hc)

namespace Row

/-- `r` has fewer columns than `s`; or as many, and the first column in which they differ is one
    of `s`. -/
def Precedes (r s : Row) : Prop :=
  r.size < s.size ∨ r.size = s.size ∧ ∃ c, c ∉ r ∧ c ∈ s ∧ ∀ d < c, d ∈ r ↔ d ∈ s

/-- The comparison is decided by the first column which only one of the lists has. -/
theorem compareColumns_eq_lt_iff {as bs : List Nat} (has : as.Pairwise (· < ·))
    (hbs : bs.Pairwise (· < ·)) :
    compareColumns as bs = .lt ↔ ∃ c, c ∉ as ∧ c ∈ bs ∧ ∀ d < c, d ∈ as ↔ d ∈ bs := by
  induction as, bs using compareColumns.induct with
  | case1 => simp [compareColumns]
  | case2 b bs =>
    refine iff_of_true rfl ⟨b, List.not_mem_nil, List.mem_cons_self, fun d hd => ?_⟩
    exact iff_of_false List.not_mem_nil fun hmem => Nat.not_le_of_lt hd (head_le_of_mem hbs hmem)
  | case3 a as => simp [compareColumns]
  | case4 as a bs ih =>
    obtain ⟨ha, has⟩ := List.pairwise_cons.mp has
    obtain ⟨hb, hbs⟩ := List.pairwise_cons.mp hbs
    have hna : a ∉ as := fun h => Nat.lt_irrefl a (ha a h)
    have hnb : a ∉ bs := fun h => Nat.lt_irrefl a (hb a h)
    rw [compareColumns, if_pos rfl, ih has hbs]
    refine exists_congr fun c => ?_
    simp only [List.mem_cons, not_or]
    constructor
    · intro h
      obtain ⟨hc, hcb, hd⟩ := h
      exact ⟨⟨fun heq => hnb (heq ▸ hcb), hc⟩, Or.inr hcb, fun d hdc => or_congr_right (hd d hdc)⟩
    · intro h
      obtain ⟨⟨hne, hc⟩, hcb, hd⟩ := h
      refine ⟨hc, hcb.resolve_left hne, fun d hdc => ?_⟩
      by_cases hda : d = a
      · rw [hda]
        exact iff_of_false hna hnb
      · simpa [hda] using hd d hdc
  | case5 a as b bs hne hlt =>
    rw [compareColumns, if_neg hne, if_pos hlt]
    refine iff_of_false (by simp) fun h => ?_
    obtain ⟨c, _, hcb, hd⟩ := h
    have hbc : b ≤ c := head_le_of_mem hbs hcb
    have hba : b ≤ a := head_le_of_mem hbs ((hd a (by omega)).mp List.mem_cons_self)
    omega
  | case6 a as b bs hne hlt =>
    have hba : b < a := by omega
    rw [compareColumns, if_neg hne, if_neg hlt]
    refine iff_of_true rfl ⟨b, fun h => ?_, List.mem_cons_self, fun d hd => ?_⟩
    · exact Nat.not_le_of_lt hba (head_le_of_mem has h)
    · exact iff_of_false (fun h => Nat.not_le_of_lt (Nat.lt_trans hd hba) (head_le_of_mem has h))
        fun h => Nat.not_le_of_lt hd (head_le_of_mem hbs h)

theorem lexicographic_eq_lt_iff {r s : Row} :
    r.lexicographic s = .lt ↔ ∃ c, c ∉ r ∧ c ∈ s ∧ ∀ d < c, d ∈ r ↔ d ∈ s :=
  compareColumns_eq_lt_iff r.ascending s.ascending

theorem order_eq_lt_iff {r s : Row} : r.order s = .lt ↔ r.Precedes s := by
  rw [order, Ordering.then_eq_lt, Nat.compare_eq_lt, Nat.compare_eq_eq, lexicographic_eq_lt_iff]
  rfl

instance (r s : Row) : Decidable (r.Precedes s) :=
  decidable_of_iff (r.order s = .lt) order_eq_lt_iff

instance : Std.Irrefl Precedes where
  irrefl r h := by
    rw [← order_eq_lt_iff, @Std.ReflCmp.compare_self _ order] at h
    cases h

instance : Std.Antisymm Precedes where
  antisymm r s hrs hsr := by
    rw [← order_eq_lt_iff] at hrs hsr
    rw [@Std.OrientedCmp.eq_swap _ order, hsr] at hrs
    cases hrs

/-- Only equal rows are not told apart. -/
instance : Std.LawfulEqCmp lexicographic where
  compare_self := Std.ReflCmp.compare_self
  eq_of_compare {r s} h := by
    rw [lexicographic, compareColumns_eq_compareLex] at h
    have hcols : r.columns = s.columns :=
      @Std.LawfulEqCmp.eq_of_compare _ (List.compareLex fun a b : Nat => compare b a) _ _ _ h
    exact ext fun c => by rw [mem_def, mem_def, hcols]

theorem lexicographic_eq_eq_iff {r s : Row} : r.lexicographic s = .eq ↔ r = s :=
  @Std.LawfulEqCmp.compare_eq_iff_eq _ lexicographic _ _ _

theorem eq_of_order_eq {r s : Row} (h : r.order s = .eq) : r = s := by
  rw [order, Ordering.then_eq_eq] at h
  exact lexicographic_eq_eq_iff.mp h.2

end Row

/-! ## Minimal rows -/

/-- A row of the list which includes no other row of the list. -/
structure IsMinimalRow (rows : List Row) (r : Row) : Prop where
  mem : r ∈ rows
  least : ∀ s ∈ rows, s.subset r = true → s = r

theorem mem_reduceDominated_iff {rows : List Row} {r : Row} :
    r ∈ reduceDominated rows ↔ IsMinimalRow rows r := by
  constructor
  · intro hr
    refine ⟨mem_of_mem_reduceDominated hr, fun s hs hsr => ?_⟩
    obtain ⟨t, ht, hts⟩ := exists_mem_reduceDominated_subset hs
    -- the row which is left below `s` is below `r`, hence it is `r` itself
    have htr : t.subset r = true :=
      Row.subset_iff.mpr fun c hc => Row.subset_iff.mp hsr c (Row.subset_iff.mp hts c hc)
    obtain rfl : t = r := by
      by_contra hne
      exact ((reduceDominated_antichain rows).forall ht hr hne).1 htr
    exact Row.eq_of_subset_of_size_le hsr (Row.subperm_columns hts).length_le
  · intro h
    obtain ⟨s, hs, hsr⟩ := exists_mem_reduceDominated_subset h.mem
    exact h.least s (mem_of_mem_reduceDominated hs) hsr ▸ hs

theorem reduceDominated_precedes (rows : List Row) :
    (reduceDominated rows).Pairwise Row.Precedes := by
  refine ((reduceDominated_sorted rows).and (reduceDominated_antichain rows)).imp ?_
  intro r s h
  obtain ⟨hle, hrs, _⟩ := h
  rw [← Row.order_eq_lt_iff]
  cases hord : r.order s with
  | lt => rfl
  | eq => exact absurd (Row.eq_of_order_eq hord ▸ r.subset_refl) hrs
  | gt =>
    rw [hord] at hle
    cases hle

/-- Lists of the same rows leave the same rows, whatever their order and their repetitions. -/
theorem reduceDominated_congr {rows others : List Row} (h : ∀ r, r ∈ rows ↔ r ∈ others) :
    reduceDominated rows = reduceDominated others := by
  refine (reduceDominated_precedes rows).eq_of_mem_iff (reduceDominated_precedes others) fun r => ?_
  rw [mem_reduceDominated_iff, mem_reduceDominated_iff]
  constructor
  · intro hr
    exact ⟨(h r).mp hr.mem, fun s hs => hr.least s ((h s).mpr hs)⟩
  · intro hr
    exact ⟨(h r).mpr hr.mem, fun s hs => hr.least s ((h s).mp hs)⟩

theorem reduceDominated_idem (rows : List Row) :
    reduceDominated (reduceDominated rows) = reduceDominated rows := by
  refine (reduceDominated_precedes _).eq_of_mem_iff (reduceDominated_precedes rows) fun r => ?_
  refine ⟨mem_of_mem_reduceDominated, fun hr => mem_reduceDominated_iff.mpr ⟨hr, ?_⟩⟩
  intro s hs
  exact (mem_reduceDominated_iff.mp hr).least s (mem_of_mem_reduceDominated hs)

/-- What is left of a list of rows are its minimal ones, each once and in strict order. So none of
    them includes another, each row of the list includes one of them, a second removal changes
    nothing, and lists of the same rows leave the same. The removal in place agrees. -/
theorem reduceDominated_minimal_rows (rows : List Row) :
    InPlace.reduceDominated rows = some (reduceDominated rows) ∧
    (∀ r, r ∈ reduceDominated rows ↔ IsMinimalRow rows r) ∧
    (reduceDominated rows).Nodup ∧
    (reduceDominated rows).Pairwise Row.Precedes ∧
    (reduceDominated rows).Pairwise Incomparable ∧
    (∀ r ∈ rows, ∃ s ∈ reduceDominated rows, s.subset r = true) ∧
    reduceDominated (reduceDominated rows) = reduceDominated rows ∧
    ∀ others : List Row, (∀ r, r ∈ others ↔ r ∈ rows) →
      reduceDominated others = reduceDominated rows := by
  refine ⟨InPlace.reduceDominated_refines rows, fun _ => mem_reduceDominated_iff, ?_,
    reduceDominated_precedes rows, reduceDominated_antichain rows,
    fun _ hr => exists_mem_reduceDominated_subset hr, reduceDominated_idem rows,
    fun _ h => reduceDominated_congr h⟩
  refine List.Pairwise.imp ?_ (reduceDominated_precedes rows)
  intro r s h heq
  subst heq
  exact irrefl r h

example :
    reduceDominated [.ofList [0, 1], .ofList [2, 3], .ofList [0, 2], .ofList [0, 1, 2]] =
      [.ofList [2, 3], .ofList [0, 2], .ofList [0, 1]] := by
  decide

end TwoLevel
