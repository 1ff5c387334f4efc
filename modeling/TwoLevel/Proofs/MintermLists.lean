/-
  Which texts are read as lists of minterms, and what is reported of the others.

  `Reads` is the outcome in terms of the characters of the text: it has to be `Listable`, and its
  numbers are its maximal runs of digits, which `MaximalRuns` finds from left to right. The reader
  cuts the text at every character which is no digit; this gives the same runs (`maximalRuns_iff`).
  A run is accepted exactly if its value is that of a signed 64-bit word (`readRun_eq_ok_iff`). So
  the outcome of the reader is the one of `Reads` on every text (`parse_eq_iff_reads`).
-/
import TwoLevel.MintermList
import TwoLevel.Proofs.Pieces

namespace TwoLevel.MintermList

/-- The text holds digits, commas, semicolons, spaces and tabs only. -/
def Allowed (cs : List Char) : Prop :=
  ∀ c ∈ cs, c.isDigit = true ∨ c ∈ [',', ';', ' ', '\t']

/-- The text holds these characters only, and a digit. -/
def Listable (cs : List Char) : Prop :=
  Allowed cs ∧ ∃ c ∈ cs, c.isDigit = true

/-- The maximal runs of digits in a text, from left to right. -/
inductive MaximalRuns : List Char → List (List Char) → Prop
  | nil : MaximalRuns [] []
  | skip {c : Char} {cs : List Char} {rs : List (List Char)} (hc : c.isDigit = false)
      (h : MaximalRuns cs rs) : MaximalRuns (c :: cs) rs
  | run {run cs : List Char} {rs : List (List Char)} (hne : run ≠ [])
      (hrun : ∀ c ∈ run, c.isDigit = true) (hend : ∀ c ∈ cs.head?, c.isDigit = false)
      (h : MaximalRuns cs rs) : MaximalRuns (run ++ cs) (run :: rs)

/-- The outcome on a text: it is no list, or else a number is too large, and the first such number
    is quoted, or else all numbers are read. -/
inductive Reads (text : String) : Except TextError (List Int64) → Prop
  | noList (h : ¬ Listable text.toList) :
      Reads text (.error (.mintermList (String.ofList (Text.trim text.toList))))
  | tooLarge {before after : List (List Char)} {run : List Char} (h : Listable text.toList)
      (hruns : MaximalRuns text.toList (before ++ run :: after))
      (hbefore : ∀ r ∈ before, (Text.value r : Int) ≤ Int64.maxValue.toInt)
      (hrun : Int64.maxValue.toInt < Text.value run) :
      Reads text (.error (.overflow (String.ofList run)))
  | numbers {runs : List (List Char)} {ns : List Int64} (h : Listable text.toList)
      (hruns : MaximalRuns text.toList runs)
      (hns : ns.map Int64.toInt = runs.map fun run => (Text.value run : Int)) :
      Reads text (.ok ns)

/-! ## Characters -/

theorem isSeparator_iff {c : Char} : isSeparator c = true ↔ c ∈ [',', ';', ' ', '\t'] := by
  simp [isSeparator, or_assoc]

theorem isList_iff {cs : List Char} : isList cs = true ↔ Listable cs := by
  simp only [isList, Listable, Allowed, Bool.and_eq_true, List.all_eq_true, List.any_eq_true,
    Bool.or_eq_true, isSeparator_iff]

/-! ## Runs -/

theorem runs_cons {c : Char} (hc : c.isDigit = false) (cs : List Char) :
    runs (c :: cs) = runs cs := by
  rw [runs, List.splitOnP_cons_eq_if_modifyHead, if_pos (by simp [hc])]
  rfl

theorem runs_append {run cs : List Char} (hne : run ≠ []) (hrun : ∀ c ∈ run, c.isDigit = true)
    (hend : ∀ c ∈ cs.head?, c.isDigit = false) : runs (run ++ cs) = run :: runs cs := by
  have hdigits : ∀ c ∈ run, (!c.isDigit) = false := fun c hc => by rw [hrun c hc]; rfl
  have hkept : ∀ rs : List (List Char), (run :: rs).filter (fun run => !run.isEmpty) =
      run :: rs.filter fun run => !run.isEmpty := fun rs =>
    List.filter_cons_of_pos (by simpa using hne)
  cases cs with
  | nil =>
    rw [List.append_nil, runs, List.splitOnP_eq_singleton hdigits, hkept]
    rfl
  | cons c cs =>
    have hc := hend c rfl
    rw [runs_cons hc, runs, List.splitOnP_append_cons_of_forall_mem hdigits c (by rw [hc]; rfl),
      hkept]
    rfl

theorem MaximalRuns.eq_runs {cs : List Char} {rs : List (List Char)} (h : MaximalRuns cs rs) :
    rs = runs cs := by
  induction h with
  | nil => rfl
  | skip hc _ ih => rw [runs_cons hc, ih]
  | run hne hrun hend _ ih => rw [runs_append hne hrun hend, ih]

/-- A text which begins with a digit begins with a run. -/
theorem MaximalRuns.of_digit {cs : List Char} {c : Char} {rs : List (List Char)}
    (hc : c ∈ cs.head?) (hdigit : c.isDigit = true)
    (h : MaximalRuns (cs.dropWhile Char.isDigit) rs) :
    MaximalRuns cs (cs.takeWhile Char.isDigit :: rs) := by
  have hne : cs.takeWhile Char.isDigit ≠ [] := by
    rw [List.eq_cons_of_mem_head? hc, List.takeWhile_cons_of_pos hdigit]
    exact List.cons_ne_nil _ _
  have hruns := h.run hne (fun _ => List.mem_takeWhile_imp) (head?_dropWhile_eq_false _ _)
  rwa [List.takeWhile_append_dropWhile] at hruns

theorem length_dropWhile_lt {cs : List Char} {c : Char} (hc : c ∈ cs.head?)
    (hdigit : c.isDigit = true) : (cs.dropWhile Char.isDigit).length < cs.length := by
  rw [List.eq_cons_of_mem_head? hc, List.dropWhile_cons_of_pos hdigit]
  exact Nat.lt_succ_of_le (List.length_dropWhile_le _ _)

theorem exists_maximalRuns (cs : List Char) : ∃ rs, MaximalRuns cs rs := by
  induction hn : cs.length using Nat.strongRecOn generalizing cs with
  | ind n ih =>
    cases cs with
    | nil => exact ⟨[], .nil⟩
    | cons c cs =>
      cases hc : c.isDigit with
      | false =>
        obtain ⟨rs, hrs⟩ := ih cs.length (by rw [← hn]; exact Nat.lt_succ_self _) cs rfl
        exact ⟨rs, .skip hc hrs⟩
      | true =>
        have hlt : ((c :: cs).dropWhile Char.isDigit).length < (c :: cs).length :=
          length_dropWhile_lt rfl hc
        obtain ⟨rs, hrs⟩ := ih _ (hn ▸ hlt) _ rfl
        exact ⟨_, hrs.of_digit rfl hc⟩

theorem maximalRuns_iff {cs : List Char} {rs : List (List Char)} :
    MaximalRuns cs rs ↔ rs = runs cs := by
  refine ⟨MaximalRuns.eq_runs, ?_⟩
  rintro rfl
  obtain ⟨rs, hrs⟩ := exists_maximalRuns cs
  exact hrs.eq_runs ▸ hrs

theorem isDigit_of_isSeparator {c : Char} (h : isSeparator c = true) : c.isDigit = false := by
  rw [isSeparator_iff] at h
  fin_cases h <;> rfl

/-- Separators are between the runs. -/
theorem MaximalRuns.after_gap {gap cs : List Char} {rs : List (List Char)}
    (hgap : ∀ c ∈ gap, isSeparator c = true) (h : MaximalRuns cs rs) :
    MaximalRuns (gap ++ cs) rs := by
  induction gap with
  | nil => exact h
  | cons c gap ih =>
    obtain ⟨hc, hgap⟩ := List.forall_mem_cons.mp hgap
    exact .skip (isDigit_of_isSeparator hc) (ih hgap)

/-! ## Numbers -/

theorem toInt_maxValue : Int64.maxValue.toInt = (limit : Int) - 1 := by decide +kernel

theorem readRun_eq_ok_iff {run : List Char} {n : Int64} :
    readRun run = .ok n ↔ n.toInt = Text.value run := by
  unfold readRun
  split
  · next hlt =>
    rw [Except.ok.injEq, ← Int64.toInt_inj, Int64.toInt_ofNat_of_lt hlt, eq_comm]
  · next hlarge =>
    refine iff_of_false (fun h => by cases h) fun h => ?_
    have hmax : n.toInt ≤ Int64.maxValue.toInt := n.toInt_le
    rw [toInt_maxValue] at hmax
    omega

theorem readRun_eq_error {run : List Char} (h : Int64.maxValue.toInt < Text.value run) :
    readRun run = .error (.overflow (String.ofList run)) := by
  rw [toInt_maxValue] at h
  exact if_neg (by omega)

theorem exists_readRun_eq_ok_iff {run : List Char} :
    (∃ n, readRun run = .ok n) ↔ (Text.value run : Int) ≤ Int64.maxValue.toInt := by
  constructor
  · rintro ⟨n, hn⟩
    exact readRun_eq_ok_iff.mp hn ▸ n.toInt_le
  · intro h
    rw [toInt_maxValue] at h
    have hlt : Text.value run < limit := by omega
    exact ⟨_, readRun_eq_ok_iff.mpr (Int64.toInt_ofNat_of_lt hlt)⟩

theorem mapM_readRun_eq_ok_iff {rs : List (List Char)} {ns : List Int64} :
    rs.mapM readRun = .ok ns ↔ ns.map Int64.toInt = rs.map fun run => (Text.value run : Int) := by
  have hread : (fun run n => readRun run = .ok n) =
      fun (run : List Char) (n : Int64) => (Text.value run : Int) = n.toInt := by
    funext run n
    rw [readRun_eq_ok_iff, @eq_comm Int]
  rw [mapM_eq_ok_iff, hread, eq_comm, ← List.forall₂_eq_eq_eq, List.forall₂_map_left_iff,
    List.forall₂_map_right_iff]

/-! ## The outcome -/

variable {text : String}

theorem parse_of_reads {r : Except TextError (List Int64)} (h : Reads text r) : parse text = r := by
  cases h with
  | noList h => exact if_neg (mt isList_iff.mp h)
  | tooLarge h hruns hbefore hrun =>
    rw [parse, read, if_pos (isList_iff.mpr h), ← hruns.eq_runs]
    exact mapM_eq_error (fun r hr => exists_readRun_eq_ok_iff.mpr (hbefore r hr))
      (readRun_eq_error hrun)
  | numbers h hruns hns =>
    rw [parse, read, if_pos (isList_iff.mpr h), ← hruns.eq_runs]
    exact mapM_readRun_eq_ok_iff.mpr hns

theorem exists_reads (text : String) : ∃ r, Reads text r := by
  by_cases h : Listable text.toList
  · obtain ⟨rs, hruns⟩ := exists_maximalRuns text.toList
    by_cases hfit : ∀ r ∈ rs, (Text.value r : Int) ≤ Int64.maxValue.toInt
    · obtain ⟨ns, hns⟩ := exists_forall₂_iff.mpr fun r hr =>
        exists_readRun_eq_ok_iff.mpr (hfit r hr)
      exact ⟨_, .numbers h hruns (mapM_readRun_eq_ok_iff.mp (mapM_eq_ok_iff.mpr hns))⟩
    · obtain ⟨before, run, after, rfl, hbefore, hrun⟩ := exists_first_not hfit
      exact ⟨_, .tooLarge h hruns hbefore (not_le.mp hrun)⟩
  · exact ⟨_, .noList h⟩

/-- The reader has the outcome of `Reads`, on every text. -/
theorem parse_eq_iff_reads {r : Except TextError (List Int64)} : parse text = r ↔ Reads text r := by
  refine ⟨?_, parse_of_reads⟩
  rintro rfl
  obtain ⟨r, hr⟩ := exists_reads text
  exact parse_of_reads hr ▸ hr

end TwoLevel.MintermList
