/-
  Problem files which are written out, and read again.

  `ListLine` are the ways to write numbers on one line, and `Text.Written` the ways to make a text
  of lines: each is ended by a line feed, which a carriage return may precede, or the last one by
  nothing. Blank lines may stand anywhere.

  The lines of such a text are found again up to carriage returns (`Text.lines_append`). These are
  blank, so that they neither make a line blank nor are left in the lines of a problem
  (`contentLines_of_written`). Such a line is in turn read as its numbers (`ListLine.read_eq_ok`).
  Hence a problem is read again however it was written out (`parse_written`).
-/
import TwoLevel.ProblemFile
import TwoLevel.Proofs.MintermLists

namespace TwoLevel

/-! ## Lines -/

namespace Text

/-- The texts which are made of the lines. -/
inductive Written : List (List Char) → List Char → Prop
  | nil : Written [] []
  | unended {line : List Char} : Written [line] line
  | lineFeed {line cs : List Char} {lines : List (List Char)} (h : Written lines cs) :
      Written (line :: lines) (line ++ '\n' :: cs)
  | carriageReturn {line cs : List Char} {lines : List (List Char)} (h : Written lines cs) :
      Written (line :: lines) (line ++ '\r' :: '\n' :: cs)

theorem lines_of_not_mem {line : List Char} (h : '\n' ∉ line) : lines line = [line] := by
  rw [lines, splitOn_of_not_mem h]
  rfl

/-- The first line ends at the first line feed. -/
theorem lines_append {line : List Char} (h : '\n' ∉ line) (cs : List Char) :
    lines (line ++ '\n' :: cs) = dropCarriageReturn line :: lines cs := by
  obtain ⟨piece, pieces, hpieces⟩ :=
    List.exists_cons_of_ne_nil (List.splitOnP_ne_nil (· == '\n') cs)
  have hcs : cs.splitOn '\n' = piece :: pieces := hpieces
  rw [lines, lines, splitOn_append_of_not_mem h, splitOn_cons_self, List.modifyHead_cons,
    List.append_nil, hcs]
  rfl

theorem dropCarriageReturn_of_not_mem {line : List Char} (h : '\r' ∉ line) :
    dropCarriageReturn line = line :=
  if_neg fun hlast => h (List.mem_of_getLast? hlast)

theorem dropCarriageReturn_append (line : List Char) :
    dropCarriageReturn (line ++ ['\r']) = line := by
  rw [dropCarriageReturn, List.getLast?_concat, if_pos rfl, List.dropLast_concat]

/-- A carriage return is blank. -/
theorem all_isBlank_dropCarriageReturn (line : List Char) :
    (dropCarriageReturn line).all isBlank = line.all isBlank := by
  unfold dropCarriageReturn
  split
  · next hlast =>
    obtain ⟨front, rfl⟩ := List.getLast?_eq_some_iff.mp hlast
    rw [List.dropLast_concat, List.all_append]
    exact (Bool.and_true _).symm
  · rfl

end Text

namespace ProblemFile

/-- A line which may stand anywhere. -/
def BlankLine (line : List Char) : Prop :=
  (∀ c ∈ line, Text.isBlank c = true) ∧ '\n' ∉ line

instance (line : List Char) : Decidable (BlankLine line) :=
  have : Decidable (∀ c ∈ line, Text.isBlank c = true) := List.decidableBAll _ line
  inferInstanceAs (Decidable (_ ∧ _))

theorem contentLines_append {line : List Char} (h : '\n' ∉ line) (cs : List Char) :
    contentLines (line ++ '\n' :: cs) =
      if line.all Text.isBlank then contentLines cs
      else Text.dropCarriageReturn line :: contentLines cs := by
  unfold contentLines
  rw [Text.lines_append h, List.filter_cons, Text.all_isBlank_dropCarriageReturn]
  cases line.all Text.isBlank <;> rfl

/-- The lines of a text which are not blank, if these hold no carriage return. -/
theorem contentLines_of_written {lines : List (List Char)} {cs : List Char}
    (h : Text.Written lines cs) (hfeed : ∀ line ∈ lines, '\n' ∉ line)
    (hreturn : ∀ line ∈ lines, line.all Text.isBlank = true ∨ '\r' ∉ line) :
    contentLines cs = lines.filter fun line => !line.all Text.isBlank := by
  induction h with
  | nil => rfl
  | unended =>
    obtain ⟨hline, _⟩ := List.forall_mem_cons.mp hfeed
    rw [contentLines, Text.lines_of_not_mem hline]
  | @lineFeed line cs lines _ ih =>
    obtain ⟨hline, hfeed⟩ := List.forall_mem_cons.mp hfeed
    obtain ⟨hblank, hreturn⟩ := List.forall_mem_cons.mp hreturn
    rw [contentLines_append hline, ih hfeed hreturn, List.filter_cons]
    cases hall : line.all Text.isBlank with
    | true => rfl
    | false =>
      have hdrop := Text.dropCarriageReturn_of_not_mem (hblank.resolve_left (by simp [hall]))
      rw [hdrop]
      rfl
  | @carriageReturn line cs lines _ ih =>
    obtain ⟨hline, hfeed⟩ := List.forall_mem_cons.mp hfeed
    obtain ⟨_, hreturn⟩ := List.forall_mem_cons.mp hreturn
    have hended : '\n' ∉ line ++ ['\r'] := by simp [hline]
    have htext : line ++ '\r' :: '\n' :: cs = (line ++ ['\r']) ++ '\n' :: cs := by simp
    have hall : (line ++ ['\r']).all Text.isBlank = line.all Text.isBlank := by
      rw [← Text.all_isBlank_dropCarriageReturn, Text.dropCarriageReturn_append]
    rw [htext, contentLines_append hended, ih hfeed hreturn, hall, List.filter_cons,
      Text.dropCarriageReturn_append]
    cases line.all Text.isBlank <;> rfl

end ProblemFile

/-! ## Lists -/

namespace MintermList

/-- Separators only. -/
def Gap (cs : List Char) : Prop :=
  ∀ c ∈ cs, c ∈ [',', ';', ' ', '\t']

instance (cs : List Char) : Decidable (Gap cs) :=
  List.decidableBAll (fun c => c ∈ [',', ';', ' ', '\t']) cs

/-- A number in decimal notation. -/
def decimal (n : Int64) : List Char :=
  Text.digits n.toInt.toNat

/-- The numbers with separators between them, and perhaps after the last one. -/
inductive Numbers : List Int64 → List Char → Prop
  | last {n : Int64} {gap : List Char} (hn : 0 ≤ n) (hgap : Gap gap) :
      Numbers [n] (decimal n ++ gap)
  | more {n : Int64} {ns : List Int64} {gap cs : List Char} (hn : 0 ≤ n) (hne : gap ≠ [])
      (hgap : Gap gap) (h : Numbers ns cs) : Numbers (n :: ns) (decimal n ++ (gap ++ cs))

/-- The lines on which the numbers are written. -/
inductive ListLine (ns : List Int64) : List Char → Prop
  | mk {gap cs : List Char} (hgap : Gap gap) (h : Numbers ns cs) : ListLine ns (gap ++ cs)

variable {ns : List Int64} {cs line : List Char}

theorem Numbers.nonneg (h : Numbers ns cs) : ∀ n ∈ ns, 0 ≤ n := by
  induction h with
  | last hn _ => exact List.forall_mem_singleton.mpr hn
  | more hn _ _ _ ih => exact List.forall_mem_cons.mpr ⟨hn, ih⟩

theorem isDigit_of_mem_decimal {n : Int64} : ∀ c ∈ decimal n, c.isDigit = true :=
  fun _ => Text.isDigit_of_mem_digits

theorem decimal_ne_nil (n : Int64) : decimal n ≠ [] :=
  Text.digits_ne_nil _

theorem value_decimal {n : Int64} (h : 0 ≤ n) : (Text.value (decimal n) : Int) = n.toInt := by
  rw [Int64.le_iff_toInt_le, Int64.toInt_zero] at h
  rw [decimal, Text.value_digits, Int.toNat_of_nonneg h]

theorem gap_nil : Gap [] :=
  fun _ hc => absurd hc List.not_mem_nil

theorem Gap.isSeparator {gap : List Char} (h : Gap gap) : ∀ c ∈ gap, isSeparator c = true :=
  fun c hc => isSeparator_iff.mpr (h c hc)

theorem Numbers.allowed (h : Numbers ns cs) : Allowed cs := by
  have hnumber : ∀ n : Int64, Allowed (decimal n) := fun n c hc =>
    Or.inl (isDigit_of_mem_decimal c hc)
  unfold Allowed at hnumber ⊢
  induction h with
  | last _ hgap =>
    exact List.forall_mem_append.mpr ⟨hnumber _, fun c hc => Or.inr (hgap c hc)⟩
  | more _ _ hgap _ ih =>
    refine List.forall_mem_append.mpr ⟨hnumber _, List.forall_mem_append.mpr ⟨?_, ih⟩⟩
    exact fun c hc => Or.inr (hgap c hc)

theorem Numbers.exists_digit (h : Numbers ns cs) : ∃ c ∈ cs, c.isDigit = true := by
  have hnumber : ∀ (n : Int64) (rest : List Char), ∃ c ∈ decimal n ++ rest, c.isDigit = true := by
    intro n rest
    obtain ⟨c, hc⟩ := List.exists_mem_of_ne_nil _ (decimal_ne_nil n)
    exact ⟨c, List.mem_append_left rest hc, isDigit_of_mem_decimal c hc⟩
  cases h <;> exact hnumber _ _

theorem exists_numbers (hne : ns ≠ []) (h : ∀ n ∈ ns, 0 ≤ n) : ∃ cs, Numbers ns cs := by
  induction ns with
  | nil => exact absurd rfl hne
  | cons n ns ih =>
    obtain ⟨hn, h⟩ := List.forall_mem_cons.mp h
    cases ns with
    | nil => exact ⟨_, .last hn gap_nil⟩
    | cons m ns =>
      obtain ⟨cs, hcs⟩ := ih (List.cons_ne_nil m ns) h
      exact ⟨_, .more hn (List.cons_ne_nil ' ' []) (by simp [Gap]) hcs⟩

/-- The runs of digits are the numbers. -/
theorem Numbers.maximalRuns (h : Numbers ns cs) : MaximalRuns cs (ns.map decimal) := by
  induction h with
  | @last n gap _ hgap =>
    have hrest : MaximalRuns gap [] := by
      have hruns := MaximalRuns.nil.after_gap hgap.isSeparator
      rwa [List.append_nil] at hruns
    refine .run (decimal_ne_nil n) isDigit_of_mem_decimal (fun c hc => ?_) hrest
    exact isDigit_of_isSeparator (hgap.isSeparator c (List.mem_of_mem_head? hc))
  | @more n ns gap cs _ hne hgap _ ih =>
    refine .run (decimal_ne_nil n) isDigit_of_mem_decimal (fun c hc => ?_)
      (ih.after_gap hgap.isSeparator)
    rw [List.head?_append_of_ne_nil _ hne] at hc
    exact isDigit_of_isSeparator (hgap.isSeparator c (List.mem_of_mem_head? hc))

namespace ListLine

theorem listable (h : ListLine ns line) : Listable line := by
  obtain ⟨hgap, h⟩ := h
  obtain ⟨c, hc, hdigit⟩ := h.exists_digit
  refine ⟨List.forall_mem_append.mpr ⟨fun d hd => Or.inr (hgap d hd), h.allowed⟩, c, ?_, hdigit⟩
  exact List.mem_append_right _ hc

/-- A line is read as the numbers which are written on it. -/
theorem read_eq_ok (h : ListLine ns line) : read line = .ok ns := by
  have hvalues : ns.map Int64.toInt =
      (ns.map decimal).map fun run => (Text.value run : Int) := by
    obtain ⟨_, h⟩ := h
    rw [List.map_map]
    exact List.map_congr_left fun n hn => (value_decimal (h.nonneg n hn)).symm
  have hruns : MaximalRuns line (ns.map decimal) := by
    obtain ⟨hgap, h⟩ := h
    exact h.maximalRuns.after_gap hgap.isSeparator
  have hlist := h.listable
  rw [← String.toList_ofList (l := line)] at hlist hruns ⊢
  exact parse_of_reads (.numbers hlist hruns hvalues)

theorem not_blank (h : ListLine ns line) : line.all Text.isBlank = false := by
  obtain ⟨_, c, hc, hdigit⟩ := h.listable
  exact List.all_eq_false.mpr ⟨c, hc, by simp [Text.isBlank_of_isDigit hdigit]⟩

/-- There is no character at which a line could end. -/
theorem not_mem (h : ListLine ns line) {c : Char} (hc : c = '\n' ∨ c = '\r') : c ∉ line := by
  intro hmem
  have hallowed := h.listable.1 c hmem
  rcases hc with rfl | rfl <;> exact absurd hallowed (by decide)

end ListLine

theorem exists_listLine_iff : (∃ line, ListLine ns line) ↔ ns ≠ [] ∧ ∀ n ∈ ns, 0 ≤ n := by
  constructor
  · rintro ⟨_, _, h⟩
    exact ⟨by cases h <;> exact List.cons_ne_nil _ _, h.nonneg⟩
  · rintro ⟨hne, h⟩
    obtain ⟨cs, hcs⟩ := exists_numbers hne h
    exact ⟨_, .mk gap_nil hcs⟩

end MintermList

/-! ## Problems -/

namespace ProblemFile

/-- The lines of a problem, with blank lines before, between and after them. -/
inductive IsProblem (on off : List Int64) : List (List Char) → Prop
  | mk {onLine offLine : List Char} {before between after : List (List Char)}
      (hon : MintermList.ListLine on onLine) (hoff : MintermList.ListLine off offLine)
      (hblank : ∀ line ∈ before ++ between ++ after, BlankLine line) :
      IsProblem on off (before ++ onLine :: (between ++ offLine :: after))

variable {on off : List Int64}

theorem BlankLine.all_isBlank {line : List Char} (h : BlankLine line) :
    line.all Text.isBlank = true :=
  List.all_eq_true.mpr h.1

theorem IsProblem.blank_or_list {lines : List (List Char)} (h : IsProblem on off lines) :
    ∀ line ∈ lines, BlankLine line ∨ ∃ ns, MintermList.ListLine ns line := by
  obtain ⟨hon, hoff, hblank⟩ := h
  simp only [List.forall_mem_append, List.forall_mem_cons] at hblank ⊢
  obtain ⟨⟨hbefore, hbetween⟩, hafter⟩ := hblank
  exact ⟨fun line hline => Or.inl (hbefore line hline), Or.inr ⟨on, hon⟩,
    fun line hline => Or.inl (hbetween line hline), Or.inr ⟨off, hoff⟩,
    fun line hline => Or.inl (hafter line hline)⟩

/-- Two lines of a problem are not blank. -/
theorem IsProblem.filter_lines {lines : List (List Char)} (h : IsProblem on off lines) :
    ∃ onLine offLine, MintermList.ListLine on onLine ∧ MintermList.ListLine off offLine ∧
      lines.filter (fun line => !line.all Text.isBlank) = [onLine, offLine] := by
  obtain ⟨hon, hoff, hblank⟩ := h
  refine ⟨_, _, hon, hoff, ?_⟩
  have hskip : ∀ ls : List (List Char), (∀ line ∈ ls, BlankLine line) →
      ls.filter (fun line => !line.all Text.isBlank) = [] := fun ls hls =>
    List.filter_eq_nil_iff.mpr fun line hline => by simp [(hls line hline).all_isBlank]
  simp only [List.forall_mem_append] at hblank
  obtain ⟨⟨hbefore, hbetween⟩, hafter⟩ := hblank
  rw [List.filter_append, List.filter_cons_of_pos (by rw [hon.not_blank]; rfl),
    List.filter_append, List.filter_cons_of_pos (by rw [hoff.not_blank]; rfl), hskip _ hbefore,
    hskip _ hbetween, hskip _ hafter]
  rfl

/-- The two lines which are not blank are read. -/
theorem parse_of_written {lines : List (List Char)} {text : String}
    (hlines : IsProblem on off lines) (h : Text.Written lines text.toList) :
    parse text = .ok (on, off) := by
  have hfeed : ∀ line ∈ lines, '\n' ∉ line := fun line hline =>
    (hlines.blank_or_list line hline).elim (·.2) fun ⟨_, hlist⟩ => hlist.not_mem (Or.inl rfl)
  have hreturn : ∀ line ∈ lines, line.all Text.isBlank = true ∨ '\r' ∉ line := fun line hline =>
    (hlines.blank_or_list line hline).imp (·.all_isBlank) fun ⟨_, hlist⟩ =>
      hlist.not_mem (Or.inr rfl)
  obtain ⟨onLine, offLine, hon, hoff, hfilter⟩ := hlines.filter_lines
  rw [parse, contentLines_of_written h hfeed hreturn, hfilter]
  simp only [hon.read_eq_ok, hoff.read_eq_ok]
  rfl

/-- The bytes of a text are read as the text. -/
theorem read_toUTF8 (text : String) : read (.ok text.toUTF8) = (parse text).mapError .text := by
  have hbytes : String.fromUTF8? text.toUTF8 = some text := dif_pos text.isValidUTF8
  simp only [read, hbytes]

/-- A problem is read again. It may be written with any line breaks, and with blank lines anywhere;
    or its two lines are saved, and the file is read. There are such lines exactly for the
    non-empty lists of numbers which are not negative. -/
theorem parse_written_problem (on off : List Int64) :
    (∀ (lines : List (List Char)) (text : String), IsProblem on off lines →
      Text.Written lines text.toList → parse text = .ok (on, off)) ∧
    (∀ onLine offLine, MintermList.ListLine on onLine → MintermList.ListLine off offLine →
      read (.ok (Text.ofLines [String.ofList onLine, String.ofList offLine]).toUTF8) =
        .ok (on, off)) ∧
    ∀ ns, (∃ line, MintermList.ListLine ns line) ↔ ns ≠ [] ∧ ∀ n ∈ ns, 0 ≤ n := by
  refine ⟨fun lines text hlines h => parse_of_written hlines h, fun onLine offLine hon hoff => ?_,
    fun ns => MintermList.exists_listLine_iff⟩
  have hproblem : IsProblem on off [onLine, offLine] :=
    @IsProblem.mk on off onLine offLine [] [] [] hon hoff (by simp)
  have htext : Text.Written [onLine, offLine]
      (Text.ofLines [String.ofList onLine, String.ofList offLine]).toList := by
    have h : Text.Written [onLine, offLine] (onLine ++ '\n' :: (offLine ++ '\n' :: [])) :=
      .lineFeed (.lineFeed .nil)
    simpa [Text.ofLines] using h
  rw [read_toUTF8, parse_of_written hproblem htext]
  rfl

/-- Lines with both kinds of ends, among them blank ones, and a last line without an end. -/
theorem parse_written_problem_mixed :
    let onLine := [' ', ';', '3', ',', '\t', '0']
    let offLine := "9223372036854775807 ".toList
    let lines := [[], onLine, ['\u3000', '\r'], offLine, ['\t']]
    let text := "\r\n ;3,\t0\r\n\u3000\r\n9223372036854775807 \n\t"
    IsProblem [3, 0] [9223372036854775807] lines ∧ Text.Written lines text.toList ∧
      parse text = .ok ([3, 0], [9223372036854775807]) ∧
      MintermList.ListLine [3, 0] onLine ∧ MintermList.ListLine [9223372036854775807] offLine ∧
      read (.ok (Text.ofLines [String.ofList onLine, String.ofList offLine]).toUTF8) =
        .ok ([3, 0], [9223372036854775807]) := by
  intro onLine offLine lines text
  have hon : MintermList.ListLine [3, 0] onLine := by
    have hzero : MintermList.Numbers [0] (MintermList.decimal 0 ++ []) :=
      .last (by decide) MintermList.gap_nil
    have hnumbers := hzero.more (n := 3) (by decide) (List.cons_ne_nil ',' ['\t']) (by decide)
    exact @MintermList.ListLine.mk _ [' ', ';'] _ (by decide) hnumbers
  have hoff : MintermList.ListLine [9223372036854775807] offLine := by
    have hnumbers : MintermList.Numbers [9223372036854775807]
        (MintermList.decimal 9223372036854775807 ++ [' ']) := .last (by decide) (by decide)
    exact @MintermList.ListLine.mk _ [] _ MintermList.gap_nil hnumbers
  have hlines : IsProblem [3, 0] [9223372036854775807] lines :=
    @IsProblem.mk _ _ onLine offLine [[]] [['\u3000', '\r']] [['\t']] hon hoff (by decide)
  have hwritten : Text.Written lines text.toList := by
    have htext : text.toList = [] ++ '\r' :: '\n' :: (onLine ++ '\r' :: '\n' ::
        (['\u3000', '\r'] ++ '\n' :: (offLine ++ '\n' :: ['\t']))) := by
      decide +kernel
    rw [htext]
    exact .carriageReturn (.carriageReturn (.lineFeed (.lineFeed .unended)))
  exact ⟨hlines, hwritten, (parse_written_problem _ _).1 lines text hlines hwritten, hon, hoff,
    (parse_written_problem _ _).2.1 onLine offLine hon hoff⟩

end ProblemFile

end TwoLevel
