/-
  What a run of the command line prints.

  Two accepted lists without a common value describe a function (`describes_of_parse`). Whatever
  the method, the results are sums in the width of the specification which realise the function
  (`Options.solve_lists`). This width is at most 64, so that their canonical texts can be read
  (`IsResult.readable`): each line gives a sum which realises the function too
  (`IsResult.parse_text`), and different results have different lines (`IsResult.text_injective`).
  `run_lists` puts this together, for all arguments which spell the request.
-/
import TwoLevel.CommandLine.Report
import TwoLevel.Proofs.Arguments
import TwoLevel.Proofs.CanonicalText
import TwoLevel.Proofs.Minimization

namespace TwoLevel

/-! ## Accepted lists -/

namespace MintermList

theorem nonneg_of_readRun {run : List Char} {n : Int64} (h : readRun run = .ok n) : 0 ≤ n := by
  unfold readRun at h
  split at h
  · next hlt =>
    rw [← Except.ok.inj h, Int64.le_iff_toInt_le, Int64.toInt_ofNat_of_lt hlt, Int64.toInt_zero]
    exact Int.natCast_nonneg _
  · cases h

variable {text : String} {ns : List Int64}

theorem isList_of_parse (h : parse text = .ok ns) : isList text.toList = true := by
  unfold parse read at h
  split at h
  · next hlist => exact hlist
  · cases h

theorem nonneg_of_parse (h : parse text = .ok ns) : ∀ n ∈ ns, 0 ≤ n := by
  intro n hn
  have hruns : (runs text.toList).mapM readRun = .ok ns := by
    rwa [parse, read, if_pos (isList_of_parse h)] at h
  obtain ⟨run, _, hrun⟩ := mem_of_mapM_eq_ok hruns hn
  exact nonneg_of_readRun hrun

/-- An accepted list may be an argument of its own. -/
theorem standalone_of_parse (h : parse text = .ok ns) : CommandLine.Standalone text := by
  refine Or.inr fun hhyphen => ?_
  have hall := (Bool.and_eq_true_iff.mp (isList_of_parse h)).1
  have hmem : '-' ∈ text.toList := List.mem_of_mem_head? hhyphen
  exact absurd (List.all_eq_true.mp hall '-' hmem) (by decide)

end MintermList

theorem describes_of_parse {on off : String} {ons offs : List Int64}
    (hon : MintermList.parse on = .ok ons) (hoff : MintermList.parse off = .ok offs)
    (hdisjoint : ∀ n ∈ ons, n ∉ offs) : Describes ons offs :=
  ⟨MintermList.nonneg_of_parse hon, MintermList.nonneg_of_parse hoff, hdisjoint⟩

/-! ## Results and their lines -/

/-- A sum in the width of the specification which realises the function. -/
structure IsResult (on off : List Int64) (e : Expression) : Prop where
  width : e.width = (Specification.encoding on off).width
  terms : ∀ t ∈ e.terms, t.width = (Specification.encoding on off).width
  separates : Separates e on off

namespace IsResult

variable {on off : List Int64} {e d : Expression}

theorem uniform (he : IsResult on off e) : e.Uniform :=
  fun t ht => (he.terms t ht).trans he.width.symm

/-- The variables are bits of words. -/
theorem readable (he : IsResult on off e) : ∀ t ∈ e.terms, t.Readable := fun t ht l hl =>
  calc l.index < t.width := Cube.index_lt_of_mem_literals hl
    _ = (Specification.encoding on off).width := he.terms t ht
    _ ≤ variableLimit := widthFor_le _ _

/-- The line of a result is read as a sum which realises the function, too. -/
theorem parse_text (he : IsResult on off e) :
    ∃ d, Expression.parse e.text = .ok d ∧ d.size = e.size ∧ Separates d on off := by
  obtain ⟨d, hd, hsize, heval⟩ := Expression.parse_text he.uniform he.readable
  refine ⟨d, hd, hsize, fun n hn => ?_, fun n hn => ?_⟩
  · rw [heval, he.separates.1 n hn]
  · rw [heval, he.separates.2 n hn]

/-- Different results have different lines. -/
theorem text_injective (he : IsResult on off e) (hd : IsResult on off d)
    (h : e.text = d.text) : e = d := by
  have hparse := Expression.parseWithWidth_of_readable he.width he.terms he.readable
  rw [h, Expression.parseWithWidth_of_readable hd.width hd.terms hd.readable] at hparse
  exact (Except.ok.inj hparse).symm

theorem of_isMinimumCover (h : Describes on off)
    (hwidth : e.width = (Specification.encoding on off).width)
    (he : IsMinimumCover ((Specification.encoding on off).candidateList .all)
      (Specification.encoding on off).on e.terms.toFinset) : IsResult on off e := by
  have hterms := isCandidate_of_isMinimumCover h he
  exact ⟨hwidth, fun t ht => (hterms t ht).width (Specification.encoding_wellFormed h),
    separates_of_isMinimumCover h he⟩

end IsResult

/-- No line has a line feed in it. -/
theorem Expression.lineFeed_not_mem_text (e : Expression) : '\n' ∉ e.text.toList := by
  rw [toList_text]
  intro hmem
  by_cases hterms : e.terms = []
  · rw [Symbols.expression, hterms] at hmem
    exact absurd hmem (by decide)
  · rw [expression_of_terms hterms] at hmem
    rcases mem_intercalate hmem with hsep | ⟨p, hp, hmem⟩
    · exact absurd hsep (by decide)
    · obtain ⟨t, _, rfl⟩ := List.mem_map.mp hp
      rcases Cube.mem_chars hmem with h | h | h | h <;> exact absurd h (by decide)

/-! ## The search -/

section Described

variable {on off : List Int64} (h : Describes on off)

include h

theorem minimize_isResult (method : Method) :
    ∃ e, minimize method on off = .ok e ∧ IsResult on off e := by
  have hs := Specification.encoding_wellFormed h
  cases method with
  | systematic =>
    obtain ⟨e, he, hwidth, hcover⟩ := systematic_spec h
    exact ⟨e, he, .of_isMinimumCover h hwidth hcover⟩
  | heuristic =>
    obtain ⟨e, he, hwidth, hterms, hcovers⟩ := heuristic_spec h
    have hcandidates : ∀ t ∈ e.terms, (Specification.encoding on off).IsCandidate t :=
      fun t ht => Specification.isCandidate_of_mem hs (hterms t ht)
    exact ⟨e, he, hwidth, fun t ht => (hcandidates t ht).width hs,
      separates_of_covers h hcandidates hcovers⟩

/-- The alternatives differ from each other, and have the same number of terms. -/
theorem minimizeAll_isResult :
    ∃ found, minimizeAll on off = .ok found ∧ found ≠ [] ∧ (∀ e ∈ found, IsResult on off e) ∧
      found.Nodup ∧ ∀ e ∈ found, ∀ d ∈ found, e.size = d.size := by
  obtain ⟨found, _, hfound, hlists⟩ := minimizeAll_spec h
  -- Of two minimum covers neither has more elements than the other.
  have hle : ∀ e ∈ found, ∀ d ∈ found, e.size ≤ d.size := by
    intro e he d hd
    have hmin := hlists.minimum d hd
    rw [Expression.size_eq_card, Expression.size_eq_card]
    exact (hlists.minimum e he).least _ hmin.subset hmin.covers
  refine ⟨found, hfound, hlists.nonempty, fun e he => ?_, List.Nodup.of_map _ hlists.distinct,
    fun e he d hd => Nat.le_antisymm (hle e he d hd) (hle d hd e he)⟩
  exact .of_isMinimumCover h (hlists.width e he) (hlists.minimum e he)

end Described

/-! ## The run -/

namespace CommandLine

variable {o : Options} {ons offs : List Int64}

/-- A request for lists which describe a function is answered. -/
theorem Options.solve_lists {bytes : String → Except String ByteArray}
    (hload : o.source.load bytes = .ok (ons, offs)) (h : Describes ons offs) :
    ∃ found, o.solve bytes = .ok (found.map (·.write o.style)) ∧ found ≠ [] ∧
      (∀ e ∈ found, IsResult ons offs e) ∧
      (o.all = true → found.Nodup ∧ ∀ e ∈ found, ∀ d ∈ found, e.size = d.size) := by
  unfold Options.solve
  rw [hload]
  cases hall : o.all with
  | true =>
    obtain ⟨found, hfound, hne, hresults, hdistinct⟩ := minimizeAll_isResult h
    refine ⟨found, ?_, hne, hresults, fun _ => hdistinct⟩
    simp only [bind, Except.bind, if_true, hfound]
    rfl
  | false =>
    obtain ⟨e, he, hresult⟩ := minimize_isResult h o.method
    refine ⟨[e], ?_, List.cons_ne_nil e [], List.forall_mem_singleton.mpr hresult,
      fun hnot => by cases hnot⟩
    simp only [bind, Except.bind, Bool.false_eq_true, if_false, he]
    rfl

/-- The results are printed, and saved if this is asked for. -/
theorem Options.report_of_solve {files : Files} {results : List String}
    (h : o.solve files.bytes = .ok results)
    (hsave : ∀ path, o.save = some path → files.write path = .ok ()) :
    o.report files = ⟨Text.ofLines results, o.save.map fun _ => Text.ofLines results, none⟩ := by
  unfold Options.report
  rw [h]
  cases hpath : o.save with
  | none => rfl
  | some path =>
    simp only [hsave path hpath]
    rfl

/-- A run on two accepted lists which have no common value, in canonical notation. It ends well
    and prints lines, each of which is read as a sum which realises the function. If all results
    are asked for, they differ from each other and have the same number of terms. What is saved
    is what is printed. -/
theorem run_lists {files : Files} {args : List String} {on off : String} {method : Method}
    {all : Bool} {save : Option String}
    (hargs : Options.SpelledBy ⟨.lists on off, method, .canonical, all, save⟩ args)
    (hon : MintermList.parse on = .ok ons) (hoff : MintermList.parse off = .ok offs)
    (hdisjoint : ∀ n ∈ ons, n ∉ offs)
    (hsave : ∀ path, save = some path → files.write path = .ok ()) :
    ∃ lines, (run files args).exitCode = 0 ∧
      run files args = ⟨Text.ofLines lines, save.map fun _ => Text.ofLines lines, none⟩ ∧
      lines ≠ [] ∧ (∀ line ∈ lines, '\n' ∉ line.toList) ∧
      (∀ line ∈ lines, ∃ d, Expression.parse line = .ok d ∧ Separates d ons offs) ∧
      (all = true → lines.Nodup ∧
        ∃ size, ∀ line ∈ lines, ∃ d, Expression.parse line = .ok d ∧ d.size = size) := by
  have hload : (Source.lists on off).load files.bytes = .ok (ons, offs) := by
    rw [Source.load, hon, hoff]
    rfl
  obtain ⟨found, hsolve, hne, hresults, hall⟩ :=
    Options.solve_lists (o := ⟨.lists on off, method, .canonical, all, save⟩) hload
      (describes_of_parse hon hoff hdisjoint)
  have hrun : run files args = ⟨Text.ofLines (found.map Expression.text),
      save.map fun _ => Text.ofLines (found.map Expression.text), none⟩ := by
    rw [run, parse_of_spelledBy hargs]
    exact Options.report_of_solve hsolve hsave
  refine ⟨found.map Expression.text, by rw [hrun]; rfl, hrun, by simpa using hne,
    List.forall_mem_map.mpr fun e _ => e.lineFeed_not_mem_text,
    List.forall_mem_map.mpr fun e he => ?_, fun hasked => ⟨?_, ?_⟩⟩
  · obtain ⟨d, hd, _, hseparates⟩ := (hresults e he).parse_text
    exact ⟨d, hd, hseparates⟩
  · exact (hall hasked).1.map_on fun e he d hd =>
      (hresults e he).text_injective (hresults d hd)
  · obtain ⟨e, he⟩ := List.exists_mem_of_ne_nil found hne
    refine ⟨e.size, List.forall_mem_map.mpr fun d hd => ?_⟩
    obtain ⟨c, hc, hsize, _⟩ := (hresults d hd).parse_text
    exact ⟨c, hc, hsize.trans ((hall hasked).2 d hd e he)⟩

/-- All results for a cyclic function, with the lists as the last arguments. -/
theorem run_lists_cyclic :
    let files : Files := ⟨fun _ => .error "No such file", fun _ => .ok ()⟩
    let args := ["-a", "-mheuristic", "-s", "sums.txt", "--off", "0,7", "--on=1 2;3 4;5 6"]
    Options.SpelledBy ⟨.lists "1 2;3 4;5 6" "0,7", .heuristic, .canonical, true, some "sums.txt"⟩
        args ∧
      MintermList.parse "1 2;3 4;5 6" = .ok [1, 2, 3, 4, 5, 6] ∧
      MintermList.parse "0,7" = .ok [0, 7] ∧ (∀ n ∈ ([1, 2, 3, 4, 5, 6] : List Int64), n ∉ [0, 7]) ∧
      (∀ path, some "sums.txt" = some path → files.write path = .ok ()) ∧
      ∃ lines, (run files args).exitCode = 0 ∧
        run files args = ⟨Text.ofLines lines, some (Text.ofLines lines), none⟩ ∧
        lines ≠ [] ∧ (∀ line ∈ lines, '\n' ∉ line.toList) ∧
        (∀ line ∈ lines,
          ∃ d, Expression.parse line = .ok d ∧ Separates d [1, 2, 3, 4, 5, 6] [0, 7]) ∧
        lines.Nodup ∧
        ∃ size, ∀ line ∈ lines, ∃ d, Expression.parse line = .ok d ∧ d.size = size := by
  intro files args
  have hon : MintermList.parse "1 2;3 4;5 6" = .ok [1, 2, 3, 4, 5, 6] := by rfl
  have hoff : MintermList.parse "0,7" = .ok [0, 7] := by rfl
  have hspelling : Spelling [.all, .value .method "heuristic", .value .save "sums.txt",
      .value .off "0,7", .value .on "1 2;3 4;5 6"] args :=
    have hmethod : Spelled (.value .method "heuristic") ["-mheuristic"] :=
      @Spelled.letterJoined .method "heuristic" 'm' rfl (by decide) (by decide)
    have hpath : Spelled (.value .save "sums.txt") ["-s", "sums.txt"] :=
      .letterApart rfl (by decide)
    have hoff : Spelled (.value .off "0,7") ["--off", "0,7"] :=
      .apart (MintermList.standalone_of_parse hoff)
    .cons .letterAll (.cons hmethod (.cons hpath (.cons hoff (.cons .equals .nil))))
  have hargs : Options.SpelledBy
      ⟨.lists "1 2;3 4;5 6" "0,7", .heuristic, .canonical, true, some "sums.txt"⟩ args :=
    ⟨⟨_, hspelling, by decide, by decide, by decide⟩, by decide, by decide⟩
  have hdisjoint : ∀ n ∈ ([1, 2, 3, 4, 5, 6] : List Int64), n ∉ [0, 7] := by simp
  have hsave : ∀ path, some "sums.txt" = some path → files.write path = .ok () := fun _ _ => rfl
  obtain ⟨lines, hcode, hrun, hne, hfeed, hread, hall⟩ :=
    run_lists hargs hon hoff hdisjoint hsave
  exact ⟨hargs, hon, hoff, hdisjoint, hsave, lines, hcode, hrun, hne, hfeed, hread, hall rfl⟩

end CommandLine

end TwoLevel
