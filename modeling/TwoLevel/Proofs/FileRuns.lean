/-
  Runs on a problem file.

  Lines with content are found again in the file which is made of them (`contentLines_ofLines`), so
  that the same two texts are read from the file as from the arguments (`Source.Gives.load_eq`).
  A run depends on its source only by what is read (`Options.report_congr`), and the other arguments
  make the same request with either source, or none with both (`run_between`). In the latter case
  the two runs may be told apart by the diagnostics only (`Report.SameEffects`).

  If one of the lists is not read, or if they have a common value, every run on them fails, and
  neither prints nor saves anything (`run_of_unanswerable`). `run_file_as_lists` puts this together.
-/
import TwoLevel.Proofs.Outcomes
import TwoLevel.Proofs.ProblemTexts
import TwoLevel.Proofs.Runs
import TwoLevel.Proofs.SourceExchange

namespace TwoLevel

/-! ## Lines with content -/

namespace ProblemFile

/-- A text which is a line of its own, not blank, and which keeps its last character. -/
structure ContentLine (text : String) : Prop where
  noFeed : '\n' ∉ text.toList
  noReturn : text.toList.getLast? ≠ some '\r'
  notBlank : text.toList.all Text.isBlank = false

instance (text : String) : Decidable (ContentLine text) :=
  decidable_of_iff
    ('\n' ∉ text.toList ∧ text.toList.getLast? ≠ some '\r' ∧ text.toList.all Text.isBlank = false)
    ⟨fun h => ⟨h.1, h.2.1, h.2.2⟩, fun h => ⟨h.noFeed, h.noReturn, h.notBlank⟩⟩

/-- Lines with content are found again in the text which is made of them. -/
theorem contentLines_ofLines {lines : List String} (h : ∀ line ∈ lines, ContentLine line) :
    contentLines (Text.ofLines lines).toList = lines.map String.toList := by
  rw [Text.ofLines, String.toList_ofList]
  induction lines with
  | nil => rfl
  | cons line lines ih =>
    obtain ⟨hline, h⟩ := List.forall_mem_cons.mp h
    have hdrop : Text.dropCarriageReturn line.toList = line.toList := if_neg hline.noReturn
    rw [List.flatMap_cons, List.append_assoc, List.singleton_append,
      contentLines_append hline.noFeed, hline.notBlank, if_neg Bool.false_ne_true, hdrop, ih h,
      List.map_cons]

theorem parse_of_contentLines {text on off : String}
    (h : contentLines text.toList = [on.toList, off.toList]) :
    parse text = do
      let ons ← MintermList.parse on
      let offs ← MintermList.parse off
      return (ons, offs) := by
  rw [parse, h]
  rfl

end ProblemFile

namespace CommandLine

/-! ## Sources of the same lists -/

/-- The texts of the two lists, as arguments or as the lines of a file. -/
inductive Source.Gives (files : Files) (on off : String) : Source → Prop
  | lists : Gives files on off (.lists on off)
  | file {path : String} (hne : path ≠ "") (hon : ProblemFile.ContentLine on)
      (hoff : ProblemFile.ContentLine off)
      (hbytes : files.bytes path = .ok (Text.ofLines [on, off]).toUTF8) :
      Gives files on off (.file path)

/-- A list does not parse, or the sets overlap. -/
def Unanswerable (on off : String) : Prop :=
  (∃ e, MintermList.parse on = .error e) ∨ (∃ e, MintermList.parse off = .error e) ∨
    ∃ ons offs n, MintermList.parse on = .ok ons ∧ MintermList.parse off = .ok offs ∧
      n ∈ ons ∧ n ∈ offs

variable {files : Files} {on off : String}

namespace Source.Gives

variable {s t : Source}

theorem ne_file (h : s.Gives files on off) : s ≠ .file "" := by
  cases h with
  | lists => exact nofun
  | file hne => exact fun heq => hne (Source.file.inj heq)

theorem load_eq (h : s.Gives files on off) :
    s.load files.bytes = (Source.lists on off).load files.bytes := by
  cases h with
  | lists => rfl
  | file _ hon hoff hbytes =>
    have hcontent : ∀ line ∈ [on, off], ProblemFile.ContentLine line := by simp [hon, hoff]
    have hlines := ProblemFile.contentLines_ofLines hcontent
    rw [load, load, hbytes, ProblemFile.read_toUTF8, ProblemFile.parse_of_contentLines hlines]
    cases MintermList.parse on with
    | error e => rfl
    | ok ons => cases MintermList.parse off <;> rfl

end Source.Gives

/-- Of a source, only the lists matter. -/
theorem Options.report_congr {o : Options} {t : Source}
    (h : o.source.load files.bytes = t.load files.bytes) :
    o.report files = { o with source := t }.report files := by
  have hsolve : o.solve files.bytes = { o with source := t }.solve files.bytes := by
    rw [Options.solve, Options.solve, h]
  rw [Options.report, Options.report, hsolve]

/-- Two runs end with the same code, and print and save the same. -/
structure Report.SameEffects (r s : Report) : Prop where
  exitCode : r.exitCode = s.exitCode
  stdout : r.stdout = s.stdout
  saved : r.saved = s.saved

section Between

variable {s t : Source} {before after args others : List String} (hs : s.Gives files on off)
  (ht : t.Gives files on off) (hargs : Spelling s.settings args)
  (hothers : Spelling t.settings others)

include hs ht hargs hothers

/-- Arguments which make a request with one source make the same request with the other one. -/
theorem run_between_of_request
    (h : (Options.parse (before ++ args ++ after)).isSome = true) :
    run files (before ++ args ++ after) = run files (before ++ others ++ after) := by
  obtain ⟨o, hparse⟩ := Option.isSome_iff_exists.mp h
  obtain ⟨rfl, hexchanged⟩ := Options.parse_exchange hargs hothers ht.ne_file hparse
  rw [run, run, hparse, hexchanged]
  exact Options.report_congr (hs.load_eq.trans ht.load_eq.symm)

theorem run_between :
    (run files (before ++ args ++ after)).SameEffects (run files (before ++ others ++ after)) := by
  cases hparse : Options.parse (before ++ args ++ after) with
  | some o =>
    rw [run_between_of_request hs ht hargs hothers (by rw [hparse]; rfl)]
    exact ⟨rfl, rfl, rfl⟩
  | none =>
    cases hparse' : Options.parse (before ++ others ++ after) with
    | none =>
      rw [run, run, hparse, hparse']
      exact ⟨rfl, rfl, rfl⟩
    | some o =>
      obtain ⟨_, hexchanged⟩ := Options.parse_exchange hothers hargs hs.ne_file hparse'
      rw [hexchanged] at hparse
      cases hparse

end Between

/-! ## Requests which cannot be answered -/

/-- Either a list cannot be read, or they describe no function. -/
theorem Source.Gives.load_of_unanswerable {source : Source} (hsource : source.Gives files on off)
    (h : Unanswerable on off) :
    (∃ e, source.load files.bytes = .error (.text e)) ∨
      ∃ ons offs reason, source.load files.bytes = .ok (ons, offs) ∧ Refused ons offs reason := by
  rw [hsource.load_eq, Source.load]
  rcases h with ⟨e, he⟩ | ⟨e, he⟩ | ⟨ons, offs, n, hons, hoffs, hn, hn'⟩
  · rw [he]
    exact Or.inl ⟨e, rfl⟩
  · rw [he]
    cases MintermList.parse on with
    | error d => exact Or.inl ⟨d, rfl⟩
    | ok ons => exact Or.inl ⟨e, rfl⟩
  · rw [hons, hoffs]
    obtain ⟨reason, hrefused⟩ :=
      (describes_or_refused ons offs).resolve_left fun h => h.disjoint n hn hn'
    exact Or.inr ⟨ons, offs, reason, rfl, hrefused⟩

theorem Options.solve_of_unanswerable {o : Options} (hsource : o.source.Gives files on off)
    (h : Unanswerable on off) :
    ∃ reason : Error, o.solve files.bytes = .error reason ∧ reason.isInternal = false := by
  unfold Options.solve
  rcases hsource.load_of_unanswerable h with ⟨e, he⟩ | ⟨ons, offs, reason, hload, hrefused⟩
  · rw [he]
    exact ⟨.text e, rfl, rfl⟩
  · obtain ⟨hone, hall⟩ := minimizers_answer ons offs
    refine ⟨.input reason, ?_, rfl⟩
    rw [hload]
    cases o.all with
    | true =>
      have hall := (hall.error_iff _).mpr ⟨reason, hrefused, rfl⟩
      simp only [bind, Except.bind, if_true, hall]
    | false =>
      have hone := ((hone o.method).error_iff _).mpr ⟨reason, hrefused, rfl⟩
      simp only [bind, Except.bind, Bool.false_eq_true, if_false, hone]
      rfl

theorem run_of_unanswerable {o : Options} {args : List String} (h : Unanswerable on off)
    (hsource : o.source.Gives files on off) (hargs : o.SpelledBy args) :
    (run files args).exitCode = 1 ∧ (run files args).stdout = "" ∧
      (run files args).saved = none := by
  obtain ⟨reason, hsolve, hexternal⟩ := Options.solve_of_unanswerable hsource h
  have hrun : run files args = ⟨"", none, some (.problem reason)⟩ := by
    rw [run, parse_of_spelledBy hargs]
    show o.report files = _
    rw [Options.report, hsolve]
  refine ⟨?_, by rw [hrun], by rw [hrun]⟩
  rw [hrun]
  exact if_neg (by rw [hexternal]; exact Bool.false_ne_true)

/-! ## Runs on a file -/

/-- A run on a file with two lists as its lines is one on the two lists as arguments, for all other
    arguments which stand before and after and make a request with them, and for all ways to spell
    one request. With arguments before and after which make no request, the two runs still end with
    the same code and print and save the same. A list which does not parse, or a common value, ends
    every run in the same way: nothing is printed but the error, and nothing is saved. -/
theorem run_file_as_lists (files : Files) (on off : String) :
    (∀ path, (Source.file path).Gives files on off →
      (∀ before after listArgs fileArgs, Spelling [.value .on on, .value .off off] listArgs →
        Spelled (.value .file path) fileArgs →
        (run files (before ++ listArgs ++ after)).SameEffects
          (run files (before ++ fileArgs ++ after)) ∧
        ((Options.parse (before ++ listArgs ++ after)).isSome = true →
          run files (before ++ listArgs ++ after) = run files (before ++ fileArgs ++ after))) ∧
      ∀ method style all save listArgs fileArgs,
        Options.SpelledBy ⟨.lists on off, method, style, all, save⟩ listArgs →
        Options.SpelledBy ⟨.file path, method, style, all, save⟩ fileArgs →
        run files listArgs = run files fileArgs) ∧
    (Unanswerable on off → ∀ o args, o.source.Gives files on off → Options.SpelledBy o args →
      (run files args).exitCode = 1 ∧ (run files args).stdout = "" ∧
        (run files args).saved = none) := by
  refine ⟨fun path hfile => ⟨?_, ?_⟩, fun h o args => run_of_unanswerable h⟩
  · intro before after listArgs fileArgs hlists hpath
    have hpath : Spelling (Source.file path).settings fileArgs := by
      rw [← List.append_nil fileArgs]
      exact .cons hpath .nil
    exact ⟨run_between .lists hfile hlists hpath, run_between_of_request .lists hfile hlists hpath⟩
  · intro method style all save listArgs fileArgs hlists hpath
    rw [run, run, parse_of_spelledBy hlists, parse_of_spelledBy hpath]
    exact Options.report_congr hfile.load_eq.symm

/-- Two sets with a common value, as arguments and as the lines of a file. -/
theorem run_file_as_lists_overlap :
    let on := "1 2"
    let off := "2,\t3 "
    let path := "problem.txt"
    let files : Files :=
      ⟨fun p => if p = path then .ok (Text.ofLines [on, off]).toUTF8 else .error "No such file",
        fun _ => .ok ()⟩
    let lists : Options := ⟨.lists on off, .standard, .standard, true, some "sums.txt"⟩
    let listArgs := ["-a", "--on=1 2", "--off", off, "-s", "sums.txt"]
    let fileArgs := ["-a", "-f=problem.txt", "-s", "sums.txt"]
    (Source.file path).Gives files on off ∧ Unanswerable on off ∧ lists.SpelledBy listArgs ∧
      Options.SpelledBy { lists with source := .file path } fileArgs ∧
      run files listArgs = run files fileArgs ∧
      (run files (listArgs ++ ["-a"])).SameEffects (run files (fileArgs ++ ["-a"])) ∧
      (Options.parse (listArgs ++ ["-mheuristic"])).isSome = true ∧
      run files (listArgs ++ ["-mheuristic"]) = run files (fileArgs ++ ["-mheuristic"]) ∧
      (run files fileArgs).exitCode = 1 ∧ (run files fileArgs).stdout = "" ∧
      (run files fileArgs).saved = none := by
  intro on off path files lists listArgs fileArgs
  have hgives : (Source.file path).Gives files on off :=
    .file (by decide) (by decide) (by decide) rfl
  have hons : MintermList.parse "1 2" = .ok [1, 2] := by rfl
  have hoffs : MintermList.parse "2,\t3 " = .ok [2, 3] := by rfl
  have hoverlap : Unanswerable on off :=
    Or.inr (Or.inr ⟨_, _, 2, hons, hoffs, by simp, by simp⟩)
  have hsave : Spelling [.value .save "sums.txt"] ["-s", "sums.txt"] :=
    .cons (.letterApart rfl (by decide)) .nil
  have hoff : Spelling [.value .off off] ["--off", off] := .cons (.apart (by decide)) .nil
  have hfile : Spelled (.value .file path) ["-f=problem.txt"] :=
    @Spelled.letterEquals .file path 'f' rfl
  have hlists : lists.SpelledBy listArgs :=
    have hspelling : Spelling [.all, .value .on on, .value .off off, .value .save "sums.txt"]
        listArgs :=
      .cons .letterAll (.cons .equals (.cons (.apart (by decide)) hsave))
    ⟨⟨_, hspelling, by decide, by decide, by decide⟩, by decide, by decide⟩
  have hpath : Options.SpelledBy { lists with source := .file path } fileArgs :=
    have hspelling : Spelling _ fileArgs := .cons .letterAll (.cons hfile hsave)
    ⟨⟨_, hspelling, by decide, by decide, by decide⟩, by decide, by decide⟩
  obtain ⟨hequal, hfails⟩ := run_file_as_lists files on off
  obtain ⟨hbetween, hrequest⟩ := hequal path hgives
  have hmethod : (Options.parse (listArgs ++ ["-mheuristic"])).isSome = true := by decide +kernel
  refine ⟨hgives, hoverlap, hlists, hpath, hrequest _ _ _ _ _ _ hlists hpath, ?_, hmethod, ?_,
    hfails hoverlap _ _ hgives hpath⟩
  · exact (hbetween ["-a"] ["-s", "sums.txt", "-a"] _ _ (.cons .equals hoff) hfile).1
  · exact (hbetween ["-a"] ["-s", "sums.txt", "-mheuristic"] _ _ (.cons .equals hoff) hfile).2
      hmethod

end CommandLine

end TwoLevel
