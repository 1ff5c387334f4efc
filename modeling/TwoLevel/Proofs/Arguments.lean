/-
  Requests written as arguments, and read again.

  A request is given by its settings, one for each option. A setting can be spelled in several
  ways (`Spelled`), and the settings can stand in any order. `SpelledBy o args`: the arguments
  spell the settings of the request `o`, each of them once; those which name what is taken anyway
  may be left out.

  The arguments of one setting are read as this setting, whatever was read before
  (`readAll_spelled`, `readAll_spelling`). As the settings of a request belong to different options,
  none of them is refused (`put_records`, `foldlM_put_records`), and they make the request again
  (`parse_eq_some_iff`, `parse_of_spelledBy`).
-/
import TwoLevel.CommandLine.Options
import Mathlib

namespace TwoLevel.CommandLine

/-! ## Settings -/

/-- What one option says. -/
inductive Setting where
  | value (key : Key) (text : String)
  | all
  deriving DecidableEq

namespace Setting

/-- The option, if it is one with a value. -/
def key? : Setting → Option Key
  | value key _ => some key
  | all => none

/-- The settings which may be left out. -/
def standard : List Setting :=
  [value .method Method.standard.name, value .style Style.standard.name]

end Setting

def Source.settings : Source → List Setting
  | lists on off => [.value .on on, .value .off off]
  | file path => [.value .file path]

/-- The settings which make a request. -/
def Options.settings (o : Options) : List Setting :=
  o.source.settings ++ [.value .method o.method.name, .value .style o.style.name] ++
    (if o.all then [.all] else []) ++ (o.save.map (.value .save)).toList

/-! ## Spellings -/

/-- The text may be an argument of its own. -/
def Standalone (text : String) : Prop :=
  text.toList = ['-'] ∨ text.toList.head? ≠ some '-'

instance (text : String) : Decidable (Standalone text) :=
  inferInstanceAs (Decidable (_ ∨ _))

/-- The ways to write a setting, by the name of the option or by its letter. -/
inductive Spelled : Setting → List String → Prop
  | apart {key : Key} {text : String} (h : Standalone text) :
      Spelled (.value key text) ["--" ++ key.long, text]
  | equals {key : Key} {text : String} :
      Spelled (.value key text) ["--" ++ key.long ++ "=" ++ text]
  | letterApart {key : Key} {text : String} {c : Char} (hc : key.short? = some c)
      (h : Standalone text) : Spelled (.value key text) [String.ofList ['-', c], text]
  | letterEquals {key : Key} {text : String} {c : Char} (hc : key.short? = some c) :
      Spelled (.value key text) [String.ofList ['-', c, '='] ++ text]
  | letterJoined {key : Key} {text : String} {c : Char} (hc : key.short? = some c)
      (hne : text.toList ≠ []) (h : text.toList.head? ≠ some '=') :
      Spelled (.value key text) [String.ofList ['-', c] ++ text]
  | all : Spelled .all ["--all"]
  | letterAll : Spelled .all ["-a"]

/-- Several settings, written one after the other. -/
inductive Spelling : List Setting → List String → Prop
  | nil : Spelling [] []
  | cons {s : Setting} {settings : List Setting} {args rest : List String} (hs : Spelled s args)
      (hrest : Spelling settings rest) : Spelling (s :: settings) (args ++ rest)

/-- The arguments spell the settings of a request, each once and in some order. Those which name
    what is taken anyway may be missing. -/
structure Options.SpelledBy (o : Options) (args : List String) : Prop where
  spelling : ∃ settings, Spelling settings args ∧ (settings.map Setting.key?).Nodup ∧
    (∀ s ∈ settings, s ∈ o.settings) ∧ ∀ s ∈ o.settings, s ∈ settings ∨ s ∈ Setting.standard
  file_ne : o.source ≠ .file ""
  save_ne : o.save ≠ some ""

/-! ## Reading one setting -/

namespace Key

theorem ofLong?_long (key : Key) : ofLong? key.long.toList = some key := by
  cases key <;> rfl

theorem ofShort?_eq {key : Key} {c : Char} (h : key.short? = some c) : ofShort? c = some key := by
  cases key <;> cases h <;> decide

theorem short?_ne {key : Key} {c : Char} (h : key.short? = some c) : c ≠ 'a' ∧ c ≠ '-' := by
  cases key <;> cases h <;> decide

theorem ne_equals_of_mem_long {key : Key} {c : Char} (h : c ∈ key.long.toList) :
    (c != '=') = true := by
  have hall : (key.long.toList.all fun c => c != '=') = true := by cases key <;> rfl
  exact List.all_eq_true.mp hall c h

end Key

namespace Arguments

/-- Adds a setting to those read so far. -/
def put (r : Arguments) : Setting → Option Arguments
  | .value key text => r.set key text.toList
  | .all => r.setAll

/-- A setting is complete. -/
theorem next_of_put {r r' : Arguments} {s : Setting} (h : r.put s = some r') :
    r'.next = .option := by
  cases s <;>
    · simp only [put, set, setAll] at h
      split at h
      · cases h
      · rw [← Option.some.inj h]

/-- A name with nothing behind it waits for its value. -/
theorem readLong_name (r : Arguments) (key : Key) :
    r.readLong key.long.toList = some ⟨r.values, r.all, .value key⟩ := by
  have htake : key.long.toList.takeWhile (· != '=') = key.long.toList :=
    List.takeWhile_eq_self_iff.mpr fun c => Key.ne_equals_of_mem_long
  have hdrop : key.long.toList.dropWhile (· != '=') = [] :=
    List.dropWhile_eq_nil_iff.mpr fun c => Key.ne_equals_of_mem_long
  simp only [readLong, htake, hdrop, Key.ofLong?_long]

theorem readLong_equals (r : Arguments) (key : Key) (text : List Char) :
    r.readLong (key.long.toList ++ '=' :: text) = r.set key text := by
  have hname : ∀ c ∈ key.long.toList, (c != '=') = true := fun c => Key.ne_equals_of_mem_long
  simp [readLong, List.takeWhile_append_of_pos hname, List.dropWhile_append_of_pos hname,
    Key.ofLong?_long]

theorem readShort_letter (r : Arguments) {key : Key} {c : Char} (hc : key.short? = some c) :
    r.readShort [c] = some ⟨r.values, r.all, .value key⟩ := by
  unfold readShort
  rw [if_neg (Key.short?_ne hc).1, Key.ofShort?_eq hc]

theorem readShort_equals (r : Arguments) {key : Key} {c : Char} (hc : key.short? = some c)
    (text : List Char) : r.readShort (c :: '=' :: text) = r.set key text := by
  unfold readShort
  rw [if_neg (Key.short?_ne hc).1, Key.ofShort?_eq hc]
  rfl

theorem readShort_joined (r : Arguments) {key : Key} {c : Char} (hc : key.short? = some c)
    {text : List Char} (hne : text ≠ []) (h : text.head? ≠ some '=') :
    r.readShort (c :: text) = r.set key text := by
  obtain ⟨d, rest, rfl⟩ := List.exists_cons_of_ne_nil hne
  have hd : d ≠ '=' := fun heq => h (congrArg some heq)
  unfold readShort
  rw [if_neg (Key.short?_ne hc).1, Key.ofShort?_eq hc]
  split <;> simp_all

variable {r : Arguments}

theorem read_value {key : Key} {text : List Char} (hr : r.next = .value key)
    (h : text = ['-'] ∨ text.head? ≠ some '-') : r.read text = r.set key text := by
  unfold read
  rw [hr]
  split <;> simp_all

theorem read_long (hr : r.next = .option) {body : List Char} (hne : body ≠ []) :
    r.read ('-' :: '-' :: body) = r.readLong body := by
  obtain ⟨c, rest, rfl⟩ := List.exists_cons_of_ne_nil hne
  unfold read
  rw [hr]
  rfl

theorem read_short (hr : r.next = .option) {c : Char} (hc : c ≠ '-') (rest : List Char) :
    r.read ('-' :: c :: rest) = r.readShort (c :: rest) := by
  unfold read
  rw [hr]
  split <;> simp_all

/-- Reads several arguments. -/
def readAll (r : Arguments) (args : List String) : Option Arguments :=
  args.foldlM (fun r arg => r.read arg.toList) r

theorem readAll_one (r : Arguments) (arg : String) : r.readAll [arg] = r.read arg.toList := by
  rw [readAll, List.foldlM_cons]
  exact bind_pure _

theorem readAll_append (r : Arguments) (args rest : List String) :
    r.readAll (args ++ rest) = (r.readAll args).bind (·.readAll rest) :=
  List.foldlM_append

theorem readAll_two {r' : Arguments} {arg : String} (h : r.read arg.toList = some r')
    (value : String) : r.readAll [arg, value] = r'.read value.toList := by
  rw [← List.singleton_append, readAll_append, readAll_one, h, Option.bind_some, readAll_one]

/-- A setting is read as it is spelled, in each of the ways. -/
theorem readAll_spelled {s : Setting} {args : List String} (h : Spelled s args)
    (hr : r.next = .option) : r.readAll args = r.put s := by
  cases h with
  | @apart key text hvalue =>
    -- The name leaves the reader waiting for a value, and only then the text counts as one.
    have hname : key.long.toList ≠ [] := by cases key <;> decide
    have hfirst : r.read ("--" ++ key.long).toList = some ⟨r.values, r.all, .value key⟩ := by
      rw [String.toList_append]
      exact (read_long hr hname).trans (readLong_name r key)
    rw [readAll_two hfirst, read_value rfl hvalue]
    rfl
  | @equals key text =>
    have hbody : key.long.toList ++ '=' :: text.toList ≠ [] := by simp
    have hchars : ("--" ++ key.long ++ "=" ++ text).toList =
        '-' :: '-' :: (key.long.toList ++ '=' :: text.toList) := by simp
    rw [readAll_one, hchars, read_long hr hbody, readLong_equals]
    rfl
  | @letterApart key text c hc hvalue =>
    have hfirst : r.read (String.ofList ['-', c]).toList =
        some ⟨r.values, r.all, .value key⟩ := by
      rw [String.toList_ofList, read_short hr (Key.short?_ne hc).2, readShort_letter r hc]
    rw [readAll_two hfirst, read_value rfl hvalue]
    rfl
  | @letterEquals key text c hc =>
    have hchars : (String.ofList ['-', c, '='] ++ text).toList =
        '-' :: c :: '=' :: text.toList := by simp
    rw [readAll_one, hchars, read_short hr (Key.short?_ne hc).2, readShort_equals r hc]
    rfl
  | @letterJoined key text c hc hne hvalue =>
    have hchars : (String.ofList ['-', c] ++ text).toList = '-' :: c :: text.toList := by simp
    rw [readAll_one, hchars, read_short hr (Key.short?_ne hc).2, readShort_joined r hc hne hvalue]
    rfl
  | all =>
    have hchars : "--all".toList = ['-', '-', 'a', 'l', 'l'] := rfl
    rw [readAll_one, hchars, read_long hr (by decide)]
    rfl
  | letterAll =>
    have hchars : "-a".toList = ['-', 'a'] := rfl
    rw [readAll_one, hchars, read_short hr (by decide)]
    exact bind_pure r.setAll

/-! ## Reading all settings -/

/-- The arguments read so far are those of the settings. -/
structure Records (r : Arguments) (settings : List Setting) : Prop where
  next : r.next = .option
  value?_iff : ∀ key text, r.value? key = some text ↔ .value key text ∈ settings
  all_iff : r.all = true ↔ .all ∈ settings

theorem value?_cons (r : Arguments) (key k : Key) (text : String) :
    (⟨(key, text) :: r.values, r.all, .option⟩ : Arguments).value? k =
      if k = key then some text else r.value? k := by
  rw [value?, List.lookup_cons]
  by_cases hk : k = key
  · simp [hk]
  · rw [if_neg hk, beq_false_of_ne hk]
    rfl

theorem records_empty : empty.Records [] :=
  ⟨rfl, fun _ _ => by simp [empty, value?], by simp [empty]⟩

/-- A setting is added if no other one belongs to its option. -/
theorem put_records {settings : List Setting} {s : Setting} (h : r.Records settings)
    (hs : s.key? ∉ settings.map Setting.key?) :
    ∃ r', r.put s = some r' ∧ r'.Records (settings ++ [s]) := by
  cases s with
  | value key text =>
    -- A value read before would be that of a setting of the same option.
    have hnone : r.value? key = none := by
      refine Option.eq_none_iff_forall_ne_some.mpr fun other hother => hs ?_
      exact List.mem_map.mpr ⟨_, (h.value?_iff key other).mp hother, rfl⟩
    refine ⟨⟨(key, text) :: r.values, r.all, .option⟩, ?_, rfl, fun k t => ?_, ?_⟩
    · simp [put, set, hnone]
    · rw [List.mem_append, List.mem_singleton, ← h.value?_iff, value?_cons]
      split
      · next hk =>
        subst hk
        simp [hnone, eq_comm]
      · next hk => simp [hk]
    · simp [h.all_iff]
  | all =>
    have hall : ¬ r.all = true := fun hall =>
      hs (List.mem_map.mpr ⟨_, h.all_iff.mp hall, rfl⟩)
    refine ⟨⟨r.values, true, .option⟩, if_neg hall, rfl, fun k t => ?_, by simp⟩
    rw [List.mem_append, ← h.value?_iff]
    simp [value?]

/-- Settings of different options are all added, in any order. -/
theorem foldlM_put_records {before settings : List Setting} (h : r.Records before)
    (hkeys : ((before ++ settings).map Setting.key?).Nodup) :
    ∃ r', settings.foldlM put r = some r' ∧ r'.Records (before ++ settings) := by
  -- What has been added grows by one setting in each step, and the next one is new to it.
  induction settings generalizing r before with
  | nil => exact ⟨r, rfl, by rwa [List.append_nil]⟩
  | cons s settings ih =>
    have hnew : s.key? ∉ before.map Setting.key? := fun hmem => by
      rw [List.map_append, List.map_cons] at hkeys
      exact (List.nodup_append'.mp hkeys).2.2 hmem List.mem_cons_self
    obtain ⟨r', hput, hr'⟩ := put_records h hnew
    rw [List.append_cons] at hkeys ⊢
    rw [List.foldlM_cons, hput]
    exact ih hr' hkeys

/-- Arguments which spell settings are read by adding these one after the other. -/
theorem readAll_spelling {settings : List Setting} {args : List String}
    (hargs : Spelling settings args) (hr : r.next = .option) :
    r.readAll args = settings.foldlM put r := by
  induction hargs generalizing r with
  | nil => rfl
  | cons hs _ ih =>
    rw [readAll_append, readAll_spelled hs hr, List.foldlM_cons]
    exact Option.bind_congr fun r' hput => ih (next_of_put hput)

theorem ofList_eq_some_iff {args : List String} {r : Arguments} :
    ofList args = some r ↔
      empty.readAll args = some r ∧ ∀ key, r.next ≠ .value key := by
  unfold ofList
  rw [Option.bind_eq_bind, Option.bind_eq_some_iff]
  constructor
  · rintro ⟨r', hread, h⟩
    split at h
    · cases h
    · next hnext =>
      cases h
      exact ⟨hread, hnext⟩
  · rintro ⟨hread, hnext⟩
    refine ⟨r, hread, ?_⟩
    split
    · next key hkey => exact absurd hkey (hnext key)
    · rfl

/-- Arguments which spell settings of different options are read as these settings. -/
theorem ofList_spelling {settings : List Setting} {args : List String}
    (hargs : Spelling settings args) (hkeys : (settings.map Setting.key?).Nodup) :
    ∃ r, ofList args = some r ∧ r.Records settings := by
  obtain ⟨r, hput, hr⟩ := foldlM_put_records records_empty hkeys
  refine ⟨r, ofList_eq_some_iff.mpr ⟨(readAll_spelling hargs rfl).trans hput, ?_⟩, hr⟩
  rw [hr.next]
  exact fun _ => nofun

end Arguments

/-! ## Requests -/

/-- The options which say where the function comes from. -/
def Source.keys : List Key :=
  [.on, .off, .file]

namespace Options

/-- A source is what the options for it say. -/
theorem source?_eq_some_iff {r : Arguments} {source : Source} :
    source? r = some source ↔ source ≠ .file "" ∧ ∀ key ∈ Source.keys, ∀ text,
      r.value? key = some text ↔ .value key text ∈ source.settings := by
  constructor
  · intro h
    unfold source? at h
    split at h
    · next hon hoff hfile =>
      cases h
      exact ⟨nofun, by simp [Source.keys, Source.settings, hon, hoff, hfile, eq_comm]⟩
    · next text hon hoff hfile =>
      obtain ⟨path, hpath, rfl⟩ := Option.map_eq_some_iff.mp h
      unfold path? at hpath
      split at hpath
      · cases hpath
      · next hne =>
        cases hpath
        refine ⟨by simpa using hne, ?_⟩
        simp [Source.keys, Source.settings, hon, hoff, hfile, eq_comm]
    · cases h
  · rintro ⟨hne, h⟩
    have hnone : ∀ key ∈ Source.keys, (∀ text, .value key text ∉ source.settings) →
        r.value? key = none := fun key hkey hnot =>
      Option.eq_none_iff_forall_ne_some.mpr fun text htext => hnot text ((h key hkey text).mp htext)
    cases source with
    | lists on off =>
      have hon : r.value? .on = some on := (h .on (by decide) on).mpr (by simp [Source.settings])
      have hoff : r.value? .off = some off :=
        (h .off (by decide) off).mpr (by simp [Source.settings])
      have hfile : r.value? .file = none := hnone .file (by decide) (by simp [Source.settings])
      rw [source?, hon, hoff, hfile]
    | file path =>
      have hon : r.value? .on = none := hnone .on (by decide) (by simp [Source.settings])
      have hoff : r.value? .off = none := hnone .off (by decide) (by simp [Source.settings])
      have hfile : r.value? .file = some path :=
        (h .file (by decide) path).mpr (by simp [Source.settings])
      have hpath : path ≠ "" := fun heq => hne (congrArg Source.file heq)
      rw [source?, hon, hoff, hfile]
      simp [path?, hpath]

/-- The arguments read so far make the request. -/
structure MadeBy (o : Options) (r : Arguments) : Prop where
  source : source? r = some o.source
  method : method? r = some o.method
  style : style? r = some o.style
  save : save? r = some o.save
  all : r.all = o.all

theorem parse_eq_some_iff {args : List String} {o : Options} :
    parse args = some o ↔ ∃ r, Arguments.ofList args = some r ∧ o.MadeBy r := by
  obtain ⟨source, method, style, all, save⟩ := o
  unfold parse
  simp only [Option.bind_eq_bind, Option.bind_eq_some_iff, Option.pure_def, Option.some.injEq,
    Options.mk.injEq]
  constructor
  · rintro ⟨r, hread, _, hsource, _, hmethod, _, hstyle, _, hsave, rfl, rfl, rfl, rfl, rfl⟩
    exact ⟨r, hread, ⟨hsource, hmethod, hstyle, hsave, rfl⟩⟩
  · rintro ⟨r, hread, ⟨hsource, hmethod, hstyle, hsave, hall⟩⟩
    exact ⟨r, hread, _, hsource, _, hmethod, _, hstyle, _, hsave, rfl, rfl, rfl, hall, rfl⟩

end Options

theorem find?_methodName (m : Method) : (Method.all.find? (·.name = m.name)) = some m := by
  cases m <;> decide

theorem find?_styleName (s : Style) : (Style.all.find? (·.name = s.name)) = some s := by
  cases s <;> decide +kernel

/-- The arguments read are the settings of a request; some of those which may be left out can be
    missing. -/
structure Options.ReadAs (o : Options) (r : Arguments) : Prop where
  given : ∀ key text, r.value? key = some text → .value key text ∈ o.settings
  complete : ∀ key text, .value key text ∈ o.settings →
    r.value? key = some text ∨ .value key text ∈ Setting.standard
  all_eq : r.all = o.all

theorem Options.all_mem_settings {o : Options} : .all ∈ o.settings ↔ o.all = true := by
  cases h : o.source <;> simp [Options.settings, Source.settings, h]

theorem Options.SpelledBy.readAs {o : Options} {args : List String} (h : o.SpelledBy args) :
    ∃ r, Arguments.ofList args = some r ∧ o.ReadAs r := by
  obtain ⟨settings, hargs, hkeys, hsub, hcomplete⟩ := h.spelling
  obtain ⟨r, hread, hr⟩ := Arguments.ofList_spelling hargs hkeys
  refine ⟨r, hread, fun key text hvalue => ?_, fun key text hmem => ?_, ?_⟩
  · exact hsub _ ((hr.value?_iff key text).mp hvalue)
  · exact (hcomplete _ hmem).imp_left (hr.value?_iff key text).mpr
  · have hall : .all ∈ settings ↔ .all ∈ o.settings :=
      ⟨hsub _, fun h => (hcomplete _ h).resolve_right (by simp [Setting.standard])⟩
    rw [Bool.eq_iff_iff, hr.all_iff, hall, Options.all_mem_settings]

namespace Options.ReadAs

variable {o : Options} {r : Arguments} (h : o.ReadAs r)

include h

theorem value?_eq_none {key : Key} (hnot : ∀ text, .value key text ∉ o.settings) :
    r.value? key = none :=
  Option.eq_none_iff_forall_ne_some.mpr fun text htext => hnot text (h.given key text htext)

theorem value?_eq_some {key : Key} {text : String} (hmem : .value key text ∈ o.settings)
    (hnot : .value key text ∉ Setting.standard) : r.value? key = some text :=
  (h.complete key text hmem).resolve_right hnot

theorem source?_eq (hfile : o.source ≠ .file "") : source? r = some o.source := by
  refine source?_eq_some_iff.mpr ⟨hfile, fun key hkey text => ?_⟩
  have hown : .value key text ∈ o.settings ↔ .value key text ∈ o.source.settings := by
    simp only [Source.keys, List.mem_cons, List.not_mem_nil, or_false] at hkey
    rcases hkey with rfl | rfl | rfl <;> simp [settings]
  have hnot : .value key text ∉ Setting.standard := by
    simp only [Source.keys, List.mem_cons, List.not_mem_nil, or_false] at hkey
    rcases hkey with rfl | rfl | rfl <;> simp [Setting.standard]
  exact ⟨fun hvalue => hown.mp (h.given key text hvalue),
    fun hmem => (h.complete key text (hown.mpr hmem)).resolve_right hnot⟩

theorem method?_eq : method? r = some o.method := by
  unfold method?
  cases hvalue : r.value? .method with
  | some name =>
    have hname : name = o.method.name := by
      have hmem := h.given _ _ hvalue
      cases hs : o.source <;> simpa [settings, Source.settings, hs] using hmem
    rw [hname]
    exact find?_methodName o.method
  | none =>
    have hstandard := h.complete .method o.method.name (by simp [settings])
    cases hm : o.method <;>
      simp_all [Setting.standard, Method.name, Method.standard]

theorem style?_eq : style? r = some o.style := by
  unfold style?
  cases hvalue : r.value? .style with
  | some name =>
    have hname : name = o.style.name := by
      have hmem := h.given _ _ hvalue
      cases hs : o.source <;> simpa [settings, Source.settings, hs] using hmem
    rw [hname]
    exact find?_styleName o.style
  | none =>
    have hstandard := h.complete .style o.style.name (by simp [settings])
    cases hs : o.style <;> simp_all [Setting.standard, Style.name, Style.standard]

theorem save?_eq (hsave : o.save ≠ some "") : save? r = some o.save := by
  cases hs : o.save with
  | none =>
    have hnone : r.value? .save = none :=
      h.value?_eq_none fun text => by
        cases hsource : o.source <;> simp [settings, Source.settings, hs, hsource]
    rw [save?, hnone]
  | some path =>
    have hpath : r.value? .save = some path :=
      h.value?_eq_some (by simp [settings, hs]) (by simp [Setting.standard])
    have hne : path ≠ "" := fun heq => hsave (hs.trans (congrArg some heq))
    rw [save?, hpath]
    simp [path?, hne]

end Options.ReadAs

/-- Arguments which spell a request make this request. -/
theorem parse_of_spelledBy {o : Options} {args : List String} (h : o.SpelledBy args) :
    Options.parse args = some o := by
  obtain ⟨r, hread, hr⟩ := h.readAs
  exact Options.parse_eq_some_iff.mpr ⟨r, hread,
    ⟨hr.source?_eq h.file_ne, hr.method?_eq, hr.style?_eq, hr.save?_eq h.save_ne, hr.all_eq⟩⟩

end TwoLevel.CommandLine
