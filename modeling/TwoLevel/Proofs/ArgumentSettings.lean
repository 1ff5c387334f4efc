/-
  What arguments ask for.

  An argument adds settings to those read before, or it leaves an option waiting for its value, or
  it is refused for what it is. Which of these only depends on what is expected; the settings read
  before can only refuse one which is there already (`Asks`). So a list of arguments asks for a list
  of settings (`exists_asks_readAll`), and it does so around spelled settings, too, whatever these
  are (`readAll_between`).

  If all settings belong to different options they are all there in the end (`putAll_records`), and
  else one of them is refused (`nodup_of_putAll`).
-/
import TwoLevel.Proofs.Arguments

namespace TwoLevel.CommandLine.Arguments

/-! ## Settings one after the other -/

/-- Adds the settings, and expects `next` then. -/
def putAll (r : Arguments) (settings : List Setting) (next : Expected) : Option Arguments :=
  (settings.foldlM put r).map fun r => ⟨r.values, r.all, next⟩

/-- What is expected does not matter to settings which are added. -/
theorem putAll_congr {r s : Arguments} (hvalues : r.values = s.values) (hall : r.all = s.all)
    (settings : List Setting) (next : Expected) :
    r.putAll settings next = s.putAll settings next := by
  cases settings with
  | nil => simp [putAll, hvalues, hall]
  | cons setting settings =>
    have hput : r.put setting = s.put setting := by
      obtain ⟨values, all, _⟩ := r
      obtain rfl : values = s.values := hvalues
      obtain rfl : all = s.all := hall
      cases setting <;> rfl
    rw [putAll, putAll, List.foldlM_cons, List.foldlM_cons, hput]

theorem putAll_append (r : Arguments) (settings others : List Setting) (next last : Expected) :
    ((r.putAll settings next).bind fun s => s.putAll others last) =
      r.putAll (settings ++ others) last := by
  unfold putAll
  rw [List.foldlM_append]
  cases settings.foldlM put r with
  | none => rfl
  | some s =>
    have hvalues : (⟨s.values, s.all, next⟩ : Arguments).values = s.values := rfl
    exact putAll_congr hvalues rfl others last

theorem next_of_putAll {r s : Arguments} {settings : List Setting} {next : Expected}
    (h : r.putAll settings next = some s) : s.next = next := by
  obtain ⟨_, _, rfl⟩ := Option.map_eq_some_iff.mp h
  rfl

/-- Settings of different options are all there in the end. -/
theorem putAll_records {settings : List Setting} (h : (settings.map Setting.key?).Nodup)
    (next : Expected) :
    ∃ r : Arguments, empty.putAll settings next = some ⟨r.values, r.all, next⟩ ∧
      r.Records settings := by
  obtain ⟨r, hput, hr⟩ := foldlM_put_records records_empty h
  exact ⟨r, by rw [putAll, hput, Option.map_some], hr⟩

theorem Records.of_perm {r : Arguments} {settings others : List Setting} (h : r.Records settings)
    (hperm : settings.Perm others) : r.Records others :=
  ⟨h.next, fun key text => (h.value?_iff key text).trans hperm.mem_iff,
    h.all_iff.trans hperm.mem_iff⟩

/-- A setting is refused if another one belongs to its option. -/
theorem key?_not_mem_of_put {r r' : Arguments} {settings : List Setting} {s : Setting}
    (h : r.Records settings) (hput : r.put s = some r') : s.key? ∉ settings.map Setting.key? := by
  intro hmem
  obtain ⟨other, hother, hkey⟩ := List.mem_map.mp hmem
  cases s with
  | value key text =>
    cases other with
    | value k t =>
      obtain rfl : k = key := Option.some.inj hkey
      rw [put, set, (h.value?_iff k t).mpr hother] at hput
      cases hput
    | all => cases hkey
  | all =>
    cases other with
    | value k t => cases hkey
    | all =>
      rw [put, setAll, if_pos (h.all_iff.mpr hother)] at hput
      cases hput

theorem nodup_of_foldlM_put {r r' : Arguments} {before settings : List Setting}
    (h : r.Records before) (hbefore : (before.map Setting.key?).Nodup)
    (hput : settings.foldlM put r = some r') :
    ((before ++ settings).map Setting.key?).Nodup := by
  induction settings generalizing r before with
  | nil => rwa [List.append_nil]
  | cons s settings ih =>
    rw [List.foldlM_cons] at hput
    obtain ⟨middle, hfirst, hput⟩ := Option.bind_eq_some_iff.mp hput
    have hnew := key?_not_mem_of_put h hfirst
    obtain ⟨_, hsame, hmiddle⟩ := put_records h hnew
    obtain rfl := Option.some.inj (hsame.symm.trans hfirst)
    rw [List.append_cons]
    refine ih hmiddle ?_ hput
    rw [List.map_append, List.map_singleton]
    exact List.nodup_append'.mpr
      ⟨hbefore, List.nodup_singleton _, List.disjoint_singleton.mpr hnew⟩

theorem nodup_of_putAll {r : Arguments} {settings : List Setting} {next : Expected}
    (h : empty.putAll settings next = some r) : (settings.map Setting.key?).Nodup := by
  obtain ⟨_, hput, _⟩ := Option.map_eq_some_iff.mp h
  exact nodup_of_foldlM_put records_empty List.nodup_nil hput

/-! ## What is asked for -/

/-- A reader which adds the settings of the outcome, or which refuses. -/
def Asks (next : Expected) (read : Arguments → Option Arguments)
    (outcome : Option (List Setting × Expected)) : Prop :=
  ∀ r : Arguments, r.next = next → read r = outcome.bind fun o => r.putAll o.1 o.2

variable {next : Expected}

theorem asks_none : Asks next (fun _ => none) none :=
  fun _ _ => rfl

theorem asks_wait (later : Expected) :
    Asks next (fun r => some ⟨r.values, r.all, later⟩) (some ([], later)) :=
  fun _ _ => rfl

theorem asks_set (key : Key) (text : List Char) :
    Asks next (·.set key text) (some ([.value key (String.ofList text)], .option)) := by
  intro r _
  simp only [Option.bind_some, putAll, List.foldlM_cons, List.foldlM_nil, put,
    String.toList_ofList, set]
  split <;> rfl

theorem asks_setAll : Asks next setAll (some ([.all], .option)) := by
  intro r _
  simp only [Option.bind_some, putAll, List.foldlM_cons, List.foldlM_nil, put, setAll]
  split <;> rfl

/-- One reader after the other: the second finds what the first one leaves it to expect. -/
theorem Asks.bind {f g : Arguments → Option Arguments} {settings : List Setting} {middle : Expected}
    {outcome : Option (List Setting × Expected)} (hf : Asks next f (some (settings, middle)))
    (hg : Asks middle g outcome) :
    Asks next (fun r => (f r).bind g) (outcome.map fun o => (settings ++ o.1, o.2)) := by
  intro r hr
  have hrest : ((r.putAll settings middle).bind g) =
      (r.putAll settings middle).bind fun s => outcome.bind fun o => s.putAll o.1 o.2 :=
    Option.bind_congr fun s hs => hg s (next_of_putAll hs)
  show (f r).bind g = _
  rw [hf r hr, Option.bind_some, hrest]
  cases outcome with
  | none => exact Option.bind_fun_none _
  | some o => exact putAll_append r settings o.1 middle o.2

/-- Readers which agree where this is expected ask for the same. -/
theorem Asks.congr {f g : Arguments → Option Arguments}
    {outcome : Option (List Setting × Expected)} (h : Asks next f outcome)
    (hfg : ∀ values all, f ⟨values, all, next⟩ = g ⟨values, all, next⟩) : Asks next g outcome := by
  rintro ⟨values, all, _⟩ rfl
  rw [← hfg, h _ rfl]

theorem asks_return : Asks next some (some ([], next)) := by
  rintro r rfl
  rfl

theorem exists_asks_readShort (letters : List Char) :
    ∃ outcome, Asks .option (·.readShort letters) outcome := by
  induction letters with
  | nil => exact ⟨_, asks_return⟩
  | cons c rest ih =>
    by_cases hc : c = 'a'
    · obtain ⟨outcome, h⟩ := ih
      simp only [readShort, if_pos hc]
      exact ⟨_, asks_setAll.bind h⟩
    · simp only [readShort, if_neg hc]
      split
      · exact ⟨_, asks_none⟩
      · exact ⟨_, asks_wait _⟩
      · exact ⟨_, asks_set _ _⟩
      · exact ⟨_, asks_set _ _⟩

theorem exists_asks_readLong (body : List Char) :
    ∃ outcome, Asks .option (·.readLong body) outcome := by
  simp only [readLong]
  split
  · exact ⟨_, asks_wait _⟩
  · exact ⟨_, asks_set _ _⟩
  · split
    · exact ⟨_, asks_setAll⟩
    · exact ⟨_, asks_none⟩
  · exact ⟨_, asks_none⟩

theorem exists_asks_read (next : Expected) (arg : List Char) :
    ∃ outcome, Asks next (·.read arg) outcome := by
  -- With `next` in place of `r.next` the cases of the reader are the same for all `r`.
  suffices h : ∃ outcome, Asks next (fun r => read ⟨r.values, r.all, next⟩ arg) outcome by
    obtain ⟨outcome, h⟩ := h
    exact ⟨outcome, h.congr fun _ _ => rfl⟩
  simp only [read]
  split
  · exact ⟨_, asks_none⟩
  · exact ⟨_, asks_set _ _⟩
  · exact ⟨_, asks_none⟩
  · exact ⟨_, asks_set _ _⟩
  · exact ⟨_, asks_wait .nothing⟩
  · next body _ =>
    obtain ⟨outcome, h⟩ := exists_asks_readLong body
    exact ⟨outcome, h.congr fun _ _ => rfl⟩
  · exact ⟨_, asks_none⟩
  · next letters _ _ _ =>
    obtain ⟨outcome, h⟩ := exists_asks_readShort letters
    exact ⟨outcome, h.congr fun _ _ => rfl⟩
  · exact ⟨_, asks_none⟩

theorem Asks.append {args rest : List String} {settings : List Setting} {middle : Expected}
    {outcome : Option (List Setting × Expected)}
    (h : Asks next (·.readAll args) (some (settings, middle)))
    (hrest : Asks middle (·.readAll rest) outcome) :
    Asks next (·.readAll (args ++ rest)) (outcome.map fun o => (settings ++ o.1, o.2)) :=
  (h.bind hrest).congr fun _ _ => (readAll_append _ args rest).symm

theorem Asks.append_none {args : List String} (h : Asks next (·.readAll args) none)
    (rest : List String) : Asks next (·.readAll (args ++ rest)) none := by
  intro r hr
  have hread : r.readAll args = none := h r hr
  show r.readAll (args ++ rest) = none
  rw [readAll_append, hread, Option.bind_none]

/-- Whatever the arguments are, they ask for settings, or they are refused. -/
theorem exists_asks_readAll (next : Expected) (args : List String) :
    ∃ outcome, Asks next (·.readAll args) outcome := by
  induction args generalizing next with
  | nil => exact ⟨_, asks_return⟩
  | cons arg args ih =>
    obtain ⟨outcome, hread⟩ := exists_asks_read next arg.toList
    have hfirst : Asks next (·.readAll [arg]) outcome :=
      hread.congr fun _ _ => (readAll_one _ arg).symm
    cases outcome with
    | none => exact ⟨none, hfirst.append_none args⟩
    | some o =>
      obtain ⟨later, hlater⟩ := ih o.2
      exact ⟨_, hfirst.append hlater⟩

/-! ## Spelled settings between other arguments -/

theorem next_of_foldlM_put {r r' : Arguments} {settings : List Setting} (hr : r.next = .option)
    (h : settings.foldlM put r = some r') : r'.next = .option := by
  induction settings generalizing r with
  | nil => rwa [← Option.some.inj h]
  | cons s settings ih =>
    rw [List.foldlM_cons] at h
    obtain ⟨_, hput, h⟩ := Option.bind_eq_some_iff.mp h
    exact ih (next_of_put hput) h

theorem asks_spelling {settings : List Setting} {args : List String}
    (h : Spelling settings args) : Asks .option (·.readAll args) (some (settings, .option)) := by
  intro r hr
  show r.readAll args = r.putAll settings .option
  rw [readAll_spelling h hr, putAll]
  cases hput : settings.foldlM put r with
  | none => rfl
  | some s =>
    show some s = some ⟨s.values, s.all, .option⟩
    rw [← next_of_foldlM_put hr hput]

/-- A setting starts with an argument which cannot be a value. -/
theorem exists_hyphen_of_spelled {s : Setting} {args : List String} (h : Spelled s args) :
    ∃ arg rest, args = arg :: rest ∧ ∃ c cs, arg.toList = '-' :: c :: cs := by
  cases h <;> exact ⟨_, _, rfl, by simp⟩

theorem asks_spelling_refused {settings : List Setting} {args : List String}
    (h : Spelling settings args) (hne : settings ≠ []) (hnext : next ≠ .option) :
    Asks next (·.readAll args) none := by
  cases h with
  | nil => exact absurd rfl hne
  | @cons _ _ _ others hs _ =>
    obtain ⟨arg, rest, rfl, c, cs, harg⟩ := exists_hyphen_of_spelled hs
    have hfirst : Asks next (·.readAll [arg]) none := by
      intro r hr
      show r.readAll [arg] = none
      rw [readAll_one, harg]
      unfold read
      rw [hr]
      cases next with
      | option => exact absurd rfl hnext
      | value key => rfl
      | nothing => rfl
    exact hfirst.append_none (rest ++ others)

/-- What stands before and after spelled settings asks for the same, whatever these settings are;
    or it is not compatible with any. -/
theorem readAll_between (before after : List String) :
    (∀ settings args, settings ≠ [] → Spelling settings args →
      empty.readAll (before ++ args ++ after) = none) ∨
    ∃ earlier later last, ∀ settings args, settings ≠ [] → Spelling settings args →
      empty.readAll (before ++ args ++ after) =
        empty.putAll (earlier ++ settings ++ later) last := by
  obtain ⟨first, hbefore⟩ := exists_asks_readAll .option before
  cases first with
  | none =>
    refine Or.inl fun settings args _ _ => ?_
    exact (hbefore.append_none args).append_none after empty rfl
  | some o =>
    obtain ⟨earlier, middle⟩ := o
    by_cases hmiddle : middle = .option
    · subst hmiddle
      obtain ⟨rest, hafter⟩ := exists_asks_readAll .option after
      cases rest with
      | none =>
        refine Or.inl fun settings args _ hargs => ?_
        exact (hbefore.append (asks_spelling hargs)).append hafter empty rfl
      | some o =>
        refine Or.inr ⟨earlier, o.1, o.2, fun settings args _ hargs => ?_⟩
        exact (hbefore.append (asks_spelling hargs)).append hafter empty rfl
    · -- An option waits for its value, or nothing may follow.
      refine Or.inl fun settings args hne hargs => ?_
      have hrefused := asks_spelling_refused hargs hne hmiddle
      exact (hbefore.append hrefused).append_none after empty rfl

end TwoLevel.CommandLine.Arguments
