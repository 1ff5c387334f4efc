/-
  Requests with another source.

  A source is what the options for it say (`source?_eq_some_iff`). In arguments which make a request
  these options are given once, and no other one for a source is there (`MadeBy.not_mem_others`).
  So their settings can be exchanged for those of another source, which changes nothing else of the
  request (`MadeBy.exchange`); also where they stand between arguments which spell no request by
  themselves (`parse_exchange`).
-/
import TwoLevel.Proofs.ArgumentSettings

namespace TwoLevel.CommandLine

/-! ## Settings of a source -/

namespace Source

theorem exists_of_mem_settings {source : Source} {s : Setting} (h : s ∈ source.settings) :
    ∃ key ∈ keys, ∃ text, s = .value key text := by
  cases source with
  | lists on off =>
    rcases List.mem_pair.mp h with rfl | rfl
    · exact ⟨.on, by decide, on, rfl⟩
    · exact ⟨.off, by decide, off, rfl⟩
  | file path =>
    obtain rfl := List.mem_singleton.mp h
    exact ⟨.file, by decide, path, rfl⟩

theorem mem_settings_append_iff {source : Source} {s : Setting} {others : List Setting}
    (h : ∀ key ∈ keys, ∀ text, s ≠ .value key text) :
    s ∈ source.settings ++ others ↔ s ∈ others := by
  refine ⟨fun hmem => (List.mem_append.mp hmem).resolve_left fun hmem => ?_,
    List.mem_append_right _⟩
  obtain ⟨key, hkey, text, heq⟩ := exists_of_mem_settings hmem
  exact h key hkey text heq

theorem nodup_settings (source : Source) : (source.settings.map Setting.key?).Nodup := by
  cases source <;> simp [settings, Setting.key?]

/-- Settings of other options may stand beside those of a source. -/
theorem nodup_settings_append (source : Source) {others : List Setting}
    (h : (others.map Setting.key?).Nodup)
    (hnot : ∀ key ∈ keys, ∀ text, .value key text ∉ others) :
    ((source.settings ++ others).map Setting.key?).Nodup := by
  rw [List.map_append]
  refine List.nodup_append'.mpr ⟨source.nodup_settings, h, fun k hk hk' => ?_⟩
  obtain ⟨s, hs, rfl⟩ := List.mem_map.mp hk
  obtain ⟨other, hother, hkey⟩ := List.mem_map.mp hk'
  obtain ⟨key, hmem, text, rfl⟩ := exists_of_mem_settings hs
  cases other with
  | value k t =>
    obtain rfl : k = key := Option.some.inj hkey
    exact hnot k hmem t hother
  | all => cases hkey

theorem settings_ne_nil (source : Source) : source.settings ≠ [] := by
  cases source <;> simp [settings]

theorem eq_of_settings_subset {source other : Source}
    (h : ∀ s ∈ source.settings, s ∈ other.settings) : source = other := by
  cases source <;> cases other <;> simp_all [settings]

end Source

/-! ## Requests -/

namespace Options

/-- Another source in place of the one which was spelled. -/
theorem MadeBy.exchange {o : Options} {s t : Source} {r r' : Arguments} {others : List Setting}
    (h : o.MadeBy r) (hr : r.Records (s.settings ++ others))
    (hr' : r'.Records (t.settings ++ others)) (ht : t ≠ .file "")
    (hothers : ∀ key ∈ Source.keys, ∀ text, .value key text ∉ others) :
    MadeBy { o with source := t } r' := by
  have hvalue : ∀ key ∉ Source.keys, r'.value? key = r.value? key := by
    intro key hkey
    have hnot : ∀ text, ∀ k ∈ Source.keys, ∀ t, Setting.value key text ≠ .value k t := by
      rintro text k hk t heq
      cases heq
      exact hkey hk
    refine Option.ext fun text => ?_
    rw [hr'.value?_iff, hr.value?_iff, Source.mem_settings_append_iff (hnot text),
      Source.mem_settings_append_iff (hnot text)]
  have hall : r'.all = r.all := by
    rw [Bool.eq_iff_iff, hr'.all_iff, hr.all_iff, Source.mem_settings_append_iff (by simp),
      Source.mem_settings_append_iff (by simp)]
  refine ⟨source?_eq_some_iff.mpr ⟨ht, fun key hkey text => ?_⟩, ?_, ?_, ?_, hall.trans h.all⟩
  · rw [hr'.value?_iff, List.mem_append]
    exact or_iff_left (hothers key hkey text)
  · rw [← h.method, method?, method?, hvalue .method (by decide)]
  · rw [← h.style, style?, style?, hvalue .style (by decide)]
  · rw [← h.save, save?, save?, hvalue .save (by decide)]

theorem MadeBy.source_eq {o : Options} {s : Source} {r : Arguments} {others : List Setting}
    (h : o.MadeBy r) (hr : r.Records (s.settings ++ others)) : o.source = s := by
  obtain ⟨_, hsource⟩ := source?_eq_some_iff.mp h.source
  refine (Source.eq_of_settings_subset fun x hx => ?_).symm
  obtain ⟨key, hkey, text, rfl⟩ := Source.exists_of_mem_settings hx
  exact (hsource key hkey text).mp ((hr.value?_iff key text).mpr (List.mem_append_left _ hx))

/-- There is no other option for the source. -/
theorem MadeBy.not_mem_others {o : Options} {s : Source} {r : Arguments} {others : List Setting}
    (h : o.MadeBy r) (hr : r.Records (s.settings ++ others))
    (hkeys : ((s.settings ++ others).map Setting.key?).Nodup) :
    ∀ key ∈ Source.keys, ∀ text, .value key text ∉ others := by
  intro key hkey text hmem
  obtain ⟨_, hsource⟩ := source?_eq_some_iff.mp h.source
  have hvalue := (hr.value?_iff key text).mpr (List.mem_append_right _ hmem)
  have hown : .value key text ∈ s.settings := by
    rw [← h.source_eq hr]
    exact (hsource key hkey text).mp hvalue
  rw [List.map_append] at hkeys
  exact (List.nodup_append'.mp hkeys).2.2 (List.mem_map_of_mem hown) (List.mem_map_of_mem hmem)

/-- What is expected next is no part of a request. -/
theorem MadeBy.expecting {o : Options} {r : Arguments} (h : o.MadeBy r) (next : Expected) :
    o.MadeBy ⟨r.values, r.all, next⟩ :=
  ⟨h.source, h.method, h.style, h.save, h.all⟩

theorem putAll_exchange {o : Options} {s t : Source} {r : Arguments}
    {earlier later : List Setting} {last : Expected} (ht : t ≠ .file "")
    (hput : Arguments.empty.putAll (earlier ++ s.settings ++ later) last = some r)
    (hmade : o.MadeBy r) :
    o.source = s ∧ ∃ r', Arguments.empty.putAll (earlier ++ t.settings ++ later) last = some r' ∧
      r'.next = r.next ∧ MadeBy { o with source := t } r' := by
  -- Only the settings matter, not where they stand.
  have hperm : ∀ source : Source, (earlier ++ source.settings ++ later).Perm
      (source.settings ++ (earlier ++ later)) := fun source => by
    rw [List.append_assoc]
    exact List.perm_append_comm_assoc _ _ _
  have hkeys := Arguments.nodup_of_putAll hput
  obtain ⟨found, hfound, hrecords⟩ := Arguments.putAll_records hkeys last
  obtain rfl := Option.some.inj (hfound.symm.trans hput)
  replace hmade : o.MadeBy found := hmade.expecting found.next
  replace hrecords := hrecords.of_perm (hperm s)
  replace hkeys := ((hperm s).map Setting.key?).nodup_iff.mp hkeys
  have hnot := hmade.not_mem_others hrecords hkeys
  have hothers : ((earlier ++ later).map Setting.key?).Nodup := by
    rw [List.map_append] at hkeys
    exact (List.nodup_append'.mp hkeys).2.1
  have hexchanged :=
    ((hperm t).map Setting.key?).nodup_iff.mpr (t.nodup_settings_append hothers hnot)
  obtain ⟨r', hput', hrecords'⟩ := Arguments.putAll_records hexchanged last
  have hmade' := hmade.exchange hrecords (hrecords'.of_perm (hperm t)) ht hnot
  exact ⟨hmade.source_eq hrecords, _, hput', rfl, hmade'.expecting last⟩

/-- A request stays the same up to its source, if the settings of another source are spelled in
    the same place. -/
theorem parse_exchange {s t : Source} {before after args others : List String} {o : Options}
    (hargs : Spelling s.settings args) (hothers : Spelling t.settings others)
    (ht : t ≠ .file "") (h : parse (before ++ args ++ after) = some o) :
    o.source = s ∧ parse (before ++ others ++ after) = some { o with source := t } := by
  obtain ⟨r, hread, hmade⟩ := parse_eq_some_iff.mp h
  obtain ⟨hread, hlast⟩ := Arguments.ofList_eq_some_iff.mp hread
  rcases Arguments.readAll_between before after with hnone | ⟨earlier, later, last, hbetween⟩
  · rw [hnone _ _ s.settings_ne_nil hargs] at hread
    cases hread
  · rw [hbetween _ _ s.settings_ne_nil hargs] at hread
    obtain ⟨hsource, r', hput, hnext, hmade'⟩ := putAll_exchange ht hread hmade
    have hread' : Arguments.ofList (before ++ others ++ after) = some r' := by
      refine Arguments.ofList_eq_some_iff.mpr ⟨?_, hnext ▸ hlast⟩
      rw [hbetween _ _ t.settings_ne_nil hothers, hput]
    exact ⟨hsource, parse_eq_some_iff.mpr ⟨r', hread', hmade'⟩⟩

end Options

end TwoLevel.CommandLine
