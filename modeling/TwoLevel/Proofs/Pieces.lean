/-
  Texts which are cut into pieces, and the blanks around a text.

  Pieces which are joined by a separator are what a split gives back: if each piece follows a
  separator (`splitOn_flatMap_cons`), and if the separator stands between blanks and the pieces
  hold neither (`map_trim_splitOn_intercalate`). A list of pieces is read in its order: the
  results are those of the pieces one by one (`mapM_eq_ok_iff`), or else the first piece which
  cannot be read is the one reported (`mapM_eq_error`).
-/
import TwoLevel.Proofs.Lookup
import TwoLevel.Text.Blank

namespace TwoLevel

/-! ## Cutting at the first character of a kind -/

/-- Texts are equal piece by piece, if their first pieces end where a character of another kind
    follows. -/
theorem append_inj_of_span {α : Type} {p : α → Bool} {a b u v : List α} (h : a ++ u = b ++ v)
    (ha : ∀ c ∈ a, p c = true) (hb : ∀ c ∈ b, p c = true)
    (hu : ∀ c ∈ u.head?, p c = false) (hv : ∀ c ∈ v.head?, p c = false) : a = b ∧ u = v := by
  have hspan : ∀ {l r : List α}, (∀ c ∈ l, p c = true) → (∀ c ∈ r.head?, p c = false) →
      (l ++ r).takeWhile p = l := by
    intro l r hl hr
    rw [List.takeWhile_append_of_pos hl]
    cases r with
    | nil => exact List.append_nil l
    | cons c r => rw [List.takeWhile_cons_of_neg (by simp [hr c rfl]), List.append_nil]
  have hab : a = b := by rw [← hspan ha hu, h, hspan hb hv]
  exact ⟨hab, List.append_cancel_left (hab ▸ h)⟩

theorem head?_dropWhile_eq_false {α : Type} (p : α → Bool) (l : List α) :
    ∀ c ∈ (l.dropWhile p).head?, p c = false := by
  intro c hc
  have h := List.head?_dropWhile_not p l
  rwa [hc] at h

/-! ## Cutting at a separator -/

section Split

variable {α : Type} [BEq α] [LawfulBEq α] {x : α}

theorem splitOn_cons_self (x : α) (l : List α) : (x :: l).splitOn x = [] :: l.splitOn x := by
  simp [List.splitOn, List.splitOnP_cons_eq_if_modifyHead]

theorem splitOn_cons_of_ne {c : α} (h : c ≠ x) (l : List α) :
    (c :: l).splitOn x = (l.splitOn x).modifyHead (c :: ·) := by
  simp [List.splitOn, List.splitOnP_cons_eq_if_modifyHead, h]

/-- What holds no separator belongs to the first piece. -/
theorem splitOn_append_of_not_mem {a : List α} (h : x ∉ a) (b : List α) :
    (a ++ b).splitOn x = (b.splitOn x).modifyHead (a ++ ·) := by
  induction a with
  | nil => exact (congrFun List.modifyHead_id _).symm
  | cons c a ih =>
    have hc : c ≠ x := fun heq => h (heq ▸ List.mem_cons_self)
    rw [List.cons_append, splitOn_cons_of_ne hc, ih fun hx => h (List.mem_cons_of_mem c hx),
      List.modifyHead_modifyHead]
    rfl

theorem splitOn_of_not_mem {a : List α} (h : x ∉ a) : a.splitOn x = [a] := by
  have happend := splitOn_append_of_not_mem h []
  rw [List.append_nil] at happend
  rw [happend]
  show [a ++ []] = [a]
  rw [List.append_nil]

/-- Pieces which each follow a separator. -/
theorem splitOn_flatMap_cons {pieces : List (List α)} (h : ∀ p ∈ pieces, x ∉ p) :
    (pieces.flatMap (x :: ·)).splitOn x = [] :: pieces := by
  induction pieces with
  | nil => rfl
  | cons p pieces ih =>
    obtain ⟨hp, hpieces⟩ := List.forall_mem_cons.mp h
    rw [List.flatMap_cons, List.cons_append, splitOn_cons_self, splitOn_append_of_not_mem hp,
      ih hpieces, List.modifyHead_cons, List.append_nil]

end Split

/-- Every piece but the first follows a separator. -/
theorem intercalate_cons_eq {α : Type} (sep piece : List α) (pieces : List (List α)) :
    sep.intercalate (piece :: pieces) = piece ++ pieces.flatMap (sep ++ ·) := by
  induction pieces generalizing piece with
  | nil => rw [List.intercalate_singleton, List.flatMap_nil, List.append_nil]
  | cons q pieces ih =>
    rw [List.intercalate_cons_cons, ih, List.flatMap_cons, List.append_assoc, List.append_assoc]

theorem intercalate_nil_eq_flatten {α : Type} (pieces : List (List α)) :
    [].intercalate pieces = pieces.flatten := by
  cases pieces with
  | nil => rfl
  | cons p pieces =>
    rw [intercalate_cons_eq, List.flatten_cons]
    exact congrArg (p ++ ·) List.flatMap_id

theorem mem_intercalate {α : Type} {sep : List α} {pieces : List (List α)} {a : α}
    (h : a ∈ sep.intercalate pieces) : a ∈ sep ∨ ∃ p ∈ pieces, a ∈ p := by
  cases pieces with
  | nil => cases h
  | cons p pieces =>
    rw [intercalate_cons_eq, List.mem_append, List.mem_flatMap] at h
    rcases h with h | ⟨q, hq, h⟩
    · exact Or.inr ⟨p, List.mem_cons_self, h⟩
    · refine (List.mem_append.mp h).imp_right fun haq => ?_
      exact ⟨q, List.mem_cons_of_mem p hq, haq⟩

section Joined

variable {α : Type} [DecidableEq α] {c : α} {sep : List α}

/-- A piece ends where the next separator begins. -/
theorem append_flatMap_inj {p q : List α} {ps qs : List (List α)} (hp : c ∉ p) (hq : c ∉ q)
    (h : p ++ ps.flatMap ((c :: sep) ++ ·) = q ++ qs.flatMap ((c :: sep) ++ ·)) :
    p = q ∧ ps.flatMap ((c :: sep) ++ ·) = qs.flatMap ((c :: sep) ++ ·) := by
  have hpiece : ∀ {r : List α}, c ∉ r → ∀ x ∈ r, decide (x ≠ c) = true := fun hr x hx =>
    decide_eq_true fun heq => hr (heq ▸ hx)
  have hnext : ∀ (rs : List (List α)), ∀ x ∈ (rs.flatMap ((c :: sep) ++ ·)).head?,
      decide (x ≠ c) = false := by
    intro rs x hx
    cases rs with
    | nil => cases hx
    | cons r rs =>
      cases hx
      simp
  exact append_inj_of_span h (hpiece hp) (hpiece hq) (hnext ps) (hnext qs)

/-- Joined pieces are found again if the separator begins with a character which they do not
    hold. -/
theorem intercalate_injective {ps qs : List (List α)} (hps : ps ≠ []) (hqs : qs ≠ [])
    (hp : ∀ p ∈ ps, c ∉ p) (hq : ∀ q ∈ qs, c ∉ q)
    (h : (c :: sep).intercalate ps = (c :: sep).intercalate qs) : ps = qs := by
  obtain ⟨p, ps, rfl⟩ := List.exists_cons_of_ne_nil hps
  obtain ⟨q, qs, rfl⟩ := List.exists_cons_of_ne_nil hqs
  rw [intercalate_cons_eq, intercalate_cons_eq] at h
  clear hps hqs
  induction ps generalizing p q qs with
  | nil =>
    obtain ⟨hpc, _⟩ := List.forall_mem_cons.mp hp
    obtain ⟨hqc, _⟩ := List.forall_mem_cons.mp hq
    obtain ⟨rfl, hrest⟩ := append_flatMap_inj hpc hqc h
    cases qs with
    | nil => rfl
    | cons r qs => cases hrest
  | cons r ps ih =>
    obtain ⟨hpc, hps⟩ := List.forall_mem_cons.mp hp
    obtain ⟨hqc, hqs⟩ := List.forall_mem_cons.mp hq
    obtain ⟨rfl, hrest⟩ := append_flatMap_inj hpc hqc h
    cases qs with
    | nil => cases hrest
    | cons t qs =>
      rw [List.flatMap_cons, List.flatMap_cons, List.append_assoc, List.append_assoc] at hrest
      rw [ih r hps t qs hqs (List.append_cancel_left hrest)]

end Joined

/-! ## Blanks around a text -/

namespace Text

/-- The text is not empty, and it neither begins nor ends with a blank. -/
structure Tight (cs : List Char) : Prop where
  first : ∃ c rest, cs = c :: rest ∧ isBlank c = false
  last : ∃ rest c, cs = rest ++ [c] ∧ isBlank c = false

theorem tight_of_no_blank {cs : List Char} (hne : cs ≠ []) (h : ∀ c ∈ cs, isBlank c = false) :
    Tight cs := by
  constructor
  · obtain ⟨c, rest, rfl⟩ := List.exists_cons_of_ne_nil hne
    exact ⟨c, rest, rfl, h c List.mem_cons_self⟩
  · exact ⟨cs.dropLast, cs.getLast hne, (List.dropLast_append_getLast hne).symm,
      h _ (List.getLast_mem hne)⟩

/-- What stands between two such texts does not matter. -/
theorem Tight.append {a b : List Char} (ha : Tight a) (hb : Tight b) (middle : List Char) :
    Tight (a ++ middle ++ b) := by
  obtain ⟨c, rest, rfl, hc⟩ := ha.first
  obtain ⟨front, d, rfl, hd⟩ := hb.last
  exact ⟨⟨c, rest ++ middle ++ (front ++ [d]), rfl, hc⟩,
    ⟨c :: rest ++ middle ++ front, d, by simp, hd⟩⟩

theorem Tight.dropWhile {cs : List Char} (h : Tight cs) : cs.dropWhile isBlank = cs := by
  obtain ⟨c, rest, rfl, hc⟩ := h.first
  exact List.dropWhile_cons_of_neg (by simp [hc])

theorem Tight.trimEnd {cs : List Char} (h : Tight cs) : Text.trimEnd cs = cs := by
  obtain ⟨rest, c, rfl, hc⟩ := h.last
  rw [Text.trimEnd, List.reverse_append, List.reverse_singleton, List.singleton_append,
    List.dropWhile_cons_of_neg (by simp [hc])]
  simp

theorem Tight.trim {cs : List Char} (h : Tight cs) : Text.trim cs = cs := by
  rw [Text.trim, h.dropWhile, h.trimEnd]

theorem trim_cons_of_isBlank {b : Char} (hb : isBlank b = true) (cs : List Char) :
    trim (b :: cs) = trim cs := by
  rw [trim, List.dropWhile_cons_of_pos hb]
  rfl

theorem Tight.trim_append_blank {cs : List Char} (h : Tight cs) {b : Char}
    (hb : isBlank b = true) : Text.trim (cs ++ [b]) = cs := by
  obtain ⟨c, rest, rfl, hc⟩ := h.first
  have hend : Text.trimEnd (c :: rest ++ [b]) = Text.trimEnd (c :: rest) := by
    rw [Text.trimEnd, List.reverse_append, List.reverse_singleton, List.singleton_append,
      List.dropWhile_cons_of_pos hb]
    rfl
  rw [Text.trim, List.cons_append, List.dropWhile_cons_of_neg (by simp [hc]), ← List.cons_append,
    hend, h.trimEnd]

/-! ## Pieces between plus signs -/

theorem tight_intercalate (sep : List Char) {pieces : List (List Char)} (hne : pieces ≠ [])
    (h : ∀ p ∈ pieces, Tight p) : Tight (sep.intercalate pieces) := by
  induction pieces with
  | nil => exact absurd rfl hne
  | cons p pieces ih =>
    obtain ⟨hp, hpieces⟩ := List.forall_mem_cons.mp h
    cases pieces with
    | nil => rwa [List.intercalate_singleton]
    | cons q pieces =>
      rw [List.intercalate_cons_cons]
      exact hp.append (ih (List.cons_ne_nil q pieces) hpieces) sep

theorem map_trim_modifyHead {b : Char} (hb : isBlank b = true) (pieces : List (List Char)) :
    (pieces.modifyHead (b :: ·)).map trim = pieces.map trim := by
  cases pieces with
  | nil => rfl
  | cons p pieces =>
    rw [List.modifyHead_cons, List.map_cons, trim_cons_of_isBlank hb]
    rfl

/-- The pieces of a sum are found again, without the blanks around the plus signs. -/
theorem map_trim_splitOn_intercalate {pieces : List (List Char)} (hne : pieces ≠ [])
    (hplus : ∀ p ∈ pieces, '+' ∉ p) (htight : ∀ p ∈ pieces, Tight p) :
    (([' ', '+', ' '].intercalate pieces).splitOn '+').map trim = pieces := by
  induction pieces with
  | nil => exact absurd rfl hne
  | cons p pieces ih =>
    obtain ⟨hp, hplus⟩ := List.forall_mem_cons.mp hplus
    obtain ⟨hptight, htight⟩ := List.forall_mem_cons.mp htight
    cases pieces with
    | nil =>
      rw [List.intercalate_singleton, splitOn_of_not_mem hp, List.map_singleton, hptight.trim]
    | cons q pieces =>
      have hsplit : p ++ [' ', '+', ' '] ++ [' ', '+', ' '].intercalate (q :: pieces) =
          (p ++ [' ']) ++ '+' :: ' ' :: [' ', '+', ' '].intercalate (q :: pieces) := by simp
      have hfirst : '+' ∉ p ++ [' '] := by simp [hp]
      rw [List.intercalate_cons_cons, hsplit, splitOn_append_of_not_mem hfirst, splitOn_cons_self,
        List.modifyHead_cons, List.append_nil, List.map_cons, hptight.trim_append_blank rfl,
        splitOn_cons_of_ne (by decide), map_trim_modifyHead rfl,
        ih (List.cons_ne_nil q pieces) hplus htight]

end Text

/-! ## Reading the pieces -/

theorem mapM_eq_error {ε α β : Type} {f : α → Except ε β} {before after : List α} {a : α} {e : ε}
    (hbefore : ∀ b ∈ before, ∃ y, f b = .ok y) (ha : f a = .error e) :
    (before ++ a :: after).mapM f = .error e := by
  induction before with
  | nil => rw [List.nil_append, List.mapM_cons, ha]; rfl
  | cons b before ih =>
    obtain ⟨⟨y, hy⟩, hbefore⟩ := List.forall_mem_cons.mp hbefore
    rw [List.cons_append, List.mapM_cons, hy, ih hbefore]
    rfl

theorem mapM_eq_some_iff {α β : Type} {f : α → Option β} {l : List α} {bs : List β} :
    l.mapM f = some bs ↔ List.Forall₂ (fun a b => f a = some b) l bs := by
  induction l generalizing bs with
  | nil =>
    rw [List.mapM_nil, List.forall₂_nil_left_iff]
    exact ⟨fun h => (Option.some.inj h).symm, fun h => h ▸ rfl⟩
  | cons a l ih =>
    simp only [List.mapM_cons, Option.bind_eq_bind, Option.bind_eq_some_iff, ih,
      List.forall₂_cons_left_iff]
    constructor
    · intro h
      obtain ⟨b, hb, rest, hrest, heq⟩ := h
      exact ⟨b, rest, hb, hrest, (Option.some.inj heq).symm⟩
    · intro h
      obtain ⟨b, rest, hb, hrest, rfl⟩ := h
      exact ⟨b, hb, rest, hrest, rfl⟩

theorem mapM_eq_ok_iff {ε α β : Type} {f : α → Except ε β} {l : List α} {bs : List β} :
    l.mapM f = .ok bs ↔ List.Forall₂ (fun a b => f a = .ok b) l bs := by
  induction l generalizing bs with
  | nil =>
    rw [List.mapM_nil, List.forall₂_nil_left_iff]
    exact ⟨fun h => (Except.ok.inj h).symm, fun h => h ▸ rfl⟩
  | cons a l ih =>
    rw [List.mapM_cons, List.forall₂_cons_left_iff]
    cases hfa : f a with
    | error e => simp [bind, Except.bind]
    | ok b =>
      cases hrest : l.mapM f with
      | error e => simp [bind, Except.bind, ← ih, hrest]
      | ok cs => simp [bind, Except.bind, pure, Except.pure, ← ih, hrest, eq_comm]

theorem exists_forall₂_iff {α β : Type} {R : α → β → Prop} {l : List α} :
    (∃ bs, List.Forall₂ R l bs) ↔ ∀ a ∈ l, ∃ b, R a b := by
  induction l with
  | nil => simp
  | cons a l ih =>
    rw [List.forall_mem_cons, ← ih]
    constructor
    · rintro ⟨_, _ | ⟨hb, hbs⟩⟩
      exact ⟨⟨_, hb⟩, _, hbs⟩
    · rintro ⟨⟨b, hb⟩, bs, hbs⟩
      exact ⟨b :: bs, .cons hb hbs⟩

theorem exists_mem_iff_of_forall₂ {α β : Type} {R : α → β → Prop} {l : List α} {bs : List β}
    (h : List.Forall₂ R l bs) (hunique : ∀ a b b', R a b → R a b' → b = b') {p : β → Prop} :
    (∃ b ∈ bs, p b) ↔ ∃ a ∈ l, ∃ b, R a b ∧ p b := by
  induction h with
  | nil => simp
  | cons hb _ ih =>
    simp only [List.mem_cons, exists_eq_or_imp, ih]
    refine or_congr_left ⟨fun hp => ⟨_, hb, hp⟩, fun hp => ?_⟩
    obtain ⟨b', hb', hp⟩ := hp
    exact hunique _ _ _ hb' hb ▸ hp

/-- Every result comes from one of the pieces. -/
theorem mem_of_mapM_eq_ok {ε α β : Type} {f : α → Except ε β} {l : List α} {bs : List β}
    (h : l.mapM f = .ok bs) {b : β} (hb : b ∈ bs) : ∃ a ∈ l, f a = .ok b := by
  induction mapM_eq_ok_iff.mp h with
  | nil => cases hb
  | cons hfa hrest ih =>
    rcases List.mem_cons.mp hb with rfl | hb
    · exact ⟨_, List.mem_cons_self, hfa⟩
    · obtain ⟨a, ha, hfa⟩ := ih (mapM_eq_ok_iff.mpr hrest) hb
      exact ⟨a, List.mem_cons_of_mem _ ha, hfa⟩

theorem mapM_eq_none {α β : Type} {f : α → Option β} {l : List α} {a : α} (h : a ∈ l)
    (ha : f a = none) : l.mapM f = none := by
  induction l with
  | nil => cases h
  | cons b l ih =>
    rw [List.mapM_cons]
    rcases List.mem_cons.mp h with rfl | h
    · rw [ha]; rfl
    · rw [ih h]
      cases f b <;> rfl

end TwoLevel
