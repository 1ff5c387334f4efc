/-
  Vectors and cubes as sets of literals.

  A vector of width `w` has a literal for each of its `w` variables, a cube one for each position
  which it fixes. In these terms a cube contains a vector of its width exactly if every literal of
  the cube is a literal of the vector (`contains_iff`), and a cube is determined by its width and
  its literals (`ext_literals`). `mem_literals_ofLiterals`: a cube built from literals which do
  not contradict each other has these literals and no others.
-/
import TwoLevel.Expansion
import Mathlib

namespace TwoLevel

/-! ## Vectors -/

theorem getElem?_literalsOfBits (bits : List Bool) (k : Nat) :
    (literalsOfBits bits)[k]? = bits[k]?.map fun b => ⟨bits.length - 1 - k, b⟩ := by
  induction bits generalizing k with
  | nil => rfl
  | cons b bits ih =>
    cases k with
    | zero => rfl
    | succ k =>
      rw [literalsOfBits, List.getElem?_cons_succ, List.getElem?_cons_succ, ih, List.length_cons,
        show bits.length + 1 - 1 - (k + 1) = bits.length - 1 - k by omega]

theorem length_literalsOfBits (bits : List Bool) : (literalsOfBits bits).length = bits.length := by
  induction bits with
  | nil => rfl
  | cons b bits ih => simp [literalsOfBits, ih]

theorem mem_literalsOfBits {bits : List Bool} {l : Literal} :
    l ∈ literalsOfBits bits ↔
      l.index < bits.length ∧ bits[bits.length - 1 - l.index]? = some l.positive := by
  rw [List.mem_iff_getElem?]
  constructor
  · intro h
    obtain ⟨k, hk⟩ := h
    rw [getElem?_literalsOfBits, Option.map_eq_some_iff] at hk
    obtain ⟨b, hb, rfl⟩ := hk
    have hlt := (List.getElem?_eq_some_iff.mp hb).1
    refine ⟨by show bits.length - 1 - k < bits.length; omega, ?_⟩
    rw [show bits.length - 1 - (bits.length - 1 - k) = k by omega]
    exact hb
  · intro h
    obtain ⟨hlt, hb⟩ := h
    refine ⟨bits.length - 1 - l.index, ?_⟩
    rw [getElem?_literalsOfBits, hb, Option.map_some,
      show bits.length - 1 - (bits.length - 1 - l.index) = l.index by omega]

theorem index_lt_of_mem_literalsOfBits {bits : List Bool} {l : Literal}
    (h : l ∈ literalsOfBits bits) : l.index < bits.length :=
  (mem_literalsOfBits.mp h).1

/-- A vector has one literal for each variable. -/
theorem eq_of_mem_literalsOfBits {bits : List Bool} {l k : Literal}
    (hl : l ∈ literalsOfBits bits) (hk : k ∈ literalsOfBits bits) (h : l.index = k.index) :
    l = k := by
  have hlb := (mem_literalsOfBits.mp hl).2
  have hkb := (mem_literalsOfBits.mp hk).2
  rw [← h, hlb, Option.some_inj] at hkb
  cases l
  cases k
  simp_all

theorem nodup_literalsOfBits (bits : List Bool) : (literalsOfBits bits).Nodup := by
  induction bits with
  | nil => exact List.nodup_nil
  | cons b bits ih =>
    refine List.nodup_cons.mpr ⟨fun hmem => ?_, ih⟩
    exact Nat.lt_irrefl _ (index_lt_of_mem_literalsOfBits hmem)

theorem mem_literalsOfBits_descending {f : Nat → Bool} {w : Nat} {l : Literal} :
    l ∈ literalsOfBits (descending f w) ↔ l.index < w ∧ f l.index = l.positive := by
  rw [mem_literalsOfBits, length_descending]
  refine and_congr_right fun hlt => ?_
  rw [getElem?_descending f (by omega), show w - 1 - (w - 1 - l.index) = l.index by omega,
    Option.some_inj]

namespace Literal

/-- No two of the literals ask for different values of one variable. -/
def Consistent (lits : List Literal) : Prop :=
  ∀ l ∈ lits, ∀ k ∈ lits, l.index = k.index → l = k

theorem consistent_of_subset {lits others : List Literal} (h : Consistent others)
    (hsub : ∀ l ∈ lits, l ∈ others) : Consistent lits :=
  fun l hl k hk => h l (hsub l hl) k (hsub k hk)

theorem consistent_literalsOfBits (bits : List Bool) : Consistent (literalsOfBits bits) :=
  fun _ hl _ hk => eq_of_mem_literalsOfBits hl hk

theorem mem_of_polarity?_eq_some {lits : List Literal} {v : Nat} {b : Bool}
    (h : polarity? lits v = some b) : ⟨v, b⟩ ∈ lits := by
  induction lits with
  | nil => cases h
  | cons l lits ih =>
    rw [polarity?, Option.or_eq_some_iff] at h
    rcases h with h | ⟨_, h⟩
    · exact List.mem_cons_of_mem l (ih h)
    · split at h
      · next heq =>
        cases h
        exact heq ▸ List.mem_cons_self
      · cases h

theorem polarity?_isSome {lits : List Literal} {l : Literal} (h : l ∈ lits) :
    (polarity? lits l.index).isSome = true := by
  induction lits with
  | nil => cases h
  | cons k lits ih =>
    rw [polarity?, Option.isSome_or]
    rcases List.mem_cons.mp h with rfl | h
    · simp
    · simp [ih h]

theorem polarity?_eq_some_iff {lits : List Literal} (h : Consistent lits) {l : Literal} :
    polarity? lits l.index = some l.positive ↔ l ∈ lits := by
  refine ⟨mem_of_polarity?_eq_some, fun hl => ?_⟩
  obtain ⟨b, hb⟩ := Option.isSome_iff_exists.mp (polarity?_isSome hl)
  rw [hb, h l hl ⟨l.index, b⟩ (mem_of_polarity?_eq_some hb) rfl]

end Literal

/-! ## Cubes -/

namespace Cube

theorem index_lt_of_mem_literalsOf {ts : List Ternary} {l : Literal} (h : l ∈ literalsOf ts) :
    l.index < ts.length := by
  induction ts with
  | nil => cases h
  | cons t ts ih =>
    have hlt : l ∈ literalsOf ts → l.index < ts.length + 1 := fun hl => Nat.lt_succ_of_lt (ih hl)
    simp only [literalsOf] at h
    split at h
    · rcases List.mem_cons.mp h with rfl | h
      · exact Nat.lt_succ_self _
      · exact hlt h
    · exact hlt h

theorem nodup_literalsOf (ts : List Ternary) : (literalsOf ts).Nodup := by
  induction ts with
  | nil => exact List.nodup_nil
  | cons t ts ih =>
    simp only [literalsOf]
    split
    · refine List.nodup_cons.mpr ⟨fun hmem => ?_, ih⟩
      exact Nat.lt_irrefl _ (index_lt_of_mem_literalsOf hmem)
    · exact ih

/-- The literal of the first position, if it is fixed, and those of the other positions. -/
theorem mem_literalsOf_cons {t : Ternary} {ts : List Ternary} {l : Literal} :
    l ∈ literalsOf (t :: ts) ↔
      (l.index = ts.length ∧ t.polarity? = some l.positive) ∨ l ∈ literalsOf ts := by
  simp only [literalsOf]
  split
  · next b hb =>
    rw [List.mem_cons, hb, Option.some_inj]
    refine or_congr_left ?_
    constructor
    · intro heq
      subst heq
      exact ⟨rfl, rfl⟩
    · intro h
      obtain ⟨hi, rfl⟩ := h
      exact hi ▸ rfl
  · next hnone => simp [hnone]

/-- A cube has at most one literal for each variable. -/
theorem consistent_literalsOf (ts : List Ternary) : Literal.Consistent (literalsOf ts) := by
  induction ts with
  | nil => exact fun _ hl => absurd hl List.not_mem_nil
  | cons t ts ih =>
    intro l hl k hk hindex
    have hlt : ∀ {j : Literal}, j ∈ literalsOf ts → j.index < ts.length :=
      fun hj => index_lt_of_mem_literalsOf hj
    rcases mem_literalsOf_cons.mp hl with ⟨hi, hp⟩ | hl <;>
      rcases mem_literalsOf_cons.mp hk with ⟨hj, hq⟩ | hk
    · rw [hp, Option.some_inj] at hq
      cases l
      cases k
      exact congrArg₂ Literal.mk hindex hq
    · have := hlt hk
      omega
    · have := hlt hl
      omega
    · exact ih l hl k hk hindex

theorem length_literalsOf (ts : List Ternary) :
    (literalsOf ts).length = ts.countP (· != .free) := by
  induction ts with
  | nil => rfl
  | cons t ts ih => cases t <;> simp [literalsOf, Ternary.polarity?, ih]

theorem literalCount_eq (c : Cube) : c.literalCount = c.literals.length :=
  (length_literalsOf c.values).symm

theorem nodup_literals (c : Cube) : c.literals.Nodup :=
  nodup_literalsOf c.values

theorem consistent_literals (c : Cube) : Literal.Consistent c.literals :=
  consistent_literalsOf c.values

theorem literalCount_eq_card (c : Cube) : c.literalCount = c.literals.toFinset.card := by
  rw [literalCount_eq, List.toFinset_card_of_nodup c.nodup_literals]

theorem index_lt_of_mem_literals {c : Cube} {l : Literal} (h : l ∈ c.literals) :
    l.index < c.width :=
  index_lt_of_mem_literalsOf h

theorem accepts_iff {t : Ternary} {b : Bool} :
    t.accepts b = true ↔ ∀ p, t.polarity? = some p → p = b := by
  cases t <;> cases b <;> simp [Ternary.accepts, Ternary.polarity?]

theorem acceptsBits_iff {ts : List Ternary} {bits : List Bool} (h : ts.length = bits.length) :
    acceptsBits ts bits = true ↔ ∀ l ∈ literalsOf ts, l ∈ literalsOfBits bits := by
  induction ts generalizing bits with
  | nil => simp [acceptsBits, literalsOf]
  | cons t ts ih =>
    obtain _ | ⟨b, bits⟩ := bits
    · cases h
    · have hlen : ts.length = bits.length := Nat.succ.inj h
      simp only [acceptsBits, Bool.and_eq_true, accepts_iff, ih hlen, mem_literalsOf_cons,
        literalsOfBits, List.mem_cons]
      constructor
      · rintro ⟨hhead, htail⟩ l (⟨hi, hp⟩ | hl)
        · left
          rw [← hhead l.positive hp, ← hlen, ← hi]
        · exact Or.inr (htail l hl)
      · intro hall
        refine ⟨fun p hp => ?_, fun l hl => ?_⟩
        · rcases hall ⟨ts.length, p⟩ (Or.inl ⟨rfl, hp⟩) with heq | hmem
          · exact congrArg Literal.positive heq
          · have hlt : ts.length < bits.length := index_lt_of_mem_literalsOfBits hmem
            omega
        · refine (hall l (Or.inr hl)).resolve_left fun heq => ?_
          have hlt := index_lt_of_mem_literalsOf hl
          rw [heq] at hlt
          simp only at hlt
          omega

/-- A cube contains the vectors which have all of its literals. -/
theorem contains_iff {c : Cube} {v : BitVector} (h : c.width = v.width) :
    c.contains v = true ↔ ∀ l ∈ c.literals, l ∈ literalsOfBits v.bits :=
  acceptsBits_iff h

theorem literalsOf_injective {ts us : List Ternary} (hlen : ts.length = us.length)
    (h : ∀ l, l ∈ literalsOf ts ↔ l ∈ literalsOf us) : ts = us := by
  induction ts generalizing us with
  | nil => exact (List.length_eq_zero_iff.mp hlen.symm).symm
  | cons t ts ih =>
    obtain _ | ⟨u, us⟩ := us
    · cases hlen
    · have hlen : ts.length = us.length := Nat.succ.inj hlen
      have hhead : ∀ b, t.polarity? = some b ↔ u.polarity? = some b := by
        intro b
        have hnot : ∀ {vs : List Ternary}, vs.length = us.length →
            (⟨us.length, b⟩ : Literal) ∉ literalsOf vs := by
          intro vs hvs hmem
          have hlt : us.length < vs.length := index_lt_of_mem_literalsOf hmem
          omega
        have hb := h ⟨us.length, b⟩
        simpa [mem_literalsOf_cons, hlen, hnot hlen, hnot rfl] using hb
      have htail : ∀ l, l ∈ literalsOf ts ↔ l ∈ literalsOf us := by
        intro l
        have hl := h l
        rw [mem_literalsOf_cons, mem_literalsOf_cons] at hl
        constructor
        · intro hmem
          have hlt := index_lt_of_mem_literalsOf hmem
          exact (hl.mp (Or.inr hmem)).resolve_left fun hi => by omega
        · intro hmem
          have hlt := index_lt_of_mem_literalsOf hmem
          exact (hl.mpr (Or.inr hmem)).resolve_left fun hi => by omega
      have htu : t = u := by
        rw [← Ternary.ofPolarity_polarity? t, ← Ternary.ofPolarity_polarity? u]
        exact congrArg _ (Option.ext hhead)
      rw [htu, ih hlen htail]

/-- A cube is determined by its width and its literals. -/
theorem ext_literals {c d : Cube} (hwidth : c.width = d.width)
    (h : ∀ l, l ∈ c.literals ↔ l ∈ d.literals) : c = d := by
  have hvalues := literalsOf_injective hwidth h
  cases c
  cases d
  exact congrArg Cube.mk hvalues

theorem mem_literalsOf_descending {f : Nat → Ternary} {w : Nat} {l : Literal} :
    l ∈ literalsOf (descending f w) ↔
      l.index < w ∧ (f l.index).polarity? = some l.positive := by
  induction w with
  | zero => simp [descending, literalsOf]
  | succ w ih =>
    rw [descending, mem_literalsOf_cons, ih, length_descending]
    constructor
    · rintro (⟨hi, hp⟩ | ⟨hi, hp⟩)
      · exact ⟨by omega, by rw [hi]; exact hp⟩
      · exact ⟨by omega, hp⟩
    · intro h
      obtain ⟨hi, hp⟩ := h
      rcases Nat.lt_succ_iff_lt_or_eq.mp hi with hi | hi
      · exact Or.inr ⟨hi, hp⟩
      · exact Or.inl ⟨hi, hi ▸ hp⟩

theorem mem_literals_ofLiterals {w : Nat} {lits : List Literal} (h : Literal.Consistent lits)
    (hw : ∀ l ∈ lits, l.index < w) {l : Literal} : l ∈ (ofLiterals w lits).literals ↔ l ∈ lits := by
  rw [literals, ofLiterals, mem_literalsOf_descending, Ternary.polarity?_ofPolarity,
    Literal.polarity?_eq_some_iff h]
  exact ⟨fun hl => hl.2, fun hl => ⟨hw l hl, hl⟩⟩

/-- The literals of a cube, read in its width, give the cube again. -/
theorem ofLiterals_literals (c : Cube) : ofLiterals c.width c.literals = c :=
  ext_literals (width_ofLiterals _ _) fun _ =>
    mem_literals_ofLiterals c.consistent_literals fun _ => index_lt_of_mem_literals

/-! ## Evaluation -/

/-- A cube holds on a minterm exactly if it contains the vector of the minterm. -/
theorem eval_eq_contains (c : Cube) (n : UInt64) : c.eval n = c.contains (encode n c.width) := by
  have hwidth : c.width = (encode n c.width).width := (BitVector.width_encode n c.width).symm
  refine Bool.eq_iff_iff.mpr ?_
  rw [contains_iff hwidth, eval, List.all_eq_true]
  refine forall₂_congr fun l hl => ?_
  unfold encode
  rw [mem_literalsOfBits_descending, Literal.eval, beq_iff_eq]
  exact ⟨fun h => ⟨index_lt_of_mem_literals hl, h⟩, fun h => h.2⟩

end Cube

end TwoLevel
