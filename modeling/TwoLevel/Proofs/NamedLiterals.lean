/-
  Cubes and the lists of literals which build them.

  A cube is built from literals by overwriting: of the literals on one variable the last one
  counts (`Literal.IsLast`). Read back, it lists these literals from the greatest variable down, so
  that each variable which is named comes exactly once (`literals_of_named`). A cube which is built
  from its own literals is found again.
-/
import TwoLevel.Proofs.InPlace.Evaluation
import TwoLevel.Proofs.InPlace.Expansion
import TwoLevel.Proofs.SumGrammar

namespace TwoLevel

/-- No literal after `l` in the list names its variable. -/
def Literal.IsLast (lits : List Literal) (l : Literal) : Prop :=
  ∃ before after, lits = before ++ l :: after ∧ ∀ k ∈ after, k.index ≠ l.index

namespace Literal.IsLast

variable {lits : List Literal} {l : Literal}

theorem polarity?_iff : polarity? lits l.index = some l.positive ↔ IsLast lits l :=
  polarity?_eq_some_iff_last

theorem mem (h : IsLast lits l) : l ∈ lits :=
  mem_of_polarity?_eq_some (polarity?_iff.mpr h)

/-- Each variable which is named has a last literal. -/
theorem exists_of_mem (h : l ∈ lits) : ∃ k, IsLast lits k ∧ k.index = l.index := by
  obtain ⟨b, hb⟩ := Option.isSome_iff_exists.mp (polarity?_isSome h)
  exact ⟨⟨l.index, b⟩, polarity?_iff.mp hb, rfl⟩

end Literal.IsLast

namespace Cube

theorem literalsOf_decreasing (ts : List Ternary) :
    (literalsOf ts).Pairwise fun l k => k.index < l.index := by
  induction ts with
  | nil => exact List.Pairwise.nil
  | cons t ts ih =>
    simp only [literalsOf]
    split
    · exact List.pairwise_cons.mpr ⟨fun l hl => index_lt_of_mem_literalsOf hl, ih⟩
    · exact ih

theorem nodup_map_index (c : Cube) : (c.literals.map Literal.index).Nodup :=
  List.pairwise_map.mpr ((literalsOf_decreasing c.values).imp Nat.ne_of_gt)

section OfLiterals

variable {w : Nat} {lits : List Literal} (h : ∀ l ∈ lits, l.index < w)

include h

theorem mem_literals_iff_isLast {l : Literal} :
    l ∈ (ofLiterals w lits).literals ↔ Literal.IsLast lits l := by
  rw [literals, ofLiterals, mem_literalsOf_descending, Ternary.polarity?_ofPolarity,
    Literal.IsLast.polarity?_iff]
  exact and_iff_right_of_imp fun hlast => h l hlast.mem

/-- The cube names the variables which the list names. -/
theorem mem_map_index_literals {v : Nat} :
    v ∈ (ofLiterals w lits).literals.map Literal.index ↔ v ∈ lits.map Literal.index := by
  rw [List.mem_map, List.mem_map]
  constructor
  · rintro ⟨l, hl, rfl⟩
    exact ⟨l, ((mem_literals_iff_isLast h).mp hl).mem, rfl⟩
  · rintro ⟨l, hl, rfl⟩
    obtain ⟨k, hlast, hk⟩ := Literal.IsLast.exists_of_mem hl
    exact ⟨k, (mem_literals_iff_isLast h).mpr hlast, hk⟩

theorem literalCount_ofLiterals :
    (ofLiterals w lits).literalCount = (lits.map Literal.index).toFinset.card := by
  have hnames : ((ofLiterals w lits).literals.map Literal.index).toFinset =
      (lits.map Literal.index).toFinset :=
    Finset.ext fun v => by rw [List.mem_toFinset, List.mem_toFinset, mem_map_index_literals h]
  rw [← hnames, List.toFinset_card_of_nodup (nodup_map_index _), List.length_map, literalCount_eq]

end OfLiterals

end Cube

/-- A cube is found again from its literals. A cube built from literals on variables below its
    width lists the last literal on each variable which they name, from the greatest variable down,
    and fixes as many positions as there are such variables. The loops by position agree. -/
theorem literals_of_named :
    (∀ c : Cube, Cube.ofLiterals c.width c.literals = c ∧
      InPlace.ofLiterals c.width (InPlace.literals c) = some c) ∧
    ∀ (w : Nat) (lits : List Literal), (∀ l ∈ lits, l.index < w) →
      InPlace.ofLiterals w lits = some (.ofLiterals w lits) ∧
      (Cube.ofLiterals w lits).literals.Pairwise (fun l k => k.index < l.index) ∧
      (∀ l, l ∈ (Cube.ofLiterals w lits).literals ↔ Literal.IsLast lits l) ∧
      (∀ k ∈ lits, ∃! l, l ∈ (Cube.ofLiterals w lits).literals ∧ l.index = k.index) ∧
      (Cube.ofLiterals w lits).literalCount = (lits.map Literal.index).toFinset.card := by
  constructor
  · intro c
    refine ⟨c.ofLiterals_literals, ?_⟩
    rw [InPlace.literals_refines, InPlace.ofLiterals_refines fun _ => Cube.index_lt_of_mem_literals,
      c.ofLiterals_literals]
  · intro w lits h
    refine ⟨InPlace.ofLiterals_refines h, Cube.literalsOf_decreasing _,
      fun l => Cube.mem_literals_iff_isLast h, fun k hk => ?_, Cube.literalCount_ofLiterals h⟩
    obtain ⟨l, hlast, hl⟩ := Literal.IsLast.exists_of_mem hk
    refine ⟨l, ⟨(Cube.mem_literals_iff_isLast h).mpr hlast, hl⟩, fun j hj => ?_⟩
    exact Cube.consistent_literals _ j hj.1 l ((Cube.mem_literals_iff_isLast h).mpr hlast)
      (hj.2.trans hl.symm)

/-- The variables 2 and 0 are named twice, the second time with the other polarity. -/
theorem literals_of_named_repeated :
    let lits : List Literal := [⟨2, true⟩, ⟨0, false⟩, ⟨4, true⟩, ⟨2, false⟩, ⟨0, true⟩]
    (∀ l ∈ lits, l.index < 5) ∧
      (Cube.ofLiterals 5 lits).literals = [⟨4, true⟩, ⟨2, false⟩, ⟨0, true⟩] ∧
      Literal.IsLast lits ⟨2, false⟩ ∧
      (⟨0, false⟩ ∈ lits ∧ ∃! l, l ∈ (Cube.ofLiterals 5 lits).literals ∧ l.index = 0) ∧
      (Cube.ofLiterals 5 lits).literalCount = (lits.map Literal.index).toFinset.card := by
  intro lits
  have hlt : ∀ l ∈ lits, l.index < 5 := by decide
  have hliterals : (Cube.ofLiterals 5 lits).literals = [⟨4, true⟩, ⟨2, false⟩, ⟨0, true⟩] := by
    decide
  have hnamed : (⟨0, false⟩ : Literal) ∈ lits := by decide
  obtain ⟨_, _, hlast, hunique, hcount⟩ := literals_of_named.2 5 lits hlt
  have hread : (⟨2, false⟩ : Literal) ∈ (Cube.ofLiterals 5 lits).literals := by
    rw [hliterals]
    decide
  exact ⟨hlt, hliterals, (hlast _).mp hread, ⟨hnamed, hunique _ hnamed⟩, hcount⟩

end TwoLevel
