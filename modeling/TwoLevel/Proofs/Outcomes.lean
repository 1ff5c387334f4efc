/-
  Which answers there are. Two lists of integers which describe a function are answered with sums;
  all others are refused for the reason which `Refused` names. No search reports a defect, and none
  leaves its lists: with every index checked the answers are the same.
-/
import TwoLevel.Proofs.InPlace.Minimizers

namespace TwoLevel

variable {on off : List Int64}

/-- The answer to two lists, together with the one of the same search with checked indices. -/
structure IsAnswer {α : Type} (on off : List Int64) (answer : Except Error α)
    (indexed : Option (Except Error α)) : Prop where
  ok_iff : (∃ a, answer = .ok a) ↔ Describes on off
  error_iff : ∀ e, answer = .error e ↔ ∃ reason, Refused on off reason ∧ e = .input reason
  noDefect : ∀ d, answer ≠ .error (.defect d)
  inRange : indexed = some answer

/-- An answer is right if it is a result on lists which describe a function, and the reason of the
    refusal on all others. -/
theorem IsAnswer.of_cases {α : Type} {answer : Except Error α}
    {indexed : Option (Except Error α)} (hok : Describes on off → ∃ a, answer = .ok a)
    (herror : ∀ reason, Refused on off reason → answer = .error (.input reason))
    (hindexed : indexed = some answer) : IsAnswer on off answer indexed := by
  have herror_iff : ∀ e, answer = .error e ↔
      ∃ reason, Refused on off reason ∧ e = .input reason := by
    intro e
    constructor
    · intro he
      rcases describes_or_refused on off with hd | ⟨reason, hr⟩
      · obtain ⟨a, ha⟩ := hok hd
        rw [ha] at he
        cases he
      · refine ⟨reason, hr, ?_⟩
        rw [herror reason hr] at he
        exact (Except.error.inj he).symm
    · intro h
      obtain ⟨reason, hr, rfl⟩ := h
      exact herror reason hr
  refine ⟨⟨?_, hok⟩, herror_iff, ?_, hindexed⟩
  · intro h
    obtain ⟨a, ha⟩ := h
    rcases describes_or_refused on off with hd | ⟨reason, hr⟩
    · exact hd
    · rw [herror reason hr] at ha
      cases ha
  · intro d hd
    obtain ⟨reason, _, heq⟩ := (herror_iff _).mp hd
    cases heq

theorem specify_of_refused {reason : InputError} (h : Refused on off reason) :
    specify on off = .error (.input reason) := by
  unfold specify
  rw [ofLists_of_refused h]
  rfl

/-- Each method and the search of all alternatives answers exactly the lists which describe a
    function. Any other two lists are refused with their first negative value, or else with their
    smallest common one. -/
theorem minimizers_answer (on off : List Int64) :
    (∀ method, IsAnswer on off (minimize method on off) (InPlace.minimize method on off)) ∧
      IsAnswer on off (minimizeAll on off) (InPlace.minimizeAll on off) := by
  constructor
  · intro method
    refine .of_cases (fun h => ?_) (fun reason h => ?_) (InPlace.minimize_refines method on off)
    · cases method with
      | systematic =>
        obtain ⟨e, he, _⟩ := systematic_spec h
        exact ⟨e, he⟩
      | heuristic =>
        obtain ⟨e, he, _⟩ := heuristic_spec h
        exact ⟨e, he⟩
    · unfold minimize
      rw [specify_of_refused h]
      rfl
  · refine .of_cases (fun h => ?_) (fun reason h => ?_) (InPlace.minimizeAll_refines on off)
    · obtain ⟨found, _, hfound, _⟩ := minimizeAll_spec h
      exact ⟨found, hfound⟩
    · unfold minimizeAll
      rw [specify_of_refused h]
      rfl

end TwoLevel
