/-
  Parsing expressions.

  A parsing expression takes a part from the front of a text, or it fails. A choice tries its
  second side only if the first one fails; a repetition goes on as long as it can, and never gives
  back what it has taken; a sequence of which one part fails takes nothing at all. `Peg.Matches` are
  these rules. They settle the outcome (`Matches.unique`).

  Expressions for one character are known by the characters which they take (`Takes`). Repeated,
  they take all such characters at the front of a text (`Takes.star`, `Takes.plus`).
-/

namespace TwoLevel

/-- Parsing expressions over characters. -/
inductive Peg where
  /-- One character of a kind. -/
  | one (p : Char → Bool)
  /-- The end of the text. -/
  | finish
  | seq (a b : Peg)
  /-- The first of the two which matches. -/
  | choice (a b : Peg)
  /-- As often as it matches. -/
  | star (a : Peg)
  /-- What `a` takes, as a token. -/
  | token (a : Peg)

namespace Peg

/-- As often as it matches, and at least once. -/
def plus (a : Peg) : Peg :=
  .seq a (.star a)

/-- The outcome on a text. -/
inductive Outcome where
  /-- The tokens found, and the text which is left. -/
  | taken (tokens : List (List Char)) (rest : List Char)
  | failed

open Outcome

/-- What a parsing expression does on a text. -/
inductive Matches : Peg → List Char → Outcome → Prop
  | one {p : Char → Bool} {c : Char} {cs : List Char} (hc : p c = true) :
      Matches (.one p) (c :: cs) (taken [] cs)
  | oneFails {p : Char → Bool} {c : Char} {cs : List Char} (hc : p c = false) :
      Matches (.one p) (c :: cs) failed
  | oneEnds {p : Char → Bool} : Matches (.one p) [] failed
  | finish : Matches .finish [] (taken [] [])
  | finishFails {c : Char} {cs : List Char} : Matches .finish (c :: cs) failed
  | seq {a b : Peg} {cs ds rest : List Char} {ts us : List (List Char)}
      (ha : Matches a cs (taken ts ds)) (hb : Matches b ds (taken us rest)) :
      Matches (.seq a b) cs (taken (ts ++ us) rest)
  | seqFails {a b : Peg} {cs : List Char} (ha : Matches a cs failed) : Matches (.seq a b) cs failed
  | seqFailsLater {a b : Peg} {cs ds : List Char} {ts : List (List Char)}
      (ha : Matches a cs (taken ts ds)) (hb : Matches b ds failed) : Matches (.seq a b) cs failed
  | choice {a b : Peg} {cs rest : List Char} {ts : List (List Char)}
      (ha : Matches a cs (taken ts rest)) : Matches (.choice a b) cs (taken ts rest)
  | choiceElse {a b : Peg} {cs : List Char} {o : Outcome} (ha : Matches a cs failed)
      (hb : Matches b cs o) : Matches (.choice a b) cs o
  | starStops {a : Peg} {cs : List Char} (ha : Matches a cs failed) :
      Matches (.star a) cs (taken [] cs)
  | star {a : Peg} {cs ds rest : List Char} {ts us : List (List Char)}
      (ha : Matches a cs (taken ts ds)) (hstar : Matches (.star a) ds (taken us rest)) :
      Matches (.star a) cs (taken (ts ++ us) rest)
  | token {a : Peg} {cs word rest : List Char} {ts : List (List Char)}
      (ha : Matches a cs (taken ts rest)) (hcs : cs = word ++ rest) :
      Matches (.token a) cs (taken [word] rest)
  | tokenFails {a : Peg} {cs : List Char} (ha : Matches a cs failed) :
      Matches (.token a) cs failed

/-- A parsing expression has one outcome at most. -/
theorem Matches.unique {e : Peg} {cs : List Char} {o o' : Outcome} (h : Matches e cs o)
    (h' : Matches e cs o') : o = o' := by
  induction h generalizing o' with
  | one hc => cases h' <;> simp_all
  | oneFails hc => cases h' <;> simp_all
  | oneEnds => cases h'; rfl
  | finish => cases h'; rfl
  | finishFails => cases h'; rfl
  | seq _ _ iha ihb =>
    cases h' with
    | seq ha hb =>
      obtain ⟨rfl, rfl⟩ := taken.inj (iha ha)
      obtain ⟨rfl, rfl⟩ := taken.inj (ihb hb)
      rfl
    | seqFails ha => cases iha ha
    | seqFailsLater ha hb =>
      obtain ⟨rfl, rfl⟩ := taken.inj (iha ha)
      cases ihb hb
  | seqFails _ iha =>
    cases h' with
    | seq ha _ => cases iha ha
    | seqFails _ => rfl
    | seqFailsLater _ _ => rfl
  | seqFailsLater _ _ iha ihb =>
    cases h' with
    | seq ha hb =>
      obtain ⟨rfl, rfl⟩ := taken.inj (iha ha)
      cases ihb hb
    | seqFails _ => rfl
    | seqFailsLater _ _ => rfl
  | choice _ iha =>
    cases h' with
    | choice ha => exact iha ha
    | choiceElse ha _ => cases iha ha
  | choiceElse _ _ iha ihb =>
    cases h' with
    | choice ha => cases iha ha
    | choiceElse _ hb => exact ihb hb
  | starStops _ iha =>
    cases h' with
    | starStops _ => rfl
    | star ha _ => cases iha ha
  | star _ _ iha ihstar =>
    cases h' with
    | starStops ha => cases iha ha
    | star ha hstar =>
      obtain ⟨rfl, rfl⟩ := taken.inj (iha ha)
      obtain ⟨rfl, rfl⟩ := taken.inj (ihstar hstar)
      rfl
  | token _ hcs iha =>
    cases h' with
    | token ha hcs' =>
      obtain ⟨rfl, rfl⟩ := taken.inj (iha ha)
      rw [List.append_cancel_right (hcs.symm.trans hcs')]
    | tokenFails ha => cases iha ha
  | tokenFails _ iha =>
    cases h' with
    | token ha _ => cases iha ha
    | tokenFails _ => rfl

/-! ## One character, and runs of characters -/

/-- The expression takes one character, if it is of this kind. -/
structure Takes (e : Peg) (p : Char → Bool) : Prop where
  one : ∀ {c} cs, p c = true → Matches e (c :: cs) (taken [] cs)
  other : ∀ {c} cs, p c = false → Matches e (c :: cs) failed
  nil : Matches e [] failed

theorem takes_one (p : Char → Bool) : Takes (.one p) p :=
  ⟨fun _ => .one, fun _ => .oneFails, .oneEnds⟩

theorem Takes.choice {a b : Peg} {p q : Char → Bool} (ha : Takes a p) (hb : Takes b q) :
    Takes (.choice a b) fun c => p c || q c where
  one {c} cs hc := by
    cases hp : p c with
    | true => exact .choice (ha.one cs hp)
    | false => exact .choiceElse (ha.other cs hp) (hb.one cs (by simpa [hp] using hc))
  other {c} cs hc := by
    rw [Bool.or_eq_false_iff] at hc
    exact .choiceElse (ha.other cs hc.1) (hb.other cs hc.2)
  nil := .choiceElse ha.nil hb.nil

section Repeated

variable {e : Peg} {p : Char → Bool} (he : Takes e p)

include he

/-- A text which does not begin with such a character. -/
theorem Takes.stops {cs : List Char} (h : ∀ c ∈ cs.head?, p c = false) : Matches e cs failed := by
  cases cs with
  | nil => exact he.nil
  | cons c cs => exact he.other cs (h c rfl)

theorem Takes.star (cs : List Char) : Matches (.star e) cs (taken [] (cs.dropWhile p)) := by
  induction cs with
  | nil => exact .starStops he.nil
  | cons c cs ih =>
    cases hc : p c with
    | true =>
      rw [List.dropWhile_cons_of_pos hc]
      exact .star (he.one cs hc) ih
    | false =>
      rw [List.dropWhile_cons_of_neg (by simp [hc])]
      exact .starStops (he.other cs hc)

theorem Takes.plus {cs : List Char} {c : Char} (h : c ∈ cs.head?) (hc : p c = true) :
    Matches (Peg.plus e) cs (taken [] (cs.dropWhile p)) := by
  cases cs with
  | nil => cases h
  | cons d cs =>
    cases h
    rw [List.dropWhile_cons_of_pos hc]
    exact .seq (he.one cs hc) (he.star cs)

theorem Takes.plus_fails {cs : List Char} (h : ∀ c ∈ cs.head?, p c = false) :
    Matches (Peg.plus e) cs failed :=
  .seqFails (he.stops h)

/-- A run of such characters, as a token. -/
theorem Takes.token_plus {cs : List Char} {c : Char} (h : c ∈ cs.head?) (hc : p c = true) :
    Matches (.token (Peg.plus e)) cs (taken [cs.takeWhile p] (cs.dropWhile p)) :=
  .token (he.plus h hc) List.takeWhile_append_dropWhile.symm

end Repeated

end Peg

end TwoLevel
