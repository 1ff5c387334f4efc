/-
  Sums of products as lists of distinct terms.

  Terms which are new are added at the end, in their order (`foldl_push_terms`), so that a list of
  distinct terms is kept as it is. `Built w e`: the sum `e` has been built in the width `w` from
  cubes of this width, by any series of additions; it then has this width, and so has each of its
  terms (`Built.width_terms`).
-/
import TwoLevel.Expression
import TwoLevel.Proofs.Literals

namespace TwoLevel

/-! ## Lists without repetitions -/

theorem eraseDups_of_nodup {α : Type} [BEq α] [LawfulBEq α] {l : List α} (h : l.Nodup) :
    l.eraseDups = l := by
  induction l with
  | nil => rfl
  | cons a l ih =>
    obtain ⟨ha, hl⟩ := List.nodup_cons.mp h
    have hfilter : (l.filter fun b => !b == a) = l :=
      List.filter_eq_self.mpr fun b hb => by
        have hne : b ≠ a := fun heq => ha (heq ▸ hb)
        simpa using hne
    rw [List.eraseDups_cons, hfilter, ih hl]

/-- The first occurrences stay the first ones under a map which tells the elements apart. -/
theorem map_eraseDups {α β : Type} [BEq α] [LawfulBEq α] [BEq β] [LawfulBEq β] {f : α → β}
    {l : List α} (hf : ∀ a ∈ l, ∀ b ∈ l, f a = f b → a = b) :
    l.eraseDups.map f = (l.map f).eraseDups := by
  induction hn : l.length using Nat.strongRecOn generalizing l with
  | ind n ih =>
    cases l with
    | nil => rfl
    | cons a l =>
      have hfilter : (l.map f).filter (fun b => !b == f a) = (l.filter fun b => !b == a).map f := by
        rw [List.filter_map]
        refine congrArg (List.map f) (List.filter_congr fun b hb => ?_)
        have heq : (f b == f a) = (b == a) := by
          rw [Bool.eq_iff_iff, beq_iff_eq, beq_iff_eq]
          exact ⟨hf b (List.mem_cons_of_mem a hb) a List.mem_cons_self, congrArg f⟩
        rw [Function.comp_apply, heq]
      have hlt : (l.filter fun b => !b == a).length < n := by
        rw [← hn]
        exact Nat.lt_succ_of_le (List.length_filter_le _ l)
      have hinj : ∀ b ∈ l.filter (fun b => !b == a), ∀ c ∈ l.filter (fun b => !b == a),
          f b = f c → b = c := fun b hb c hc =>
        hf b (List.mem_cons_of_mem a (List.mem_of_mem_filter hb))
          c (List.mem_cons_of_mem a (List.mem_of_mem_filter hc))
      rw [List.eraseDups_cons, List.map_cons, ih _ hlt hinj rfl, List.map_cons,
        List.eraseDups_cons, hfilter]

/-! ## Additions -/

namespace Expression

theorem push_terms_of_not_mem {e : Expression} {t : Cube} (h : t ∉ e.terms) :
    (e.push t).terms = e.terms ++ [t] := by
  rw [push, dif_neg h]

theorem push_width (e : Expression) (t : Cube) : (e.push t).width = e.width := by
  rw [push]
  split <;> rfl

/-- Distinct new terms are all added, in their order. -/
theorem foldl_push_terms {e : Expression} {ts : List Cube} (h : (e.terms ++ ts).Nodup) :
    (ts.foldl push e).terms = e.terms ++ ts := by
  induction ts generalizing e with
  | nil => exact (List.append_nil _).symm
  | cons t ts ih =>
    have ht : t ∉ e.terms := fun hmem =>
      (List.nodup_append'.mp h).2.2 hmem List.mem_cons_self
    rw [List.foldl_cons, ih (by rwa [push_terms_of_not_mem ht, List.append_assoc]),
      push_terms_of_not_mem ht, List.append_assoc]
    rfl

theorem foldl_push_width (e : Expression) (ts : List Cube) :
    (ts.foldl push e).width = e.width := by
  induction ts generalizing e with
  | nil => rfl
  | cons t ts ih => rw [List.foldl_cons, ih, push_width]

theorem ext_terms {e d : Expression} (hwidth : e.width = d.width) (hterms : e.terms = d.terms) :
    e = d := by
  cases e
  cases d
  cases hwidth
  cases hterms
  rfl

theorem size_eq_card (e : Expression) : e.size = e.terms.toFinset.card :=
  (List.toFinset_card_of_nodup e.nodup).symm

theorem mem_terms_ofTerms {w : Nat} {ts : List Cube} {t : Cube} :
    t ∈ (ofTerms w ts).terms ↔ t ∈ ts :=
  List.mem_eraseDups

theorem mem_terms_push {e : Expression} {t u : Cube} :
    u ∈ (e.push t).terms ↔ u ∈ e.terms ∨ u = t := by
  by_cases h : t ∈ e.terms
  · rw [push, dif_pos h]
    exact ⟨Or.inl, fun hu => hu.elim id fun heq => heq ▸ h⟩
  · rw [push_terms_of_not_mem h, List.mem_append, List.mem_singleton]

/-- The sums which can be built in the width `w` from cubes of this width. -/
inductive Built (w : Nat) : Expression → Prop
  | empty : Built w (.empty w)
  | ofTerms {ts : List Cube} (h : ∀ t ∈ ts, t.width = w) : Built w (.ofTerms w ts)
  | push {e : Expression} {t : Cube} (he : Built w e) (ht : t.width = w) : Built w (e.push t)

theorem Built.width_terms {w : Nat} {e : Expression} (h : Built w e) :
    e.width = w ∧ ∀ t ∈ e.terms, t.width = w := by
  induction h with
  | empty => exact ⟨rfl, fun _ ht => absurd ht List.not_mem_nil⟩
  | ofTerms h => exact ⟨rfl, fun t ht => h t (mem_terms_ofTerms.mp ht)⟩
  | push _ ht ih =>
    refine ⟨(push_width _ _).trans ih.1, fun u hu => ?_⟩
    rcases mem_terms_push.mp hu with hu | rfl
    · exact ih.2 u hu
    · exact ht

end Expression

end TwoLevel
