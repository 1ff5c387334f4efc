/-
  The elements of a list at given positions, `ks.filterMap (l[·]?)`. If every position exists,
  nothing is skipped: the result has an element for each position, in their order, distinct
  positions of a list without repetitions give distinct elements, and a lookup which fails on the
  first missing position, `ks.mapM (l[·]?)`, has the same result. A list whose elements do not all
  have a property splits at the first one without it (`exists_first_not`).
-/
import Mathlib

namespace TwoLevel

variable {α β : Type}

theorem getElem?_filterMap_of_isSome {f : α → Option β} {l : List α}
    (h : ∀ a ∈ l, (f a).isSome = true) (k : Nat) : (l.filterMap f)[k]? = l[k]?.bind f := by
  induction l generalizing k with
  | nil => rfl
  | cons a l ih =>
    obtain ⟨b, hb⟩ := Option.isSome_iff_exists.mp (h a List.mem_cons_self)
    rw [List.filterMap_cons_some hb]
    cases k with
    | zero => simp [hb]
    | succ k =>
      rw [List.getElem?_cons_succ, List.getElem?_cons_succ]
      exact ih (fun x hx => h x (List.mem_cons_of_mem a hx)) k

theorem isSome_getElem? {l : List α} {k : Nat} (h : k < l.length) : (l[k]?).isSome = true := by
  rw [List.getElem?_eq_getElem h]
  rfl

theorem getElem?_range_bind (l : List α) (k : Nat) :
    (List.range l.length)[k]?.bind (l[·]?) = l[k]? := by
  by_cases hk : k < l.length
  · rw [List.getElem?_range hk]
    rfl
  · rw [List.getElem?_eq_none (by rw [List.length_range]; omega), List.getElem?_eq_none (by omega)]
    rfl

theorem length_lookup {l : List α} {ks : List Nat} (h : ∀ k ∈ ks, k < l.length) :
    (ks.filterMap (l[·]?)).length = ks.length :=
  List.filterMap_length_eq_length.mpr fun k hk => isSome_getElem? (h k hk)

theorem mem_lookup {l : List α} {ks : List Nat} {a : α} :
    a ∈ ks.filterMap (l[·]?) ↔ ∃ k ∈ ks, l[k]? = some a :=
  List.mem_filterMap

theorem lookup_subset {l : List α} {ks : List Nat} {a : α} (h : a ∈ ks.filterMap (l[·]?)) :
    a ∈ l := by
  obtain ⟨k, _, hk⟩ := mem_lookup.mp h
  exact List.mem_of_getElem? hk

/-- In a list without repetitions an element determines its position. -/
theorem position_unique {l : List α} (hl : l.Nodup) {i j : Nat} {a : α}
    (hi : l[i]? = some a) (hj : l[j]? = some a) : i = j := by
  obtain ⟨hlt, _⟩ := List.getElem?_eq_some_iff.mp hi
  exact (List.getElem?_inj hlt hl).mp (hi.trans hj.symm)

theorem nodup_lookup {l : List α} (hl : l.Nodup) {ks : List Nat} (hks : ks.Nodup) :
    (ks.filterMap (l[·]?)).Nodup :=
  hks.filterMap fun _ _ _ hi hj => position_unique hl hi hj

theorem eq_nil_of_lookup_eq_nil {l : List α} {ks : List Nat} (h : ∀ k ∈ ks, k < l.length)
    (hlookup : ks.filterMap (l[·]?) = []) : ks = [] := by
  have hlength := length_lookup h
  rw [hlookup] at hlength
  exact List.eq_nil_of_length_eq_zero hlength.symm

theorem exists_cons_of_lookup_eq_cons {l : List α} {ks : List Nat} {a : α} {as : List α}
    (h : ∀ k ∈ ks, k < l.length) (hlookup : ks.filterMap (l[·]?) = a :: as) :
    ∃ k rest, ks = k :: rest ∧ l[k]? = some a ∧ rest.filterMap (l[·]?) = as := by
  cases ks with
  | nil => cases hlookup
  | cons k rest =>
    obtain ⟨b, hk⟩ := Option.isSome_iff_exists.mp (isSome_getElem? (h k List.mem_cons_self))
    rw [List.filterMap_cons_some hk] at hlookup
    obtain ⟨rfl, has⟩ := List.cons.inj hlookup
    exact ⟨k, rest, rfl, hk, has⟩

/-- An action which only returns a value on every element returns the list of the values. -/
theorem mapM_eq_pure_map {m : Type → Type} [Monad m] [LawfulMonad m] {f : α → m β} {g : α → β}
    {l : List α} (h : ∀ a ∈ l, f a = pure (g a)) : l.mapM f = pure (l.map g) := by
  induction l with
  | nil => exact List.mapM_nil
  | cons a l ih =>
    rw [List.mapM_cons, h a List.mem_cons_self, ih fun x hx => h x (List.mem_cons_of_mem a hx)]
    simp

theorem mapM_lookup {l : List α} {ks : List Nat} (h : ∀ k ∈ ks, k < l.length) :
    ks.mapM (l[·]?) = some (ks.filterMap (l[·]?)) := by
  induction ks with
  | nil => rfl
  | cons k ks ih =>
    obtain ⟨a, hk⟩ := Option.isSome_iff_exists.mp (isSome_getElem? (h k List.mem_cons_self))
    rw [List.mapM_cons, ih fun x hx => h x (List.mem_cons_of_mem k hx),
      List.filterMap_cons_some hk, hk]
    rfl

theorem lookup_append (l : List α) (ks js : List Nat) :
    (ks ++ js).filterMap (l[·]?) = ks.filterMap (l[·]?) ++ js.filterMap (l[·]?) :=
  List.filterMap_append

/-- Elements of a list can be looked up. -/
theorem exists_lookup_eq {l as : List α} (h : ∀ a ∈ as, a ∈ l) :
    ∃ ks : List Nat, (∀ k ∈ ks, k < l.length) ∧ ks.filterMap (l[·]?) = as := by
  induction as with
  | nil => exact ⟨[], by simp, rfl⟩
  | cons a as ih =>
    obtain ⟨ks, hks, hlookup⟩ := ih fun b hb => h b (List.mem_cons_of_mem a hb)
    obtain ⟨k, hk⟩ := List.mem_iff_getElem?.mp (h a List.mem_cons_self)
    refine ⟨k :: ks, List.forall_mem_cons.mpr ⟨(List.getElem?_eq_some_iff.mp hk).1, hks⟩, ?_⟩
    rw [List.filterMap_cons_some hk, hlookup]

theorem exists_first_not {p : α → Prop} {l : List α} (h : ¬ ∀ a ∈ l, p a) :
    ∃ before a after, l = before ++ a :: after ∧ (∀ b ∈ before, p b) ∧ ¬ p a := by
  induction l with
  | nil => exact absurd (fun _ ha => absurd ha List.not_mem_nil) h
  | cons c l ih =>
    by_cases hc : p c
    · have hl : ¬ ∀ a ∈ l, p a := fun hl => h (List.forall_mem_cons.mpr ⟨hc, hl⟩)
      obtain ⟨before, a, after, rfl, hbefore, ha⟩ := ih hl
      exact ⟨c :: before, a, after, rfl, List.forall_mem_cons.mpr ⟨hc, hbefore⟩, ha⟩
    · exact ⟨[], c, l, rfl, fun _ hb => absurd hb List.not_mem_nil, hc⟩

end TwoLevel
