/-
  Lists without repetitions. `List.eraseDups` keeps the first occurrence of each element.
-/

namespace TwoLevel

theorem nodup_eraseDups {α : Type} [BEq α] [LawfulBEq α] (l : List α) : l.eraseDups.Nodup := by
  induction h : l.length using Nat.strongRecOn generalizing l with
  | ind n ih =>
    cases l with
    | nil => simp
    | cons a l =>
      rw [List.eraseDups_cons, List.nodup_cons]
      constructor
      · simp
      · refine ih _ ?_ _ rfl
        rw [← h]
        exact Nat.lt_succ_of_le (List.length_filter_le _ l)

theorem nodup_concat {α : Type} {l : List α} {a : α} (hl : l.Nodup) (ha : a ∉ l) :
    (l ++ [a]).Nodup := by
  rw [List.nodup_append]
  refine ⟨hl, by simp, fun x hx y hy => ?_⟩
  rw [List.mem_singleton.mp hy]
  exact fun h => ha (h ▸ hx)

end TwoLevel
