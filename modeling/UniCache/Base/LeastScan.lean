import Mathlib.Order.Defs.LinearOrder

/-! A scan for the first item of least cost below a bound. -/
namespace UniCache.Base

variable {α β κ : Type} [LT κ] [LE κ] [DecidableLT κ] (cost : α → κ) (tag : α → β)

/-- The scan holds the least cost so far and the tag of the item it was found at. -/
def leastStep (x : κ × Option β) (a : α) : κ × Option β :=
  if cost a < x.1 then (cost a, some (tag a)) else x

section
variable [Std.IsLinearOrder κ] [Std.LawfulOrderLT κ]

theorem leastStep_le (x : κ × Option β) (a : α) :
    (leastStep cost tag x a).1 ≤ x.1 ∧ (leastStep cost tag x a).1 ≤ cost a := by
  unfold leastStep
  by_cases h : cost a < x.1
  · rw [if_pos h]
    exact ⟨Std.le_of_lt h, Std.le_refl _⟩
  · rw [if_neg h]
    exact ⟨Std.le_refl _, Std.not_lt.mp h⟩

/-- The scan ends with the bound it began with, or with an item of least cost. -/
theorem leastStep_foldl (x : κ × Option β) (l : List α) :
    (l.foldl (leastStep cost tag) x).1 ≤ x.1 ∧
      (∀ a ∈ l, (l.foldl (leastStep cost tag) x).1 ≤ cost a) ∧
      (l.foldl (leastStep cost tag) x = x ∨
        ∃ a ∈ l, cost a < x.1 ∧ l.foldl (leastStep cost tag) x = (cost a, some (tag a))) := by
  induction l generalizing x with
  | nil => simp [Std.le_refl]
  | cons a l ih =>
    obtain ⟨hle, hmin, hfound⟩ := ih (leastStep cost tag x a)
    obtain ⟨hbound, hcost⟩ := leastStep_le cost tag x a
    rw [List.foldl_cons]
    refine ⟨Std.le_trans hle hbound, ?_, ?_⟩
    · intro e he
      rcases List.mem_cons.mp he with rfl | he
      · exact Std.le_trans hle hcost
      · exact hmin e he
    · rcases hfound with hsame | ⟨e, he, hlt, hfound⟩
      · rw [hsame]
        unfold leastStep
        by_cases h : cost a < x.1
        · rw [if_pos h]
          exact .inr ⟨a, List.mem_cons_self, h, rfl⟩
        · rw [if_neg h]
          exact .inl rfl
      · exact .inr ⟨e, List.mem_cons_of_mem _ he, Std.lt_of_lt_of_le hlt hbound, hfound⟩

end

end UniCache.Base
