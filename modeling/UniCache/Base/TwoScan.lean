import Mathlib.Data.List.Perm.Basic
import Mathlib.Order.Lattice

/-! One scan for two extremes: it keeps the item of greatest age, and of the items that never were
that one it keeps the item of least use. -/
namespace UniCache.Base

variable {α ι κ : Type} [LinearOrder ι] [LinearOrder κ]

section
variable (age : α → ι)

/-- The items older than the floor and than every item before them. -/
def records : ι → List α → List α
  | _, [] => []
  | b, a :: l => if b < age a then a :: records (age a) l else records b l

/-- The items that are no records. -/
def others : ι → List α → List α
  | _, [] => []
  | b, a :: l => if b < age a then others (age a) l else a :: others b l

theorem records_append_others_perm (b : ι) (l : List α) :
    (records age b l ++ others age b l).Perm l := by
  induction l generalizing b with
  | nil => exact .refl []
  | cons a l ih =>
    by_cases h : b < age a
    · simp only [records, others, if_pos h]
      exact (ih (age a)).cons a
    · simp only [records, others, if_neg h]
      exact List.perm_middle.trans ((ih b).cons a)

theorem records_eq_nil_iff {b : ι} {l : List α} : records age b l = [] ↔ ∀ a ∈ l, age a ≤ b := by
  induction l with
  | nil => simp [records]
  | cons a l ih =>
    by_cases h : b < age a
    · simp [records, h, not_le.mpr h]
    · simp [records, h, ih, not_lt.mp h]

end

/-- What the scan holds: the greatest age and the least use so far, and where they were found. -/
structure TwoScan (α ι κ : Type) where
  top : ι
  low : κ
  first : Option α
  second : Option α

namespace TwoScan
variable {age : α → ι} {use : α → κ}

def step (age : α → ι) (use : α → κ) (x : TwoScan α ι κ) (a : α) : TwoScan α ι κ :=
  if x.top < age a then { x with top := age a, first := some a }
  else if use a < x.low then { x with low := use a, second := some a }
  else x

section
variable (x : TwoScan α ι κ) (a : α)

theorem step_top : (step age use x a).top = if x.top < age a then age a else x.top := by
  unfold step
  split_ifs <;> rfl

theorem step_first : (step age use x a).first = if x.top < age a then some a else x.first := by
  unfold step
  split_ifs <;> rfl

theorem step_of_record (h : x.top < age a) :
    (step age use x a).low = x.low ∧ (step age use x a).second = x.second := by
  unfold step
  rw [if_pos h]
  exact ⟨rfl, rfl⟩

theorem step_of_other (h : ¬ x.top < age a) :
    (step age use x a).low ≤ x.low ∧ (step age use x a).low ≤ use a ∧
      ((step age use x a).low = x.low ∧ (step age use x a).second = x.second ∨
        use a < x.low ∧ (step age use x a).low = use a ∧
          (step age use x a).second = some a) := by
  unfold step
  rw [if_neg h]
  by_cases hu : use a < x.low
  · rw [if_pos hu]
    exact ⟨le_of_lt hu, le_refl _, .inr ⟨hu, rfl, rfl⟩⟩
  · rw [if_neg hu]
    exact ⟨le_refl _, not_lt.mp hu, .inl ⟨rfl, rfl⟩⟩

end

section
variable (age : α → ι) (use : α → κ) (x : TwoScan α ι κ) (l : List α)

/-- The scan's first choice is the last record. -/
theorem first_foldl :
    (l.foldl (step age use) x).first = (records age x.top l).getLast?.or x.first := by
  induction l generalizing x with
  | nil => rfl
  | cons a l ih =>
    rw [List.foldl_cons, ih, step_top, step_first, records]
    by_cases h : x.top < age a
    · rw [if_pos h, if_pos h, if_pos h, List.getLast?_cons]
      cases (records age (age a) l).getLast? <;> rfl
    · rw [if_neg h, if_neg h, if_neg h]

theorem top_foldl :
    (l.foldl (step age use) x).top = ((records age x.top l).getLast?.map age).getD x.top := by
  induction l generalizing x with
  | nil => rfl
  | cons a l ih =>
    rw [List.foldl_cons, ih, step_top, records]
    by_cases h : x.top < age a
    · rw [if_pos h, if_pos h, List.getLast?_cons]
      cases (records age (age a) l).getLast? <;> rfl
    · rw [if_neg h, if_neg h]

/-- No item is older than what the scan holds in the end. -/
theorem le_top_foldl :
    x.top ≤ (l.foldl (step age use) x).top ∧ ∀ a ∈ l, age a ≤ (l.foldl (step age use) x).top := by
  induction l generalizing x with
  | nil => simp
  | cons a l ih =>
    obtain ⟨hle, hmem⟩ := ih (step age use x a)
    have hstep : x.top ≤ (step age use x a).top ∧ age a ≤ (step age use x a).top := by
      rw [step_top]
      by_cases h : x.top < age a
      · rw [if_pos h]
        exact ⟨le_of_lt h, le_refl _⟩
      · rw [if_neg h]
        exact ⟨le_refl _, not_lt.mp h⟩
    rw [List.foldl_cons]
    refine ⟨le_trans hstep.1 hle, fun e he => ?_⟩
    rcases List.mem_cons.mp he with rfl | he
    · exact le_trans hstep.2 hle
    · exact hmem e he

/-- The scan's second choice has the least use among the items that are no records. -/
theorem second_foldl :
    (l.foldl (step age use) x).low ≤ x.low ∧
      (∀ a ∈ others age x.top l, (l.foldl (step age use) x).low ≤ use a) ∧
      ((l.foldl (step age use) x).low = x.low ∧ (l.foldl (step age use) x).second = x.second ∨
        ∃ a ∈ others age x.top l, use a < x.low ∧ use a = (l.foldl (step age use) x).low ∧
          (l.foldl (step age use) x).second = some a) := by
  induction l generalizing x with
  | nil => simp [others]
  | cons a l ih =>
    obtain ⟨hle, hmin, hsec⟩ := ih (step age use x a)
    rw [List.foldl_cons, others]
    rw [step_top] at hmin hsec
    by_cases h : x.top < age a
    · obtain ⟨hlow, hsame⟩ := step_of_record x a h
      rw [if_pos h] at hmin hsec ⊢
      rw [hlow] at hle hsec
      rw [hsame] at hsec
      exact ⟨hle, hmin, hsec⟩
    · obtain ⟨hlow, huse, hnew⟩ := step_of_other x a h
      rw [if_neg h] at hmin hsec ⊢
      refine ⟨le_trans hle hlow, ?_, ?_⟩
      · intro e he
        rcases List.mem_cons.mp he with rfl | he
        · exact le_trans hle huse
        · exact hmin e he
      · rcases hsec with ⟨hlow', hsec'⟩ | ⟨e, he, hlt, hfound⟩
        · rw [hlow', hsec']
          rcases hnew with hold | ⟨hlt, hlow, hsome⟩
          · exact .inl hold
          · exact .inr ⟨a, List.mem_cons_self, hlt, hlow.symm, hsome⟩
        · exact .inr ⟨e, List.mem_cons_of_mem _ he, lt_of_lt_of_le hlt hlow, hfound⟩

end

end TwoScan
end UniCache.Base
