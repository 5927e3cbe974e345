import Mathlib.Algebra.BigOperators.Group.List.Basic
import Mathlib.Algebra.Order.BigOperators.Group.List
import Mathlib.Algebra.Order.Group.Nat
import Mathlib.Algebra.Ring.Nat
import Mathlib.Logic.Function.Basic

/-! The total of a measure over a family of lists, and how it moves with the lists. -/
namespace UniCache.Base

theorem map_replace_of_eq {α β : Type} [DecidableEq α] {f : α → β} {a b : α} (h : f b = f a)
    (l : List α) : (l.replace a b).map f = l.map f := by
  induction l with
  | nil => rfl
  | cons x l ih =>
    by_cases hx : a = x
    · subst hx
      simp [h]
    · have hne : (a == x) = false := beq_eq_false_iff_ne.mpr hx
      simp [List.replace_cons, hne, ih]

section
variable {ι α A : Type} [AddCommMonoid A]

/-- The sum of `m` over the lists at the indices `is`. -/
def total (ls : ι → List α) (m : α → A) (is : List ι) : A :=
  (is.map fun i => ((ls i).map m).sum).sum

@[simp] theorem total_nil (ls : ι → List α) (m : α → A) : total ls m [] = 0 := rfl

@[simp] theorem total_cons (ls : ι → List α) (m : α → A) (i : ι) (is : List ι) :
    total ls m (i :: is) = ((ls i).map m).sum + total ls m is := by
  simp [total]

@[simp] theorem total_append (ls : ι → List α) (m : α → A) (is js : List ι) :
    total ls m (is ++ js) = total ls m is + total ls m js := by
  simp [total]

theorem total_congr {ls ls' : ι → List α} {m : α → A} {is : List ι}
    (h : ∀ i ∈ is, ((ls i).map m).sum = ((ls' i).map m).sum) : total ls m is = total ls' m is := by
  unfold total
  rw [List.map_congr_left h]

theorem total_eq_zero {ls : ι → List α} {m : α → A} {is : List ι}
    (h : ∀ i ∈ is, ∀ a ∈ ls i, m a = 0) : total ls m is = 0 := by
  induction is with
  | nil => rfl
  | cons i is ih =>
    have hi : ((ls i).map m).sum = 0 := List.sum_eq_zero fun x hx => by
      obtain ⟨a, ha, rfl⟩ := List.mem_map.mp hx
      exact h i List.mem_cons_self a ha
    rw [total_cons, hi, zero_add]
    exact ih fun j hj => h j (List.mem_cons_of_mem _ hj)

/-- A total is the sum over all the lists joined. -/
theorem total_eq_flatMap (ls : ι → List α) (m : α → A) (is : List ι) :
    total ls m is = ((is.flatMap ls).map m).sum := by
  induction is with
  | nil => rfl
  | cons i is ih => rw [total_cons, ih, List.flatMap_cons, List.map_append, List.sum_append]

variable [DecidableEq ι] {ls : ι → List α} {m : α → A} {is : List ι} {i : ι}

theorem total_update_of_notMem (h : i ∉ is) (l : List α) :
    total (Function.update ls i l) m is = total ls m is := by
  apply total_congr
  intro j hj
  have hne : j ≠ i := fun hji => h (hji ▸ hj)
  rw [Function.update_of_ne hne]

/-- The part of one list, and the rest. -/
theorem total_split (h : i ∈ is) :
    total ls m is = ((ls i).map m).sum + total ls m (is.erase i) := by
  have hperm := (List.perm_cons_erase h).map fun j => ((ls j).map m).sum
  have hsum := hperm.sum_eq
  rwa [List.map_cons, List.sum_cons] at hsum

theorem total_update (hnd : is.Nodup) (h : i ∈ is) (l : List α) :
    total (Function.update ls i l) m is = (l.map m).sum + total ls m (is.erase i) := by
  rw [total_split h, Function.update_self, total_update_of_notMem hnd.not_mem_erase]

theorem total_concat (hnd : is.Nodup) (h : i ∈ is) (a : α) :
    total (Function.update ls i (ls i ++ [a])) m is = total ls m is + m a := by
  rw [total_update hnd h, total_split h, List.map_append, List.sum_append, List.map_singleton,
    List.sum_singleton, add_right_comm]

theorem total_erase [DecidableEq α] (hnd : is.Nodup) (h : i ∈ is) {a : α} (ha : a ∈ ls i) :
    total (Function.update ls i ((ls i).erase a)) m is + m a = total ls m is := by
  have hsum := ((List.perm_cons_erase ha).map m).sum_eq
  rw [List.map_cons, List.sum_cons] at hsum
  rw [total_update hnd h, total_split h, hsum, add_right_comm, add_comm (m a)]

/-- An element may be exchanged for one of the same measure. -/
theorem total_replace [DecidableEq α] (ls : ι → List α) (is : List ι) (i : ι) {a b : α}
    (hm : m b = m a) : total (Function.update ls i ((ls i).replace a b)) m is = total ls m is := by
  apply total_congr
  intro j _
  by_cases hji : j = i
  · rw [hji, Function.update_self, map_replace_of_eq hm]
  · rw [Function.update_of_ne hji]

end

section
variable {A : Type} [AddCommMonoid A] {v : A → Nat} {w : Nat}

/-- A sum of words shows the sum of their values, modulo the width. -/
theorem value_sum (h0 : v 0 = 0) (hadd : ∀ a b, v (a + b) = (v a + v b) % w) (l : List A) :
    v l.sum = (l.map v).sum % w := by
  induction l with
  | nil => rw [List.sum_nil, h0, List.map_nil, List.sum_nil, Nat.zero_mod]
  | cons a l ih => rw [List.sum_cons, hadd, ih, List.map_cons, List.sum_cons, Nat.add_mod_mod]

/-- In a sum that does not wrap no word is above the sum. -/
theorem value_le_sum (h0 : v 0 = 0) (hadd : ∀ a b, v (a + b) = (v a + v b) % w) {l : List A}
    (hl : (l.map v).sum < w) {a : A} (ha : a ∈ l) : v a ≤ v l.sum := by
  rw [value_sum h0 hadd, Nat.mod_eq_of_lt hl]
  exact List.le_sum_of_mem (List.mem_map_of_mem ha)

end

end UniCache.Base
