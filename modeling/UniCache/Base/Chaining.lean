import Mathlib.Data.List.Nodup
import Mathlib.Logic.Function.Basic

/-! Chained hash tables: what an item that leaves or joins one list of a family does to the others,
and lists of hashes where every hash stands in the bucket it belongs to and stands there once. -/
namespace UniCache.Base

section
variable {ι α : Type} [DecidableEq ι] {f : ι → List α} {i j : ι} {a b : α}

theorem update_erase_sublist [DecidableEq α] (f : ι → List α) (i : ι) (a : α) (j : ι) :
    (Function.update f i ((f i).erase a) j).Sublist (f j) := by
  by_cases hj : j = i
  · rw [hj, Function.update_self]
    exact List.erase_sublist
  · rw [Function.update_of_ne hj]

theorem mem_update_erase [DecidableEq α] (hb : b ∈ f j) (hne : b ≠ a) :
    b ∈ Function.update f i ((f i).erase a) j := by
  by_cases hj : j = i
  · rw [hj] at hb
    rw [hj, Function.update_self]
    exact (List.mem_erase_of_ne hne).mpr hb
  · rw [Function.update_of_ne hj]
    exact hb

theorem update_append_eq (f : ι → List α) (i : ι) (l : List α) (j : ι) :
    ∃ new, Function.update f i (f i ++ l) j = f j ++ new := by
  by_cases hj : j = i
  · rw [hj, Function.update_self]
    exact ⟨l, rfl⟩
  · rw [Function.update_of_ne hj]
    exact ⟨[], (List.append_nil _).symm⟩

theorem subset_update_append (f : ι → List α) (i : ι) (l : List α) (j : ι) :
    f j ⊆ Function.update f i (f i ++ l) j := by
  obtain ⟨new, hnew⟩ := update_append_eq f i l j
  rw [hnew]
  exact List.subset_append_left _ _

theorem mem_of_update_append (h : b ∈ Function.update f i (f i ++ [a]) j) :
    b ∈ f j ∨ j = i ∧ b = a := by
  by_cases hj : j = i
  · rw [hj, Function.update_self, List.mem_append, List.mem_singleton] at h
    rw [hj]
    exact h.imp_right fun hb => ⟨rfl, hb⟩
  · rw [Function.update_of_ne hj] at h
    exact .inl h

end

variable {B H : Type} {home : H → B} {T T' : B → List H}

structure Placed (home : H → B) (T : B → List H) : Prop where
  at_home : ∀ b, ∀ h ∈ T b, home h = b
  nodup : ∀ b, (T b).Nodup

theorem placed_nil (h : ∀ b, T b = []) : Placed home T where
  at_home b x hx := by simp [h b] at hx
  nodup b := by simp [h b]

/-- Taking entries out of their chains displaces none of the others. -/
theorem Placed.of_sublist (hT : Placed home T) (h : ∀ b, (T' b).Sublist (T b)) :
    Placed home T' where
  at_home b x hx := hT.at_home b x ((h b).subset hx)
  nodup b := (hT.nodup b).sublist (h b)

/-- A hash that its bucket does not have may be added there. -/
theorem Placed.concat [DecidableEq B] (hT : Placed home T) {h : H} (hnew : h ∉ T (home h)) :
    Placed home (Function.update T (home h) (T (home h) ++ [h])) := by
  constructor
  · intro b x hx
    rcases mem_of_update_append hx with hold | ⟨hb, hnew⟩
    · exact hT.at_home b x hold
    · rw [hb, hnew]
  · intro b
    by_cases hb : b = home h
    · rw [hb, Function.update_self, ← List.concat_eq_append]
      exact (hT.nodup _).concat hnew
    · rw [Function.update_of_ne hb]
      exact hT.nodup b

/-- A hash that leaves a chain without duplicates is gone from it. -/
theorem notMem_map_erase {α : Type} [DecidableEq α] {f : α → H} {l : List α} {a : α}
    (hl : (l.map f).Nodup) (ha : a ∈ l) : f a ∉ (l.erase a).map f := by
  have hperm : (l.map f).Perm (f a :: (l.erase a).map f) := (List.perm_cons_erase ha).map f
  exact (List.nodup_cons.mp (hperm.nodup_iff.mp hl)).1

end UniCache.Base
