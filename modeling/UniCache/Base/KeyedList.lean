import Mathlib.Data.List.Nodup
import Mathlib.Logic.Function.Basic

/-! A list of records read as a map from keys to values, where every key stands at most once. -/
namespace UniCache.Base

section
variable {α κ ν : Type} [DecidableEq κ] {key : α → κ} {val : α → ν} {l : List α} {a : α}

/-- What the list holds for a key: the value of the first record that has it. -/
def lookup (key : α → κ) (val : α → ν) (l : List α) (k : κ) : Option ν :=
  (l.find? (key · = k)).map val

@[simp] theorem lookup_nil : lookup key val [] = fun _ => none := rfl

theorem find_eq_none {k : κ} : l.find? (key · = k) = none ↔ k ∉ l.map key := by
  simp

theorem lookup_eq_none {k : κ} : lookup key val l k = none ↔ k ∉ l.map key :=
  Option.map_eq_none_iff.trans find_eq_none

theorem lookup_cons (k : κ) :
    lookup key val (a :: l) k = if key a = k then some (val a) else lookup key val l k := by
  unfold lookup
  by_cases hk : key a = k <;> simp [hk]

/-- Only the keys and the values of the records matter. -/
theorem lookup_congr {m : List α}
    (h : l.map (fun x => (key x, val x)) = m.map fun x => (key x, val x)) :
    lookup key val l = lookup key val m := by
  funext k
  have hpairs : ∀ l : List α, lookup key val l k =
      ((l.map fun x => (key x, val x)).find? (·.1 = k)).map (·.2) := by
    intro l
    simp [lookup, List.find?_map, Function.comp_def]
  rw [hpairs l, hpairs m, h]

/-- A record with a new key at the end adds this key. -/
theorem lookup_concat (ha : key a ∉ l.map key) :
    lookup key val (l ++ [a]) = Function.update (lookup key val l) (key a) (some (val a)) := by
  funext k
  by_cases hk : k = key a
  · rw [hk, Function.update_self, lookup, List.find?_append, find_eq_none.mpr ha]
    simp
  · have hne : ¬ key a = k := fun h => hk h.symm
    rw [Function.update_of_ne hk]
    simp [lookup, List.find?_append, hne]

/-- Without its record a key is gone. -/
theorem lookup_erase [DecidableEq α] (hl : (l.map key).Nodup) (ha : a ∈ l) :
    lookup key val (l.erase a) = Function.update (lookup key val l) (key a) none := by
  induction l with
  | nil => cases ha
  | cons x l ih =>
    rw [List.map_cons, List.nodup_cons] at hl
    funext k
    by_cases hx : x = a
    · rw [hx, List.erase_cons_head]
      by_cases hk : k = key a
      · rw [hk, Function.update_self, lookup_eq_none, ← hx]
        exact hl.1
      · rw [Function.update_of_ne hk, lookup_cons, if_neg fun h => hk h.symm]
    · have hmem : a ∈ l := (List.mem_cons.mp ha).resolve_left fun h => hx h.symm
      -- the two records cannot share a key
      have hne : key x ≠ key a := by
        intro h
        exact hl.1 (h ▸ List.mem_map_of_mem hmem)
      rw [List.erase_cons_tail (by simpa using hx), lookup_cons, ih hl.2 hmem]
      by_cases hk : k = key a
      · rw [hk, Function.update_self, Function.update_self, if_neg hne]
      · rw [Function.update_of_ne hk, Function.update_of_ne hk, lookup_cons]

end

section
variable {α κ : Type} {key : α → κ} {l : List α} {a : α}

theorem nodup_concat (hl : (l.map key).Nodup) (ha : key a ∉ l.map key) :
    ((l ++ [a]).map key).Nodup := by
  rw [List.map_append, List.map_singleton, ← List.concat_eq_append]
  exact hl.concat ha

end

end UniCache.Base
