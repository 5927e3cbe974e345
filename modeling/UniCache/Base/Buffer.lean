import Mathlib.Data.List.Basic

/-! Memory as C code addresses it, and the copies between buffers and files. -/
namespace UniCache.Base

/-- A byte at every offset. -/
abbrev Buffer (β : Type) := Nat → β

namespace Buffer
variable {β : Type}

/-- `memcpy(dst + i, src + j, len)`. -/
def memcpy (dst : Buffer β) (i : Nat) (src : Buffer β) (j len : Nat) : Buffer β :=
  fun p => if i ≤ p ∧ p < i + len then src (j + (p - i)) else dst p

/-- The `len` bytes from offset `i` on. -/
def bytes (b : Buffer β) (i len : Nat) : List β := (List.range len).map fun p => b (i + p)

/-- `read(fd, dst + i, count)` at position `start` of a file. -/
def readInto (dst : Buffer β) (i : Nat) (file : List β) (start count : Nat) : Buffer β :=
  fun p => if i ≤ p ∧ p < i + count then (file[start + (p - i)]?).getD (dst p) else dst p

@[simp] theorem memcpy_zero (dst : Buffer β) (i : Nat) (src : Buffer β) (j : Nat) :
    dst.memcpy i src j 0 = dst := by
  funext p
  unfold memcpy
  rw [if_neg (by omega)]

/-- Two adjacent copies are one. -/
theorem memcpy_add (dst : Buffer β) (i : Nat) (src : Buffer β) (j k l : Nat) :
    (dst.memcpy i src j k).memcpy (i + k) src (j + k) l = dst.memcpy i src j (k + l) := by
  funext p
  unfold memcpy
  by_cases h₁ : i + k ≤ p ∧ p < i + k + l
  · rw [if_pos h₁, if_pos (by omega)]
    congr 1
    omega
  · rw [if_neg h₁]
    by_cases h₂ : i ≤ p ∧ p < i + k
    · rw [if_pos h₂, if_pos (by omega)]
    · rw [if_neg h₂, if_neg (by omega)]

@[simp] theorem length_bytes (b : Buffer β) (i len : Nat) : (b.bytes i len).length = len := by
  simp [bytes]

@[simp] theorem bytes_zero (b : Buffer β) (i : Nat) : b.bytes i 0 = [] := rfl

theorem bytes_add (b : Buffer β) (i k l : Nat) :
    b.bytes i (k + l) = b.bytes i k ++ b.bytes (i + k) l := by
  simp [bytes, List.range_add, Nat.add_assoc]

theorem bytes_congr {b c : Buffer β} {i j len : Nat} (h : ∀ p < len, b (i + p) = c (j + p)) :
    b.bytes i len = c.bytes j len := by
  refine List.map_congr_left fun p hp => ?_
  exact h p (List.mem_range.mp hp)

theorem bytes_inj {b c : Buffer β} {i j len : Nat} (h : b.bytes i len = c.bytes j len) {p : Nat}
    (hp : p < len) : b (i + p) = c (j + p) := by
  have hmap := List.map_inj_left.mp h p (List.mem_range.mpr hp)
  exact hmap

theorem readInto_nil (dst : Buffer β) (i start count : Nat) :
    dst.readInto i [] start count = dst := by
  funext p
  unfold readInto
  by_cases h : i ≤ p ∧ p < i + count
  · rw [if_pos h]
    rfl
  · rw [if_neg h]

end Buffer
end UniCache.Base
