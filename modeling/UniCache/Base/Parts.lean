import Mathlib.Data.List.Flatten
import UniCache.Base.Buffer

/-! A whole cut into parts of one size, of which the last may be shorter, and spans that tile a
range. -/
namespace UniCache.Base

variable {γ β : Type}

/-- One item for each part of `tot` from `start` on; `P` is what holds of the part at a place. -/
inductive Parts (size tot : Nat) (P : Nat → γ → Prop) : Nat → List γ → Prop
  | last {start : Nat} {t : γ} (lt : start < tot) (le : tot - start ≤ size) (part : P start t) :
      Parts size tot P start [t]
  | more {start : Nat} {t : γ} {l : List γ} (lt : size < tot - start) (part : P start t)
      (rest : Parts size tot P (start + size) l) : Parts size tot P start (t :: l)

namespace Parts
variable {size tot start : Nat} {P : Nat → γ → Prop} {l : List γ}

theorem length_eq (hsize : 0 < size) (h : Parts size tot P start l) :
    l.length = (tot - start + (size - 1)) / size := by
  induction h with
  | @last start t lt le part =>
    have hone : tot - start + (size - 1) = tot - start - 1 + size := by omega
    rw [hone, Nat.add_div_right _ hsize, Nat.div_eq_of_lt (by omega)]
    rfl
  | @more start t l lt part rest ih =>
    have hone : tot - start + (size - 1) = tot - (start + size) + (size - 1) + size := by omega
    rw [hone, Nat.add_div_right _ hsize, ← ih]
    rfl

theorem forall_mem {Q : γ → Prop} (h : Parts size tot P start l) (hq : ∀ s t, P s t → Q t) :
    ∀ t ∈ l, Q t := by
  induction h with
  | last lt le part =>
    intro t ht
    rw [List.mem_singleton.mp ht]
    exact hq _ _ part
  | more lt part rest ih =>
    intro t ht
    rcases List.mem_cons.mp ht with rfl | ht
    · exact hq _ _ part
    · exact ih t ht

/-- A mark on the last part is on the last item only. -/
theorem map_last {f : γ → Bool} (hf : ∀ s t, P s t → f t = decide (tot - s ≤ size))
    (h : Parts size tot P start l) : l.map f = List.replicate (l.length - 1) false ++ [true] := by
  induction h with
  | last lt le part =>
    simp only [List.map_cons, List.map_nil, hf _ _ part, decide_eq_true le]
    rfl
  | @more start t l lt part rest ih =>
    have hlen : l.length = l.length - 1 + 1 := by
      cases rest <;> simp
    rw [List.map_cons, hf _ _ part, decide_eq_false (Nat.not_le.mpr lt), ih, List.length_cons,
      Nat.add_sub_cancel]
    conv_rhs => rw [hlen]
    rfl

/-- A mark on the part at 0 is on no later item. -/
theorem map_later {f : γ → Bool} (hf : ∀ s t, P s t → 0 < s → f t = false) (hpos : 0 < start)
    (h : Parts size tot P start l) : l.map f = List.replicate l.length false := by
  induction h with
  | last lt le part =>
    simp only [List.map_cons, List.map_nil, hf _ _ part hpos]
    rfl
  | more lt part rest ih =>
    rw [List.map_cons, hf _ _ part hpos, ih (by omega)]
    rfl

theorem map_first {f : γ → Bool} (hzero : ∀ t, P 0 t → f t = true)
    (hf : ∀ s t, P s t → 0 < s → f t = false) (hsize : 0 < size) (h : Parts size tot P 0 l) :
    l.map f = true :: List.replicate (l.length - 1) false := by
  cases h with
  | last lt le part =>
    simp only [List.map_cons, List.map_nil, hzero _ part]
    rfl
  | more lt part rest =>
    rw [List.map_cons, hzero _ part, map_later hf (by omega) rest]
    rfl

/-- What the parts hold, put together. -/
theorem flatMap_bytes {b : Buffer β} {f : γ → List β}
    (hf : ∀ s t, P s t → f t = b.bytes s (min (tot - s) size)) (h : Parts size tot P start l) :
    l.flatMap f = b.bytes start (tot - start) := by
  induction h with
  | last lt le part =>
    simp only [List.flatMap_cons, List.flatMap_nil, List.append_nil, hf _ _ part, Nat.min_eq_left le]
  | @more start t l lt part rest ih =>
    have hsum : tot - start = size + (tot - (start + size)) := by omega
    rw [List.flatMap_cons, hf _ _ part, ih, Nat.min_eq_right (Nat.le_of_lt lt), hsum, Buffer.bytes_add]

end Parts

/-- A range of a file or buffer, with the page it goes through. -/
structure Span where
  off : Nat
  len : Nat
  page : Nat
  deriving DecidableEq, Repr

/-- The same span one further. -/
def Span.shift (s : Span) : Span := { s with off := s.off + 1 }

/-- Non-empty spans, one after the other, from `lo` to `hi`. -/
def Tiles : Nat → Nat → List Span → Prop
  | lo, hi, [] => lo = hi
  | lo, hi, s :: l => s.off = lo ∧ 0 < s.len ∧ Tiles (lo + s.len) hi l

section
variable {lo mid hi : Nat} {l l' : List Span}

theorem Tiles.append (h : Tiles lo mid l) (h' : Tiles mid hi l') : Tiles lo hi (l ++ l') := by
  induction l generalizing lo with
  | nil =>
    have heq : lo = mid := h
    rw [heq]
    exact h'
  | cons s l ih =>
    obtain ⟨hoff, hpos, hl⟩ := h
    exact ⟨hoff, hpos, ih hl⟩

theorem Tiles.of_append (h : Tiles lo mid l) (h' : Tiles lo hi (l ++ l')) : Tiles mid hi l' := by
  induction l generalizing lo with
  | nil =>
    have heq : lo = mid := h
    rw [← heq]
    exact h'
  | cons s l ih => exact ih h.2.2 h'.2.2

/-- Spans that tile a range do not when each is one further. -/
theorem Tiles.not_shift (h : Tiles lo hi l) (hlt : lo < hi) : ¬ Tiles lo hi (l.map Span.shift) := by
  cases l with
  | nil =>
    have heq : lo = hi := h
    omega
  | cons s l =>
    intro hs
    have hoff : s.off = lo := h.1
    have hoff' : s.off + 1 = lo := hs.1
    omega

end
end UniCache.Base
