import Mathlib.Algebra.BigOperators.Group.List.Basic
import Mathlib.Algebra.Order.BigOperators.Group.List
import Mathlib.Algebra.BigOperators.Ring.List
import Mathlib.Tactic.Linarith

/-! Shares in percent by weight: a 32-bit total kept by differences, ratios by a pass over the
members, and when the two are what they should be. -/
namespace UniCache.Base

structure Share (ι : Type) where
  id : ι
  weight : UInt32
  ratio : UInt32
  deriving DecidableEq

structure Shares (ι : Type) where
  total : UInt32
  list : List (Share ι)
  deriving DecidableEq

namespace Shares
variable {ι : Type}

/-- The weights of a list, added without bound. -/
def weigh (l : List (Share ι)) : Nat := (l.map (·.weight.toNat)).sum

abbrev sum (a : Shares ι) : Nat := weigh a.list

/-- The pass over the members, left out when the total is 0. -/
def update (a : Shares ι) : Shares ι :=
  if a.total ≤ 0 then { a with total := 0 }
  else { a with list := a.list.map fun x => { x with ratio := x.weight * 100 / a.total } }

/-- The first member of that id gets a new weight. -/
def reweigh [DecidableEq ι] (id : ι) (w : UInt32) : List (Share ι) → List (Share ι)
  | [] => []
  | x :: l => if x.id = id then { x with weight := w } :: l else x :: reweigh id w l

def setWeight [DecidableEq ι] (a : Shares ι) (x : Share ι) (w : UInt32) : Shares ι where
  total := a.total + (w - x.weight)
  list := reweigh x.id w a.list

def enrol (a : Shares ι) (x : Share ι) : Shares ι where
  total := a.total + x.weight
  list := a.list ++ [x]

def retire [DecidableEq ι] (a : Shares ι) (x : Share ι) : Shares ι where
  total := a.total - x.weight
  list := a.list.eraseP (·.id = x.id)

/-- The weights of all but the first member of that id. -/
def rest [DecidableEq ι] (a : Shares ι) (id : ι) : Nat := weigh (a.list.eraseP (·.id = id))

/-- Total and ratios are those of the weights; division by 0 gives 0. -/
structure Fair (a : Shares ι) : Prop where
  total : a.total.toNat = a.sum
  ratio : ∀ x ∈ a.list, x.ratio.toNat = 100 * x.weight.toNat / a.total.toNat

instance (a : Shares ι) : Decidable a.Fair :=
  decidable_of_iff (a.total.toNat = a.sum ∧
    ∀ x ∈ a.list, x.ratio.toNat = 100 * x.weight.toNat / a.total.toNat)
    ⟨fun h => ⟨h.1, h.2⟩, fun h => ⟨h.total, h.ratio⟩⟩

/-- A hundred times a weight is a 32-bit number. -/
def Fits (a : Shares ι) : Prop := ∀ x ∈ a.list, 100 * x.weight.toNat < 2 ^ 32

/-! ### Sums -/

section
variable {l : List (Share ι)} {x y : Share ι} {id : ι} {w : UInt32}

theorem le_weigh (hx : x ∈ l) : x.weight.toNat ≤ weigh l :=
  List.le_sum_of_mem (List.mem_map_of_mem hx)

theorem sum_div_le (n : Nat) (f : Share ι → Nat) (l : List (Share ι)) :
    (l.map fun x => f x / n).sum ≤ (l.map f).sum / n := by
  induction l with
  | nil => simp
  | cons x l ih =>
    simp only [List.map_cons, List.sum_cons]
    have hadd : f x / n + (l.map f).sum / n ≤ (f x + (l.map f).sum) / n :=
      Nat.div_add_div_le_add_div
    omega

/-- Ratios rounded down never exceed the whole. -/
theorem Fair.sum_ratio_le {a : Shares ι} (h : a.Fair) : (a.list.map (·.ratio.toNat)).sum ≤ 100 := by
  calc (a.list.map (·.ratio.toNat)).sum
      = (a.list.map fun x => 100 * x.weight.toNat / a.total.toNat).sum := by
        rw [List.map_congr_left h.ratio]
    _ ≤ (a.list.map fun x => 100 * x.weight.toNat).sum / a.total.toNat := sum_div_le _ _ _
    _ = 100 * a.total.toNat / a.total.toNat := by rw [h.total, List.sum_map_mul_left]; rfl
    _ ≤ 100 := Nat.div_le_of_le_mul (Nat.le_of_eq (Nat.mul_comm _ _))

variable [DecidableEq ι]

theorem weigh_eraseP (hx : l.find? (·.id = id) = some x) :
    weigh l = weigh (l.eraseP (·.id = id)) + x.weight.toNat := by
  induction l with
  | nil => cases hx
  | cons y l ih =>
    by_cases hy : y.id = id
    · rw [List.find?_cons_of_pos (by simpa using hy)] at hx
      rw [List.eraseP_cons_of_pos (by simpa using hy), ← Option.some.inj hx]
      simp only [weigh, List.map_cons, List.sum_cons]
      omega
    · rw [List.find?_cons_of_neg (by simpa using hy)] at hx
      rw [List.eraseP_cons_of_neg (by simpa using hy)]
      have hl := ih hx
      simp only [weigh, List.map_cons, List.sum_cons] at hl ⊢
      omega

theorem weigh_reweigh (hx : l.find? (·.id = id) = some x) :
    weigh (reweigh id w l) = weigh (l.eraseP (·.id = id)) + w.toNat := by
  induction l with
  | nil => cases hx
  | cons y l ih =>
    unfold reweigh
    by_cases hy : y.id = id
    · rw [if_pos hy, List.eraseP_cons_of_pos (by simpa using hy)]
      simp only [weigh, List.map_cons, List.sum_cons]
      omega
    · rw [List.find?_cons_of_neg (by simpa using hy)] at hx
      rw [if_neg hy, List.eraseP_cons_of_neg (by simpa using hy)]
      have hl := ih hx
      simp only [weigh, List.map_cons, List.sum_cons] at hl ⊢
      omega

theorem mem_reweigh (hy : y ∈ reweigh id w l) :
    ∃ x ∈ l, y.ratio = x.ratio ∧ (y.weight = x.weight ∨ y.weight = w) := by
  induction l with
  | nil => cases hy
  | cons z l ih =>
    unfold reweigh at hy
    by_cases hz : z.id = id
    · rw [if_pos hz] at hy
      rcases List.mem_cons.mp hy with rfl | hy
      · exact ⟨z, List.mem_cons_self, rfl, .inr rfl⟩
      · exact ⟨y, List.mem_cons_of_mem _ hy, rfl, .inl rfl⟩
    · rw [if_neg hz] at hy
      rcases List.mem_cons.mp hy with rfl | hy
      · exact ⟨y, List.mem_cons_self, rfl, .inl rfl⟩
      · obtain ⟨x, hx, hsame⟩ := ih hy
        exact ⟨x, List.mem_cons_of_mem _ hx, hsame⟩

/-- The member that gets the weight keeps its ratio. -/
theorem reweighed_mem (hx : l.find? (·.id = id) = some x) :
    { x with weight := w } ∈ reweigh id w l := by
  induction l with
  | nil => cases hx
  | cons y l ih =>
    unfold reweigh
    by_cases hy : y.id = id
    · rw [List.find?_cons_of_pos (by simpa using hy)] at hx
      rw [if_pos hy, ← Option.some.inj hx]
      exact List.mem_cons_self
    · rw [List.find?_cons_of_neg (by simpa using hy)] at hx
      rw [if_neg hy]
      exact List.mem_cons_of_mem _ (ih hx)

end

/-! ### One pass -/

section
variable {a : Shares ι}

/-- The 32-bit quotient is the true one exactly when the product does not wrap. -/
theorem toNat_ratio_iff {w t : UInt32} (ht : t ≠ 0) :
    (w * 100 / t).toNat = 100 * w.toNat / t.toNat ↔ 100 * w.toNat < 2 ^ 32 := by
  have htpos : 0 < t.toNat := Nat.pos_of_ne_zero fun h => ht (UInt32.toNat_inj.mp h)
  have htlt : t.toNat < 2 ^ 32 := t.toNat_lt
  have hprod : (w * 100 / t).toNat = 100 * w.toNat % 2 ^ 32 / t.toNat := by
    rw [UInt32.toNat_div, UInt32.toNat_mul, Nat.mul_comm]
    rfl
  rw [hprod]
  constructor
  · intro heq
    by_contra hge
    -- a wrapped product is short by 2 ^ 32, which is more than the divisor
    have hshort : 100 * w.toNat % 2 ^ 32 + t.toNat ≤ 100 * w.toNat := by omega
    have hquot := Nat.div_le_div_right (c := t.toNat) hshort
    rw [Nat.add_div_right _ htpos] at hquot
    omega
  · intro hlt
    rw [Nat.mod_eq_of_lt hlt]

theorem total_update : a.update.total = a.total := by
  unfold update
  split
  · rename_i h
    exact (UInt32.le_zero_iff.mp h).symm
  · rfl

theorem sum_update : a.update.sum = a.sum := by
  unfold update
  split
  · rfl
  · simp only [sum, weigh, List.map_map]
    rfl

/-- A pass gives the shares of the weights exactly when the total is right, no product wraps, and no
ratio is left standing by a total of 0. -/
theorem update_fair_iff : a.update.Fair ↔
    a.total.toNat = a.sum ∧ a.Fits ∧ (a.sum = 0 → ∀ x ∈ a.list, x.ratio = 0) := by
  by_cases hz : a.total = 0
  · have hupd : a.update = { a with total := 0 } := if_pos (UInt32.le_zero_iff.mpr hz)
    constructor
    · intro h
      have htot : a.total.toNat = a.sum := by
        rw [← total_update, ← sum_update]
        exact h.total
      have hsum : a.sum = 0 := by rw [← htot, hz]; rfl
      refine ⟨htot, fun x hx => ?_, fun _ x hx => ?_⟩
      · have hle : x.weight.toNat ≤ a.sum := le_weigh hx
        omega
      · have hx' : x ∈ a.update.list := by rw [hupd]; exact hx
        have hr := h.ratio x hx'
        rw [total_update, hz] at hr
        exact UInt32.toNat_inj.mp (by simpa using hr)
    · rintro ⟨htot, -, hzero⟩
      have hsum : a.sum = 0 := by rw [← htot, hz]; rfl
      constructor
      · rw [total_update, sum_update]
        exact htot
      · intro x hx
        rw [hupd] at hx
        rw [total_update, hz, hzero hsum x hx]
        simp
  · have hupd : a.update =
        { a with list := a.list.map fun x => { x with ratio := x.weight * 100 / a.total } } :=
      if_neg fun h => hz (UInt32.le_zero_iff.mp h)
    have hratio : (∀ x ∈ a.update.list, x.ratio.toNat = 100 * x.weight.toNat / a.total.toNat) ↔
        a.Fits := by
      rw [hupd]
      simp only [List.forall_mem_map, toNat_ratio_iff hz]
      rfl
    constructor
    · intro h
      have htot : a.total.toNat = a.sum := by
        rw [← total_update, ← sum_update]
        exact h.total
      refine ⟨htot, hratio.mp ?_, fun hsum => absurd ?_ hz⟩
      · intro x hx
        rw [h.ratio x hx, total_update]
      · exact UInt32.toNat_inj.mp (htot.trans hsum)
    · rintro ⟨htot, hfits, -⟩
      constructor
      · rw [total_update, sum_update]
        exact htot
      · rw [total_update]
        exact hratio.mpr hfits

theorem fits_update (h : a.Fits) : a.update.Fits := by
  unfold update
  split
  · exact h
  · intro x hx
    obtain ⟨y, hy, rfl⟩ := List.mem_map.mp hx
    exact h y hy

theorem Fair.ratio_eq_zero {x : Share ι} (h : a.Fair) (hx : x ∈ a.list) (hw : x.weight.toNat = 0) :
    x.ratio = 0 := by
  have hr := h.ratio x hx
  rw [hw, Nat.mul_zero, Nat.zero_div] at hr
  exact UInt32.toNat_inj.mp hr

end

/-! ### The three operations -/

section
variable {a : Shares ι} {x : Share ι} {w : UInt32}

theorem sum_enrol : (a.enrol x).sum = a.sum + x.weight.toNat := by
  simp [enrol, sum, weigh]

theorem fits_enrol (h : a.Fits) (hx : 100 * x.weight.toNat < 2 ^ 32) : (a.enrol x).Fits := by
  intro y hy
  rcases List.mem_append.mp hy with hy | hy
  · exact h y hy
  · rw [List.mem_singleton.mp hy]
    exact hx

theorem enrol_fair_iff (h : a.Fair) (hf : a.Fits) (hw : 100 * x.weight.toNat < 2 ^ 32)
    (hr : x.ratio = 0) : (a.enrol x).update.Fair ↔ a.sum + x.weight.toNat < 2 ^ 32 := by
  have htot : (a.enrol x).total.toNat = (a.sum + x.weight.toNat) % 2 ^ 32 := by
    show (a.total + x.weight).toNat = _
    rw [UInt32.toNat_add, h.total]
  rw [update_fair_iff, sum_enrol, htot]
  constructor
  · rintro ⟨hlt, -, -⟩
    omega
  · intro hlt
    refine ⟨by omega, fits_enrol hf hw, fun hz y hy => ?_⟩
    rcases List.mem_append.mp hy with hy | hy
    · have hle : y.weight.toNat ≤ a.sum := le_weigh hy
      exact h.ratio_eq_zero hy (by omega)
    · rw [List.mem_singleton.mp hy]
      exact hr

/-- A member without weight needs no pass. -/
theorem enrol_fair (h : a.Fair) (hw : x.weight = 0) (hr : x.ratio = 0) : (a.enrol x).Fair := by
  have htot : (a.enrol x).total = a.total := by
    show a.total + x.weight = _
    rw [hw, UInt32.add_zero]
  constructor
  · rw [htot, sum_enrol, hw, h.total]
    rfl
  · intro y hy
    rw [htot]
    rcases List.mem_append.mp hy with hy | hy
    · exact h.ratio y hy
    · rw [List.mem_singleton.mp hy, hr, hw]
      simp

variable [DecidableEq ι]

/-- What may be asked of a new weight: the sum stays a 32-bit number, so does a hundred times the
weight, and the sum does not fall to 0. -/
def Allows (a : Shares ι) (id : ι) (w : UInt32) : Prop :=
  a.rest id + w.toNat < 2 ^ 32 ∧ 100 * w.toNat < 2 ^ 32 ∧ (a.rest id + w.toNat = 0 → a.sum = 0)

instance (a : Shares ι) (id : ι) (w : UInt32) : Decidable (a.Allows id w) :=
  inferInstanceAs (Decidable (_ ∧ _ ∧ (_ → _)))

theorem fits_setWeight (h : a.Fits) (hw : 100 * w.toNat < 2 ^ 32) : (a.setWeight x w).Fits := by
  intro y hy
  obtain ⟨z, hz, -, hy | hy⟩ := mem_reweigh hy
  · rw [hy]
    exact h z hz
  · rw [hy]
    exact hw

theorem setWeight_fair_iff (h : a.Fair) (hf : a.Fits) (hx : a.list.find? (·.id = x.id) = some x) :
    (a.setWeight x w).update.Fair ↔ a.Allows x.id w := by
  have hsum : a.sum = a.rest x.id + x.weight.toNat := weigh_eraseP hx
  have hnew : (a.setWeight x w).sum = a.rest x.id + w.toNat := weigh_reweigh hx
  have htot : (a.setWeight x w).total.toNat = (a.sum + (2 ^ 32 - x.weight.toNat + w.toNat)) % 2 ^ 32 := by
    show (a.total + (w - x.weight)).toNat = _
    rw [UInt32.toNat_add, UInt32.toNat_sub, h.total]
    omega
  have hxlt : x.weight.toNat < 2 ^ 32 := x.weight.toNat_lt
  rw [update_fair_iff, hnew, htot, hsum]
  constructor
  · rintro ⟨hlt, hfits, hzero⟩
    refine ⟨by omega, hfits _ (reweighed_mem hx), fun hz => ?_⟩
    have hr := h.ratio x (List.mem_of_find?_eq_some hx)
    have hmem : { x with weight := w } ∈ (a.setWeight x w).list := reweighed_mem hx
    have hr0 : x.ratio = 0 := hzero hz { x with weight := w } hmem
    rw [hr0, h.total, hsum] at hr
    have hrest : a.rest x.id = 0 := by omega
    rw [hsum, hrest, Nat.zero_add]
    by_contra hpos
    rw [hrest, Nat.zero_add, Nat.mul_div_cancel _ (Nat.pos_of_ne_zero hpos)] at hr
    cases hr
  · rintro ⟨hlt, hw, hzero⟩
    refine ⟨by omega, fits_setWeight hf hw, fun hz y hy => ?_⟩
    obtain ⟨z, hz', hr, -⟩ := mem_reweigh hy
    have hle : z.weight.toNat ≤ a.sum := le_weigh hz'
    have hsum0 := hzero hz
    rw [hr]
    exact h.ratio_eq_zero hz' (by omega)

theorem fits_retire (h : a.Fits) : (a.retire x).Fits := fun y hy => h y (List.mem_of_mem_eraseP hy)

theorem retire_fair (h : a.Fair) (hf : a.Fits) (hx : a.list.find? (·.id = x.id) = some x) :
    (a.retire x).update.Fair := by
  have hsum : a.sum = a.rest x.id + x.weight.toNat := weigh_eraseP hx
  have hlt : a.total.toNat < 2 ^ 32 := a.total.toNat_lt
  have hxlt : x.weight.toNat < 2 ^ 32 := x.weight.toNat_lt
  rw [update_fair_iff]
  refine ⟨?_, fits_retire hf, fun hz y hy => ?_⟩
  · show (a.total - x.weight).toNat = a.rest x.id
    rw [UInt32.toNat_sub, h.total, hsum]
    rw [h.total] at hlt
    omega
  · have hle : y.weight.toNat ≤ (a.retire x).sum := le_weigh hy
    exact h.ratio_eq_zero (List.mem_of_mem_eraseP hy) (by omega)

end

end Shares
end UniCache.Base
