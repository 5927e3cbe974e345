import Mathlib.Algebra.Order.BigOperators.Group.Finset
import Mathlib.Data.Set.Finite.Basic

/-! Functions that take no value more often than a given number of times, with the word operations
that hash functions are made of. -/
namespace UniCache.Base
variable {α β γ : Type} [DecidableEq β] [DecidableEq γ]

/-- No set is more than `n` times as large as its image. -/
def Spread (n : Nat) (f : α → β) : Prop := ∀ s : Finset α, s.card ≤ n * (s.image f).card

section
variable {m n : Nat} {f : α → β} {g : β → γ}

theorem spread_of_injective (hf : Function.Injective f) : Spread 1 f := by
  intro s
  rw [Finset.card_image_of_injective s hf, Nat.one_mul]

theorem Spread.comp (hg : Spread n g) (hf : Spread m f) : Spread (m * n) (g ∘ f) := by
  intro s
  calc s.card ≤ m * (s.image f).card := hf s
    _ ≤ m * (n * ((s.image f).image g).card) := Nat.mul_le_mul_left m (hg _)
    _ = m * n * (s.image (g ∘ f)).card := by rw [Finset.image_image, Nat.mul_assoc]

/-- Two of any three arguments with one value are equal. -/
theorem spread_two (h : ∀ a b c, f a = f b → f a = f c → a = b ∨ a = c ∨ b = c) : Spread 2 f := by
  intro s
  apply Finset.card_le_mul_card_image
  intro v _
  by_contra hmany
  obtain ⟨a, b, c, ha, hb, hc, hab, hac, hbc⟩ := Finset.two_lt_card_iff.mp (Nat.lt_of_not_le hmany)
  have hva := (Finset.mem_filter.mp ha).2
  have hvb := (Finset.mem_filter.mp hb).2
  have hvc := (Finset.mem_filter.mp hc).2
  rcases h a b c (hva.trans hvb.symm) (hva.trans hvc.symm) with heq | heq | heq
  · exact hab heq
  · exact hac heq
  · exact hbc heq

/-- A set that is large enough has elements with as many different values as are wanted. -/
theorem Spread.exists_list (hf : Spread n f) {s : Finset α} {N : Nat} (hn : 0 < n)
    (hs : n * N ≤ s.card) : ∃ l : List α, l.length = N ∧ (l.map f).Nodup := by
  have himage : N ≤ (s.image f).card := Nat.le_of_mul_le_mul_left (hs.trans (hf s)) hn
  obtain ⟨t, ht, hcard⟩ := Finset.exists_subset_card_eq himage
  have hsurj : Set.SurjOn f s t := fun b hb => Finset.mem_image.mp (ht hb)
  obtain ⟨u, -, hinj, hu⟩ := Finset.exists_subset_injOn_image_eq_of_surjOn _ t hsurj
  refine ⟨u.toList, ?_, ?_⟩
  · rw [Finset.length_toList, ← hcard, ← hu, Finset.card_image_of_injOn hinj]
  · exact List.Nodup.map_on (fun a ha b hb => hinj (Finset.mem_toList.mp ha) (Finset.mem_toList.mp hb))
      u.nodup_toList

end

/-- A word is determined from its lowest bit on. -/
theorem xor_shiftLeft_injective {w k : Nat} (hk : 0 < k) :
    Function.Injective fun x : BitVec w => x ^^^ (x <<< k) := by
  intro x y hxy
  have hbit : ∀ i, x.getLsbD i = y.getLsbD i := by
    intro i
    induction i using Nat.strong_induction_on with
    | _ i ih =>
      have hi := congrArg (fun z : BitVec w => z.getLsbD i) hxy
      simp only [BitVec.getLsbD_xor, BitVec.getLsbD_shiftLeft] at hi
      by_cases hlow : i < k
      · simpa [hlow] using hi
      · rw [ih (i - k) (by omega)] at hi
        exact Bool.xor_left_inj.mp hi
  exact BitVec.eq_of_getLsbD_eq fun i _ => hbit i

theorem spread_xor_shiftLeft {k : UInt32} (hk : 0 < k.toNat % 32) :
    Spread 1 fun x : UInt32 => x ^^^ (x <<< k) := by
  apply spread_of_injective
  intro x y hxy
  have hbits := congrArg UInt32.toBitVec hxy
  simp only [UInt32.toBitVec_xor, UInt32.toBitVec_shiftLeft, BitVec.shiftLeft_eq'] at hbits
  exact UInt32.toBitVec_inj.mp (xor_shiftLeft_injective hk hbits)

theorem add_div_injective (d : Nat) : Function.Injective fun n : Nat => n + n / d := by
  have hmono : StrictMono fun n : Nat => n + n / d := fun m n hmn =>
    Nat.add_lt_add_of_lt_of_le hmn (Nat.div_le_div_right (Nat.le_of_lt hmn))
  exact hmono.injective

/-- Of three numbers with one remainder two have the same carry. -/
theorem eq_of_mod_eq {u v w : Nat} (hu : u < 2 ^ 33) (hv : v < 2 ^ 33) (hw : w < 2 ^ 33)
    (huv : u % 2 ^ 32 = v % 2 ^ 32) (huw : u % 2 ^ 32 = w % 2 ^ 32) : u = v ∨ u = w ∨ v = w := by
  omega

theorem spread_add_shiftRight (k : UInt32) : Spread 2 fun x : UInt32 => x + (x >>> k) := by
  let sum (x : UInt32) : Nat := x.toNat + x.toNat / 2 ^ (k.toNat % 32)
  have hsum : ∀ x : UInt32, (x + (x >>> k)).toNat = sum x % 2 ^ 32 := by
    intro x
    rw [UInt32.toNat_add, UInt32.toNat_shiftRight, Nat.shiftRight_eq_div_pow]
  have hlt : ∀ x, sum x < 2 ^ 33 := by
    intro x
    have hx := x.toNat_lt
    have hle : x.toNat / 2 ^ (k.toNat % 32) ≤ x.toNat := Nat.div_le_self _ _
    simp only [sum]
    omega
  have hinj : Function.Injective sum := fun x y hxy =>
    UInt32.toNat_inj.mp (add_div_injective _ hxy)
  apply spread_two
  intro a b c hab hac
  have hab' := congrArg UInt32.toNat hab
  have hac' := congrArg UInt32.toNat hac
  simp only [hsum] at hab' hac'
  rcases eq_of_mod_eq (hlt a) (hlt b) (hlt c) hab' hac' with heq | heq | heq
  · exact .inl (hinj heq)
  · exact .inr (.inl (hinj heq))
  · exact .inr (.inr (hinj heq))

end UniCache.Base
