import Mathlib.Data.Nat.ModEq
import Mathlib.Logic.Function.Basic

/-! A ring of slots that two sides share, with free-running 32-bit indices. The front puts requests and
takes responses; the back takes requests and puts its responses into the same slots. No operation
looks at the indices of the other side. -/
namespace UniCache.Base

structure SharedRing (α : Type) where
  slot : Nat → α
  /-- Shared. -/
  reqProd : UInt32
  rspProd : UInt32
  /-- Private to the front. -/
  reqProdPvt : UInt32
  rspCons : UInt32
  /-- Private to the back. -/
  rspProdPvt : UInt32
  reqCons : UInt32

namespace SharedRing
variable {α : Type} (n : Nat)

def init (slot : Nat → α) : SharedRing α :=
  { slot, reqProd := 0, rspProd := 0, reqProdPvt := 0, rspCons := 0, rspProdPvt := 0, reqCons := 0 }

def index (i : UInt32) : Nat := i.toNat % n

def freeRequests (r : SharedRing α) : UInt32 := .ofNat n - (r.reqProdPvt - r.rspCons)

/-- Requests the back may take: those that were put, but no more than it has room to answer. -/
def unconsumedRequests (r : SharedRing α) : UInt32 :=
  let req := r.reqProd - r.reqCons
  let rsp := .ofNat n - (r.reqCons - r.rspProdPvt)
  if req < rsp then req else rsp

def putRequest (m : α) (r : SharedRing α) : SharedRing α :=
  { r with
    slot := Function.update r.slot (index n r.reqProdPvt) m
    reqProdPvt := r.reqProdPvt + 1
    reqProd := r.reqProdPvt + 1 }

def request (r : SharedRing α) : α := r.slot (index n r.reqCons)

def getRequest (r : SharedRing α) : SharedRing α := { r with reqCons := r.reqCons + 1 }

def putResponse (m : α) (r : SharedRing α) : SharedRing α :=
  { r with
    slot := Function.update r.slot (index n r.rspProdPvt) m
    rspProdPvt := r.rspProdPvt + 1
    rspProd := r.rspProdPvt + 1 }

def response (r : SharedRing α) : α := r.slot (index n r.rspCons)

def getResponse (r : SharedRing α) : SharedRing α := { r with rspCons := r.rspCons + 1 }

/-- The indices show how many requests were put and taken, and how many responses. -/
structure Counts (r : SharedRing α) (put taken answered got : Nat) : Prop where
  reqProd : r.reqProd = .ofNat put
  reqProdPvt : r.reqProdPvt = .ofNat put
  reqCons : r.reqCons = .ofNat taken
  rspProd : r.rspProd = .ofNat answered
  rspProdPvt : r.rspProdPvt = .ofNat answered
  rspCons : r.rspCons = .ofNat got

theorem counts_init (slot : Nat → α) : Counts (init slot) 0 0 0 0 := ⟨rfl, rfl, rfl, rfl, rfl, rfl⟩

section
variable {n} {r : SharedRing α} {put taken answered got : Nat} {m : α}

theorem Counts.putRequest (h : Counts r put taken answered got) :
    Counts (r.putRequest n m) (put + 1) taken answered got where
  reqProd := by
    rw [UInt32.ofNat_add, ← h.reqProdPvt]
    rfl
  reqProdPvt := by
    rw [UInt32.ofNat_add, ← h.reqProdPvt]
    rfl
  reqCons := h.reqCons
  rspProd := h.rspProd
  rspProdPvt := h.rspProdPvt
  rspCons := h.rspCons

theorem Counts.getRequest (h : Counts r put taken answered got) :
    Counts r.getRequest put (taken + 1) answered got :=
  { h with
    reqCons := by
      rw [UInt32.ofNat_add, ← h.reqCons]
      rfl }

theorem Counts.putResponse (h : Counts r put taken answered got) :
    Counts (r.putResponse n m) put taken (answered + 1) got where
  reqProd := h.reqProd
  reqProdPvt := h.reqProdPvt
  reqCons := h.reqCons
  rspProd := by
    rw [UInt32.ofNat_add, ← h.rspProdPvt]
    rfl
  rspProdPvt := by
    rw [UInt32.ofNat_add, ← h.rspProdPvt]
    rfl
  rspCons := h.rspCons

theorem Counts.getResponse (h : Counts r put taken answered got) :
    Counts r.getResponse put taken answered (got + 1) :=
  { h with
    rspCons := by
      rw [UInt32.ofNat_add, ← h.rspCons]
      rfl }

/-- The indices tell apart what lies less than `2 ^ 32` apart. -/
theorem sub_ofNat {a b : Nat} (hle : b ≤ a) (hlt : a - b < 2 ^ 32) :
    (UInt32.ofNat a - UInt32.ofNat b).toNat = a - b := by
  rw [← UInt32.ofNat_sub hle]
  exact UInt32.toNat_ofNat_of_lt' hlt

theorem unconsumedRequests_ne_zero (h : r.unconsumedRequests n ≠ 0) :
    r.reqProd ≠ r.reqCons ∧ UInt32.ofNat n ≠ r.reqCons - r.rspProdPvt := by
  have hne : ∀ {a b : UInt32}, (if a < b then a else b) ≠ 0 → a ≠ 0 ∧ b ≠ 0 := by
    intro a b hab
    simp only [ne_eq, ← UInt32.toNat_inj, UInt32.lt_iff_toNat_lt] at hab ⊢
    split_ifs at hab with hlt
    · exact ⟨hab, by rw [UInt32.toNat_zero] at hab ⊢; omega⟩
    · exact ⟨by rw [UInt32.toNat_zero] at hab ⊢; omega, hab⟩
  obtain ⟨hreq, hrsp⟩ := hne h
  constructor
  · intro heq
    apply hreq
    rw [heq]
    exact UInt32.sub_self _
  · intro heq
    apply hrsp
    rw [heq]
    exact UInt32.sub_self _

/-- The free slots are those that no request takes up until its response is taken. -/
theorem Counts.freeRequests (h : Counts r put taken answered got) (hn : n < 2 ^ 32)
    (hle : got ≤ put) (hfit : put ≤ got + n) : (r.freeRequests n).toNat = n - (put - got) := by
  have hsub : r.reqProdPvt - r.rspCons = .ofNat (put - got) := by
    rw [h.reqProdPvt, h.rspCons, UInt32.ofNat_sub hle]
  unfold SharedRing.freeRequests
  rw [hsub]
  exact sub_ofNat (by omega) (by omega)

end

/-- The ring holds the requests that were put and not yet taken, and the responses that were put and
not yet taken, in a window of `n` indices. -/
structure Holds (r : SharedRing α) (reqs rsps : List α) (taken got : Nat) : Prop
    extends Counts r reqs.length taken rsps.length got where
  got_le : got ≤ rsps.length
  rsps_le : rsps.length ≤ taken
  taken_le : taken ≤ reqs.length
  fits : reqs.length ≤ got + n
  requests : ∀ i, taken ≤ i → i < reqs.length → reqs[i]? = some (r.slot (i % n))
  responses : ∀ i, got ≤ i → i < rsps.length → rsps[i]? = some (r.slot (i % n))

theorem holds_init (slot : Nat → α) : Holds n (init slot) [] [] 0 0 where
  toCounts := counts_init slot
  got_le := Nat.le_refl 0
  rsps_le := Nat.le_refl 0
  taken_le := Nat.le_refl 0
  fits := Nat.zero_le _
  requests i _ hi := absurd hi (Nat.not_lt_zero i)
  responses i _ hi := absurd hi (Nat.not_lt_zero i)

section
variable {n} (hn : n ∣ 2 ^ 32) {r : SharedRing α} {reqs rsps : List α} {taken got : Nat} {m : α}

/-- Indices in one window of `n` share no slot. -/
theorem slot_ne {i j g : Nat} (hi : g ≤ i) (hin : i < g + n) (hj : g ≤ j) (hjn : j < g + n)
    (hne : i ≠ j) : i % n ≠ j % n := by
  intro hmod
  have hclose : ∀ {a b : Nat}, a ≤ b → b < a + n → a % n = b % n → a = b := by
    intro a b hle hlt hab
    have hdvd : n ∣ b - a := (Nat.modEq_iff_dvd' hle).mp hab
    have hzero := Nat.eq_zero_of_dvd_of_lt hdvd (by omega)
    omega
  rcases Nat.le_total i j with hle | hle
  · exact hne (hclose hle (by omega) hmod)
  · exact hne (hclose hle (by omega) hmod.symm).symm

include hn

theorem index_ofNat (k : Nat) : index n (.ofNat k) = k % n := by
  unfold index
  rw [UInt32.toNat_ofNat']
  exact Nat.mod_mod_of_dvd k hn

theorem Holds.putRequest (h : Holds n r reqs rsps taken got) (hroom : reqs.length < got + n) :
    Holds n (r.putRequest n m) (reqs ++ [m]) rsps taken got := by
  obtain ⟨hcounts, hgot, hrsps, htaken, hfits, hreq, hrsp⟩ := h
  have hslot : ∀ i, got ≤ i → i < reqs.length →
      (r.putRequest n m).slot (i % n) = r.slot (i % n) := by
    intro i hi hlt
    show Function.update r.slot (index n r.reqProdPvt) m (i % n) = _
    rw [hcounts.reqProdPvt, index_ofNat hn]
    exact Function.update_of_ne (slot_ne hi (by omega) (by omega) hroom (by omega)) _ _
  refine ⟨?_, hgot, hrsps, ?_, ?_, ?_, ?_⟩
  · rw [List.length_append]
    exact hcounts.putRequest
  · rw [List.length_append]
    omega
  · rw [List.length_append]
    exact hroom
  · intro i hi hlt
    rw [List.length_append] at hlt
    by_cases hlast : i < reqs.length
    · rw [List.getElem?_append_left hlast, hslot i (by omega) hlast]
      exact hreq i hi hlast
    · have hi' : i = reqs.length := by
        simp only [List.length_singleton] at hlt
        omega
      subst hi'
      rw [List.getElem?_append_right (Nat.le_refl _), Nat.sub_self]
      show some m = some (Function.update r.slot (index n r.reqProdPvt) m (reqs.length % n))
      rw [hcounts.reqProdPvt, index_ofNat hn, Function.update_self]
  · intro i hi hlt
    rw [hslot i hi (by omega)]
    exact hrsp i hi hlt

theorem Holds.request (h : Holds n r reqs rsps taken got) (hlt : taken < reqs.length) :
    reqs[taken]? = some (r.request n) := by
  unfold SharedRing.request
  rw [h.reqCons, index_ofNat hn]
  exact h.requests taken (Nat.le_refl _) hlt

omit hn in
theorem Holds.getRequest (h : Holds n r reqs rsps taken got) (hlt : taken < reqs.length) :
    Holds n r.getRequest reqs rsps (taken + 1) got where
  toCounts := h.toCounts.getRequest
  got_le := h.got_le
  rsps_le := Nat.le_succ_of_le h.rsps_le
  taken_le := hlt
  fits := h.fits
  requests i hi := h.requests i (by omega)
  responses := h.responses

theorem Holds.putResponse (h : Holds n r reqs rsps taken got) (hlt : rsps.length < taken) :
    Holds n (r.putResponse n m) reqs (rsps ++ [m]) taken got := by
  obtain ⟨hcounts, hgot, hrsps, htaken, hfits, hreq, hrsp⟩ := h
  have hslot : ∀ i, got ≤ i → i ≠ rsps.length → i < reqs.length →
      (r.putResponse n m).slot (i % n) = r.slot (i % n) := by
    intro i hi hne hlt
    show Function.update r.slot (index n r.rspProdPvt) m (i % n) = _
    rw [hcounts.rspProdPvt, index_ofNat hn]
    exact Function.update_of_ne (slot_ne hi (by omega) hgot (by omega) hne) _ _
  refine ⟨?_, ?_, ?_, htaken, hfits, ?_, ?_⟩
  · rw [List.length_append]
    exact hcounts.putResponse
  · rw [List.length_append]
    omega
  · rw [List.length_append]
    exact hlt
  · intro i hi hlt'
    rw [hslot i (by omega) (by omega) hlt']
    exact hreq i hi hlt'
  · intro i hi hlt'
    rw [List.length_append, List.length_singleton] at hlt'
    by_cases hlast : i < rsps.length
    · rw [List.getElem?_append_left hlast, hslot i hi (by omega) (by omega)]
      exact hrsp i hi hlast
    · have hi' : i = rsps.length := by omega
      subst hi'
      rw [List.getElem?_append_right (Nat.le_refl _), Nat.sub_self]
      show some m = some (Function.update r.slot (index n r.rspProdPvt) m (rsps.length % n))
      rw [hcounts.rspProdPvt, index_ofNat hn, Function.update_self]

theorem Holds.response (h : Holds n r reqs rsps taken got) (hlt : got < rsps.length) :
    rsps[got]? = some (r.response n) := by
  unfold SharedRing.response
  rw [h.rspCons, index_ofNat hn]
  exact h.responses got (Nat.le_refl _) hlt

omit hn in
theorem Holds.getResponse (h : Holds n r reqs rsps taken got) (hlt : got < rsps.length) :
    Holds n r.getResponse reqs rsps taken (got + 1) where
  toCounts := h.toCounts.getResponse
  got_le := hlt
  rsps_le := h.rsps_le
  taken_le := h.taken_le
  fits := by
    have := h.fits
    omega
  requests := h.requests
  responses i hi := h.responses i (by omega)

end

/-! ### What was ever put -/

/-- Each of the first `put` slots, which may have been written several times, has a property. -/
def Written (Q : α → Prop) (r : SharedRing α) (put : Nat) : Prop := ∀ i < put, Q (r.slot (i % n))

section
variable {n} {Q : α → Prop} {r : SharedRing α} {put taken answered got : Nat} {m : α}

theorem update_slot {f : Nat → α} {i j : Nat} (hf : Q (f j)) (hm : Q m) :
    Q (Function.update f i m j) := by
  by_cases hj : j = i
  · rw [hj, Function.update_self]
    exact hm
  · rw [Function.update_of_ne hj]
    exact hf

theorem Written.putResponse (h : Written n Q r put) (hm : Q m) :
    Written n Q (r.putResponse n m) put :=
  fun i hi => update_slot (h i hi) hm

variable (hn : n ∣ 2 ^ 32) (hcounts : Counts r put taken answered got)
include hn hcounts

theorem Written.putRequest (h : Written n Q r put) (hm : Q m) :
    Written n Q (r.putRequest n m) (put + 1) := by
  intro i hi
  show Q (Function.update r.slot (index n r.reqProdPvt) m (i % n))
  rcases Nat.lt_succ_iff_lt_or_eq.mp hi with hlt | heq
  · exact update_slot (h i hlt) hm
  · rw [hcounts.reqProdPvt, index_ofNat hn, heq, Function.update_self]
    exact hm

theorem Written.request (h : Written n Q r put) (hlt : taken < put) : Q (r.request n) := by
  unfold SharedRing.request
  rw [hcounts.reqCons, index_ofNat hn]
  exact h taken hlt

theorem Written.response (h : Written n Q r put) (hlt : got < put) : Q (r.response n) := by
  unfold SharedRing.response
  rw [hcounts.rspCons, index_ofNat hn]
  exact h got hlt

end

end SharedRing
end UniCache.Base
