import Mathlib.Algebra.Ring.Nat
import Mathlib.Data.List.Basic

/-! Texts appended to an area of bounded size, each of them only if it fits with one cell to spare, and
the memory that holds them. -/
namespace UniCache.Base
variable {β : Type}

/-- The texts that fit, from offset `o` on, with their offsets. -/
def fitted (cap : Nat) : Nat → List (List β) → List (Nat × List β)
  | _, [] => []
  | o, t :: ts =>
    if o + t.length < cap then (o, t) :: fitted cap (o + t.length) ts else fitted cap o ts

/-- The offset behind them. -/
def reached (cap : Nat) : Nat → List (List β) → Nat
  | o, [] => o
  | o, t :: ts => if o + t.length < cap then reached cap (o + t.length) ts else reached cap o ts

section
variable {cap o : Nat} {ts : List (List β)}

theorem fitted_append (us : List (List β)) :
    fitted cap o (ts ++ us) = fitted cap o ts ++ fitted cap (reached cap o ts) us := by
  induction ts generalizing o with
  | nil => rfl
  | cons t ts ih =>
    simp only [List.cons_append, fitted, reached]
    by_cases hfit : o + t.length < cap
    · simp only [if_pos hfit, ih, List.cons_append]
    · simp only [if_neg hfit, ih]

theorem reached_append (us : List (List β)) :
    reached cap o (ts ++ us) = reached cap (reached cap o ts) us := by
  induction ts generalizing o with
  | nil => rfl
  | cons t ts ih =>
    simp only [List.cons_append, reached]
    by_cases hfit : o + t.length < cap
    · simp only [if_pos hfit, ih]
    · simp only [if_neg hfit, ih]

theorem reached_le (ho : o ≤ cap) : reached cap o ts ≤ cap := by
  induction ts generalizing o with
  | nil => exact ho
  | cons t ts ih =>
    unfold reached
    by_cases hfit : o + t.length < cap
    · rw [if_pos hfit]
      exact ih (by omega)
    · rw [if_neg hfit]
      exact ih ho

theorem lt_of_mem_fitted {x : Nat × List β} (hx : x ∈ fitted cap o ts) :
    x.1 + x.2.length < cap := by
  induction ts generalizing o with
  | nil => cases hx
  | cons t ts ih =>
    unfold fitted at hx
    by_cases hfit : o + t.length < cap
    · rw [if_pos hfit] at hx
      rcases List.mem_cons.mp hx with rfl | hx
      · exact hfit
      · exact ih hx
    · rw [if_neg hfit] at hx
      exact ih hx

theorem snd_mem_of_mem_fitted {x : Nat × List β} (hx : x ∈ fitted cap o ts) : x.2 ∈ ts := by
  induction ts generalizing o with
  | nil => cases hx
  | cons t ts ih =>
    unfold fitted at hx
    by_cases hfit : o + t.length < cap
    · rw [if_pos hfit] at hx
      rcases List.mem_cons.mp hx with rfl | hx
      · exact List.mem_cons_self
      · exact List.mem_cons_of_mem _ (ih hx)
    · rw [if_neg hfit] at hx
      exact List.mem_cons_of_mem _ (ih hx)

/-- Texts that all fit are put one behind the other. -/
theorem mem_fitted_of_total {t : List β} (us : List (List β))
    (h : o + (ts.map List.length).sum + t.length < cap) :
    (o + (ts.map List.length).sum, t) ∈ fitted cap o (ts ++ t :: us) := by
  induction ts generalizing o with
  | nil =>
    have hfit : o + t.length < cap := h
    rw [List.nil_append, fitted, if_pos hfit]
    exact List.mem_cons_self
  | cons t' ts ih =>
    simp only [List.map_cons, List.sum_cons] at h ⊢
    rw [List.cons_append, fitted, if_pos (by omega), ← Nat.add_assoc]
    exact List.mem_cons_of_mem _ (ih (by omega))

/-- Where the last of texts of one length is put, if all fit. -/
theorem exists_last_fitted {us : List (List β)} {m : Nat} (hm : ∀ t ∈ us, t.length = m)
    (hne : us ≠ []) (h : o + (ts.map List.length).sum + us.length * m < cap) :
    ∃ t, (o + (ts.map List.length).sum + (us.length - 1) * m, t) ∈ fitted cap o (ts ++ us) := by
  rcases List.eq_nil_or_concat' us with rfl | ⟨init, last, rfl⟩
  · exact absurd rfl hne
  have hinit : (init.map List.length).sum = init.length * m := by
    rw [List.map_congr_left fun t ht => hm t (List.mem_append_left _ ht), List.map_const',
      List.sum_replicate_nat]
  have hlast : last.length = m := hm last (List.mem_append_right _ (List.mem_singleton_self _))
  have hsum : o + (ts.map List.length).sum + init.length * m =
      o + ((ts ++ init).map List.length).sum := by
    rw [List.map_append, List.sum_append, hinit, Nat.add_assoc]
  rw [List.length_append, List.length_singleton, Nat.add_mul, Nat.one_mul] at h
  refine ⟨last, ?_⟩
  rw [List.length_append, List.length_singleton, Nat.add_sub_cancel, hsum, ← List.append_assoc]
  apply mem_fitted_of_total
  omega

end

/-- Memory with the cells from `o` on overwritten. -/
def overlay (o : Int) (l : List β) (mem : Int → β) : Int → β :=
  fun p => if o ≤ p then (l[(p - o).toNat]?).getD (mem p) else mem p

/-- Overwritten again and again. -/
def overlays (ws : List (Int × List β)) (mem : Int → β) : Int → β :=
  ws.foldl (fun mem w => overlay w.1 w.2 mem) mem

/-- A text that begins where the end mark of the one before lies. -/
theorem overlay_next (o : Nat) (t r : List β) (z : β) (mem : Int → β) (hr : r ≠ []) :
    overlay (o + t.length : Nat) r (overlay o (t ++ [z]) mem) = overlay o (t ++ r) mem := by
  funext p
  unfold overlay
  have hpos : 0 < r.length := List.length_pos_iff.mpr hr
  by_cases hle : (o : Int) ≤ p
  · obtain ⟨k, rfl⟩ := Int.le.dest hle
    have hk : ((o : Int) + k - o).toNat = k := by omega
    by_cases hlt : k < t.length
    · rw [if_neg (by omega), if_pos hle, if_pos hle, hk, List.getElem?_append_left hlt,
        List.getElem?_append_left hlt]
    · have hk' : ((o : Int) + k - (o + t.length : Nat)).toNat = k - t.length := by omega
      rw [if_pos (by omega), if_pos hle, if_pos hle, hk, hk',
        List.getElem?_append_right (by omega), List.getElem?_append_right (by omega)]
      by_cases hin : k - t.length < r.length
      · simp [List.getElem?_eq_getElem hin]
      · have hz : [z].length ≤ k - t.length := by
          rw [List.length_singleton]
          omega
        rw [List.getElem?_eq_none (by omega), List.getElem?_eq_none hz]
        rfl
  · rw [if_neg (by omega), if_neg hle, if_neg hle]

/-- The memory holds the joined texts and one end mark. -/
theorem overlays_fitted (cap o : Nat) (ts : List (List β)) (z : β) (mem : Int → β) :
    overlays ((fitted cap o ts).map fun x => ((x.1 : Int), x.2 ++ [z])) mem =
      if fitted cap o ts = [] then mem
      else overlay o ((fitted cap o ts).flatMap Prod.snd ++ [z]) mem := by
  induction ts generalizing o mem with
  | nil => rfl
  | cons t ts ih =>
    unfold fitted
    by_cases hfit : o + t.length < cap
    · rw [if_pos hfit, if_neg (List.cons_ne_nil _ _), List.map_cons, overlays, List.foldl_cons]
      have hrest := ih (o + t.length) (overlay o (t ++ [z]) mem)
      unfold overlays at hrest
      rw [hrest, List.flatMap_cons]
      by_cases hnil : fitted cap (o + t.length) ts = []
      · rw [if_pos hnil, hnil, List.flatMap_nil, List.append_nil]
      · rw [if_neg hnil, overlay_next o t _ z mem (by simp), List.append_assoc]
    · rw [if_neg hfit]
      exact ih o mem

end UniCache.Base
