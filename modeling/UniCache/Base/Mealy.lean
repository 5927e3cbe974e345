import Mathlib.Data.List.Basic

/-! Machines that answer every input, and what an observer of some of the inputs can learn of the
others: nothing, if its view of the state is closed under the machine's steps. -/
namespace UniCache.Base

section
variable {σ ι ο : Type} (step : σ → ι → ο × σ)

/-- The answers to inputs given in turn. -/
def outputs (s : σ) : List ι → List ο
  | [] => []
  | i :: l => (step s i).1 :: outputs (step s i).2 l

def stateAfter (s : σ) : List ι → σ
  | [] => s
  | i :: l => stateAfter (step s i).2 l

end

section
variable {σ ι ο ω : Type} {step : σ → ι → ο × σ} {seen : ι → Bool} {view : σ → ω} {I : σ → Prop}
  {ok : ι → Prop} {s t : σ} {l : List ι}

/-- The answers to the inputs that are seen. -/
def watched (seen : ι → Bool) (l : List ι) (os : List ο) : List ο :=
  ((l.zip os).filter fun x => seen x.1).map (·.2)

theorem watched_cons (i : ι) (o : ο) (os : List ο) :
    watched seen (i :: l) (o :: os) = if seen i then o :: watched seen l os else watched seen l os := by
  by_cases hi : seen i <;> simp [watched, hi]

/-- The unwinding conditions: an unseen input leaves the view alone, and the view determines the
answer to a seen one and the view after it. -/
structure Unwinds (step : σ → ι → ο × σ) (seen : ι → Bool) (view : σ → ω) (I : σ → Prop)
    (ok : ι → Prop) : Prop where
  keeps : ∀ {s i}, I s → ok i → I (step s i).2
  respects : ∀ {s i}, I s → ok i → seen i = false → view (step s i).2 = view s
  consistent : ∀ {s t i}, I s → I t → view s = view t → ok i → seen i = true →
    (step s i).1 = (step t i).1 ∧ view (step s i).2 = view (step t i).2

/-- The answers an observer gets are those it would get if the unseen inputs had not been given. -/
theorem Unwinds.purge (h : Unwinds step seen view I ok) (hs : I s) (ht : I t)
    (hview : view s = view t) (hl : ∀ i ∈ l, ok i) :
    watched seen l (outputs step s l) = outputs step t (l.filter seen) := by
  induction l generalizing s t with
  | nil => rfl
  | cons i l ih =>
    have hi : ok i := hl i List.mem_cons_self
    have hrest : ∀ j ∈ l, ok j := fun j hj => hl j (List.mem_cons_of_mem _ hj)
    simp only [outputs, watched_cons]
    cases hseen : seen i with
    | false =>
      rw [List.filter_cons_of_neg (by simp [hseen])]
      exact ih (h.keeps hs hi) ht ((h.respects hs hi hseen).trans hview) hrest
    | true =>
      obtain ⟨hout, hnext⟩ := h.consistent hs ht hview hi hseen
      rw [if_pos rfl, List.filter_cons_of_pos hseen, outputs, hout,
        ih (h.keeps hs hi) (h.keeps ht hi) hnext hrest]

end

end UniCache.Base
