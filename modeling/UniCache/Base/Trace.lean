import Mathlib.Data.List.Basic

/-! Runs of a labelled step relation, and the rules by which an invariant of single steps is one of
runs. -/
namespace UniCache.Base

/-- A run of `step` that goes through the given labels. -/
inductive Trace {σ ι : Type} (step : σ → ι → σ → Prop) : σ → List ι → σ → Prop
  | nil (s : σ) : Trace step s [] s
  | cons {s t u : σ} {e : ι} {l : List ι} (head : step s e t) (tail : Trace step t l u) :
      Trace step s (e :: l) u

namespace Trace
variable {σ ι : Type} {step : σ → ι → σ → Prop} {s t : σ} {l : List ι}

/-- An invariant that may look at the labels so far. -/
theorem invariant_history {I : List ι → σ → Prop}
    (keeps : ∀ {pre s e t}, I pre s → step s e t → I (pre ++ [e]) t)
    (h : Trace step s l t) (pre : List ι) (hs : I pre s) : I (pre ++ l) t := by
  induction h generalizing pre with
  | nil s => simpa using hs
  | cons head _ ih => simpa using ih _ (keeps hs head)

theorem invariant {I : σ → Prop} (keeps : ∀ {s e t}, I s → step s e t → I t)
    (h : Trace step s l t) (hs : I s) : I t :=
  invariant_history (I := fun _ => I) keeps h [] hs

theorem mono {step' : σ → ι → σ → Prop} (hle : ∀ {s e t}, step s e t → step' s e t)
    (h : Trace step s l t) : Trace step' s l t := by
  induction h with
  | nil s => exact .nil s
  | cons head _ ih => exact .cons (hle head) ih

/-- Steps that are `step'` steps where an invariant holds. -/
theorem strengthen {step' : σ → ι → σ → Prop} {I : σ → Prop}
    (keeps : ∀ {s e t}, I s → step s e t → I t) (hle : ∀ {s e t}, I s → step s e t → step' s e t)
    (h : Trace step s l t) (hs : I s) : Trace step' s l t := by
  induction h with
  | nil s => exact .nil s
  | cons head _ ih => exact .cons (hle hs head) (ih (keeps hs head))

theorem append {u : σ} {l' : List ι} (h : Trace step s l t) (h' : Trace step t l' u) :
    Trace step s (l ++ l') u := by
  induction h with
  | nil s => exact h'
  | cons head _ ih => exact .cons head (ih h')

/-- The runs of an executable step are its folds. -/
theorem of_foldlM {f : σ → ι → Option σ} (h : l.foldlM f s = some t) :
    Trace (fun s e t => f s e = some t) s l t := by
  induction l generalizing s with
  | nil =>
    have hst : s = t := by simpa using h
    rw [hst]
    exact .nil t
  | cons e l ih =>
    obtain ⟨u, hu, hl⟩ : ∃ u, f s e = some u ∧ l.foldlM f u = some t := by
      simpa [Option.bind_eq_some_iff] using h
    exact .cons hu (ih hl)

theorem eq_of_nil (h : Trace step s [] t) : s = t := by
  cases h
  rfl

theorem of_concat {e : ι} (h : Trace step s (l ++ [e]) t) : ∃ u, Trace step s l u ∧ step u e t := by
  induction l generalizing s with
  | nil =>
    cases h with
    | cons head tail =>
      cases tail
      exact ⟨s, .nil s, head⟩
  | cons a l ih =>
    cases h with
    | cons head tail =>
      obtain ⟨u, hl, he⟩ := ih tail
      exact ⟨u, .cons head hl, he⟩

end Trace
end UniCache.Base
