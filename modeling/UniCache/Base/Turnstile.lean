import Mathlib.Algebra.BigOperators.Group.Finset.Basic
import Mathlib.Data.Fintype.Basic
import UniCache.Base.Trace

/-! Clients that pass a turnstile one at a time. A client that enters a lane puts a job of several
parts into it; another party answers each part, and the last answer frees the lane. Every run has a
bounded number of steps. -/
namespace UniCache.Base

namespace Trace
variable {σ τ ι : Type} {step : σ → ι → σ → Prop} {s t : σ} {l : List ι}

/-- Steps that lower a measure bound the length of a run. -/
theorem length_le_measure {μ : σ → Nat} (lowers : ∀ {s e t}, step s e t → μ t < μ s)
    (h : Trace step s l t) : l.length + μ t ≤ μ s := by
  induction h with
  | nil s => exact Nat.le_of_eq (Nat.zero_add _)
  | cons head _ ih =>
    have hlt := lowers head
    rw [List.length_cons]
    omega

/-- A run seen through a simulation. -/
theorem simulate (step' : τ → ι → τ → Prop) {R : σ → τ → Prop} {g : τ}
    (sim : ∀ {s e t g}, R s g → step s e t → ∃ g', step' g e g' ∧ R t g')
    (h : Trace step s l t) (hg : R s g) : ∃ g', Trace step' g l g' ∧ R t g' := by
  induction h generalizing g with
  | nil s => exact ⟨g, .nil g, hg⟩
  | cons head _ ih =>
    obtain ⟨g₁, hstep, hg₁⟩ := sim hg head
    obtain ⟨g₂, hrun, hg₂⟩ := ih hg₁
    exact ⟨g₂, .cons hstep hrun, hg₂⟩

/-- Where runs are bounded, some run cannot be continued. -/
theorem exists_settled {bound : Nat} (hbound : ∀ {l t}, Trace step s l t → l.length ≤ bound) :
    ∃ l t, Trace step s l t ∧ ∀ e u, ¬ step t e u := by
  by_contra hnone
  have hgoes (k : Nat) : ∃ l t, Trace step s l t ∧ l.length = k := by
    induction k with
    | zero => exact ⟨[], s, .nil s, rfl⟩
    | succ k ih =>
      obtain ⟨l, t, hrun, hlen⟩ := ih
      have hmore : ∃ e u, step t e u := by
        by_contra hstuck
        exact hnone ⟨l, t, hrun, fun e u he => hstuck ⟨e, u, he⟩⟩
      obtain ⟨e, u, he⟩ := hmore
      exact ⟨l ++ [e], u, hrun.append (.cons he (.nil u)), by simp [hlen]⟩
  obtain ⟨l, t, hrun, hlen⟩ := hgoes (bound + 1)
  have hle := hbound hrun
  omega

end Trace

/-- Where a client stands. -/
inductive Place
  | outside | inside | through
  deriving DecidableEq, Repr

/-- Whose turn the part in a lane is. -/
inductive Stage
  | asked | answered
  deriving DecidableEq, Repr

/-- The lanes `κ` and the clients `ι`. A lane that is taken has the stage of its part, the client it
works for, and the number of parts after this one. -/
structure Turnstile (κ ι : Type) where
  lane : κ → Option (Stage × ι × Nat)
  place : ι → Place

namespace Turnstile
variable {κ ι : Type}

/-- Nobody is inside and every client is still to come. -/
def empty : Turnstile κ ι := ⟨fun _ => none, fun _ => .outside⟩

/-- A lane works for a client that is inside and came this way. -/
def Held (way : ι → κ) (g : Turnstile κ ι) : Prop :=
  ∀ k st i r, g.lane k = some (st, i, r) → way i = k ∧ g.place i = .inside

theorem held_empty {way : ι → κ} : Held way (empty : Turnstile κ ι) := by
  intro k st i r h
  cases h

/-- Passing on a lane's client keeps it inside. -/
theorem Held.pass [DecidableEq κ] {way : ι → κ} {g : Turnstile κ ι} (h : Held way g) {k : κ}
    {st st' : Stage} {i : ι} {r r' : Nat} (hlane : g.lane k = some (st, i, r)) :
    Held way { g with lane := Function.update g.lane k (some (st', i, r')) } := by
  intro k₁ st₁ i₁ r₁ h₁
  by_cases hk : k₁ = k
  · subst hk
    simp only [Function.update_self] at h₁
    obtain ⟨-, rfl, -⟩ : st' = st₁ ∧ i = i₁ ∧ r' = r₁ := by simpa using h₁
    exact h k₁ st i r hlane
  · simp only [Function.update_of_ne hk] at h₁
    exact h k₁ st₁ i₁ r₁ h₁

/-- The steps a client still takes by itself and causes in its lane. -/
def Place.cost (more : Nat) : Place → Nat
  | .outside => 2 * more + 4
  | .inside => 1
  | .through => 0

@[simp] theorem cost_outside (more : Nat) : Place.cost more .outside = 2 * more + 4 := rfl
@[simp] theorem cost_inside (more : Nat) : Place.cost more .inside = 1 := rfl
@[simp] theorem cost_through (more : Nat) : Place.cost more .through = 0 := rfl

/-- The steps a lane still takes. -/
def laneCost : Option (Stage × ι × Nat) → Nat
  | none => 0
  | some (.asked, _, r) => 2 * r + 2
  | some (.answered, _, r) => 2 * r + 1

@[simp] theorem laneCost_none : laneCost (none : Option (Stage × ι × Nat)) = 0 := rfl
@[simp] theorem laneCost_asked (i : ι) (r : Nat) : laneCost (some (.asked, i, r)) = 2 * r + 2 := rfl
@[simp] theorem laneCost_answered (i : ι) (r : Nat) :
    laneCost (some (.answered, i, r)) = 2 * r + 1 := rfl

section
variable [Fintype κ] [Fintype ι]

/-- The most steps a run can still have. -/
def rank (more : ι → Nat) (g : Turnstile κ ι) : Nat :=
  ∑ i, Place.cost (more i) (g.place i) + ∑ k, laneCost (g.lane k)

theorem rank_empty (more : ι → Nat) :
    rank more (empty : Turnstile κ ι) = ∑ i, (2 * more i + 4) := by
  simp [rank, empty]

end

variable [DecidableEq κ] [DecidableEq ι]

/-- The moves: client `i` goes through the lane `way i` with `more i` parts after its first. A job
may end before its last part. -/
inductive Moves (way : ι → κ) (more : ι → Nat) : Turnstile κ ι → Turnstile κ ι → Prop
  | enter {g : Turnstile κ ι} {i : ι} (hout : g.place i = .outside)
      (hfree : g.lane (way i) = none) :
      Moves way more g
        { lane := Function.update g.lane (way i) (some (.asked, i, more i))
          place := Function.update g.place i .inside }
  | answer {g : Turnstile κ ι} {k : κ} {i : ι} {r : Nat} (hlane : g.lane k = some (.asked, i, r)) :
      Moves way more g { g with lane := Function.update g.lane k (some (.answered, i, r)) }
  | next {g : Turnstile κ ι} {k : κ} {i : ι} {r : Nat}
      (hlane : g.lane k = some (.answered, i, r + 1)) :
      Moves way more g { g with lane := Function.update g.lane k (some (.asked, i, r)) }
  | free {g : Turnstile κ ι} {k : κ} {i : ι} {r : Nat} (hlane : g.lane k = some (.answered, i, r)) :
      Moves way more g { g with lane := Function.update g.lane k none }
  | leave {g : Turnstile κ ι} {i : ι} (hin : g.place i = .inside) (hfree : g.lane (way i) = none) :
      Moves way more g { g with place := Function.update g.place i .through }

variable {way : ι → κ} {more : ι → Nat} {g g' : Turnstile κ ι}

theorem Moves.held (hm : Moves way more g g') (h : Held way g) : Held way g' := by
  cases hm with
  | @enter i hout hfree =>
    intro k st j r hk
    by_cases hki : k = way i
    · subst hki
      simp only [Function.update_self] at hk
      obtain ⟨-, rfl, -⟩ : Stage.asked = st ∧ i = j ∧ more i = r := by simpa using hk
      exact ⟨rfl, Function.update_self ..⟩
    · simp only [Function.update_of_ne hki] at hk
      obtain ⟨hway, hin⟩ := h k st j r hk
      have hne : j ≠ i := by
        rintro rfl
        exact absurd (hin.symm.trans hout) Place.noConfusion
      exact ⟨hway, (Function.update_of_ne hne ..).trans hin⟩
  | answer hlane => exact h.pass hlane
  | next hlane => exact h.pass hlane
  | @free k i r hlane =>
    intro k₁ st₁ i₁ r₁ h₁
    by_cases hk : k₁ = k
    · subst hk
      simp only [Function.update_self] at h₁
      cases h₁
    · simp only [Function.update_of_ne hk] at h₁
      exact h k₁ st₁ i₁ r₁ h₁
  | @leave i hin hfree =>
    intro k st j r hk
    obtain ⟨hway, hj⟩ := h k st j r hk
    have hne : j ≠ i := by
      rintro rfl
      rw [hway, hk] at hfree
      cases hfree
    exact ⟨hway, (Function.update_of_ne hne ..).trans hj⟩

theorem sum_update_add {α γ : Type} [Fintype α] [DecidableEq α] (cost : α → γ → Nat) (f : α → γ)
    (a : α) (c : γ) :
    ∑ b, cost b (Function.update f a c b) + cost a (f a) = ∑ b, cost b (f b) + cost a c := by
  have hrest : ∑ b ∈ Finset.univ.erase a, cost b (Function.update f a c b) =
      ∑ b ∈ Finset.univ.erase a, cost b (f b) :=
    Finset.sum_congr rfl fun b hb => by rw [Function.update_of_ne (Finset.ne_of_mem_erase hb)]
  rw [← Finset.add_sum_erase _ _ (Finset.mem_univ a), hrest, Function.update_self,
    ← Finset.add_sum_erase Finset.univ (fun b => cost b (f b)) (Finset.mem_univ a)]
  omega

theorem Moves.rank_lt [Fintype κ] [Fintype ι] (hm : Moves way more g g') :
    rank more g' < rank more g := by
  unfold rank
  cases hm with
  | @enter i hout hfree =>
    have hp := sum_update_add (fun i => Place.cost (more i)) g.place i .inside
    have hl := sum_update_add (fun _ => laneCost) g.lane (way i) (some (.asked, i, more i))
    simp only [hout, hfree, cost_outside, cost_inside, laneCost_none, laneCost_asked] at hp hl
    simp only
    omega
  | @answer k i r hlane =>
    have hl := sum_update_add (fun _ => laneCost) g.lane k (some (.answered, i, r))
    simp only [hlane, laneCost_asked, laneCost_answered] at hl
    simp only
    omega
  | @next k i r hlane =>
    have hl := sum_update_add (fun _ => laneCost) g.lane k (some (.asked, i, r))
    simp only [hlane, laneCost_asked, laneCost_answered] at hl
    simp only
    omega
  | @free k i r hlane =>
    have hl := sum_update_add (fun _ => laneCost) g.lane k none
    simp only [hlane, laneCost_none, laneCost_answered] at hl
    simp only
    omega
  | @leave i hin hfree =>
    have hp := sum_update_add (fun i => Place.cost (more i)) g.place i .through
    simp only [hin, cost_inside, cost_through] at hp
    simp only
    omega

end Turnstile
end UniCache.Base
