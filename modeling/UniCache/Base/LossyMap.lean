import Mathlib.Data.List.Induction

/-! Maps that may lose keys. A history of writes replays into a map; what a store holds is coherent
with the history when the replay holds it too. -/
namespace UniCache.Base

/-- What an event does to each key: nothing, forget it (`some none`), or give it a value. -/
abbrev Write (κ ν : Type) := κ → Option (Option ν)

namespace LossyMap
variable {ε κ ν : Type} (w : ε → Write κ ν)

def replay (hist : List ε) (k : κ) : Option ν :=
  hist.foldl (fun cur e => (w e k).getD cur) none

@[simp] theorem replay_concat (hist : List ε) (e : ε) (k : κ) :
    replay w (hist ++ [e]) k = (w e k).getD (replay w hist k) := by
  simp [replay]

/-- When the replay holds `v` for a key, the last event that concerns the key has set `v`. -/
theorem exists_write_of_replay {hist : List ε} {k : κ} {v : ν} (h : replay w hist k = some v) :
    ∃ pre e post, hist = pre ++ e :: post ∧ w e k = some (some v) ∧ ∀ x ∈ post, w x k = none := by
  induction hist using List.reverseRecOn with
  | nil => simp [replay] at h
  | append_singleton hist e ih =>
    rw [replay_concat] at h
    cases he : w e k with
    | none =>
      rw [he] at h
      obtain ⟨pre, e', post, rfl, hset, hpost⟩ := ih h
      refine ⟨pre, e', post ++ [e], by simp, hset, fun x hx => ?_⟩
      rcases List.mem_append.mp hx with hx | hx
      · exact hpost x hx
      · rw [List.mem_singleton.mp hx]
        exact he
    | some o =>
      rw [he] at h
      have ho : o = some v := h
      exact ⟨hist, e, [], rfl, by rw [he, ho], by simp⟩

/-- Everything held is what the history last wrote. -/
def Coherent (hist : List ε) (held : κ → ν → Prop) : Prop :=
  ∀ k v, held k v → replay w hist k = some v

/-- What is held after an event was written by it, or was held before and not concerned by it. -/
def Follows (e : Write κ ν) (held held' : κ → ν → Prop) : Prop :=
  ∀ k v, held' k v → e k = some (some v) ∨ (e k = none ∧ held k v)

variable {w}

theorem Coherent.step {hist : List ε} {held held' : κ → ν → Prop} {e : ε}
    (h : Coherent w hist held) (hf : Follows (w e) held held') :
    Coherent w (hist ++ [e]) held' := by
  intro k v hv
  rw [replay_concat]
  rcases hf k v hv with hset | ⟨hnone, hold⟩
  · rw [hset]
    rfl
  · rw [hnone]
    exact h k v hold

/-- A store that holds nothing is coherent with any history. -/
theorem coherent_of_empty {hist : List ε} {held : κ → ν → Prop} (h : ∀ k v, ¬ held k v) :
    Coherent w hist held := fun k v hv => (h k v hv).elim

/-- Everything the history last wrote is held: no key is lost. -/
def Lossless (w : ε → Write κ ν) (hist : List ε) (held : κ → ν → Prop) : Prop :=
  ∀ k v, replay w hist k = some v → held k v

/-- What an event writes is held after it, and what it does not concern is held on. -/
def Retains (e : Write κ ν) (held held' : κ → ν → Prop) : Prop :=
  ∀ k v, e k = some (some v) ∨ (e k = none ∧ held k v) → held' k v

theorem Lossless.step {hist : List ε} {held held' : κ → ν → Prop} {e : ε}
    (h : Lossless w hist held) (hr : Retains (w e) held held') :
    Lossless w (hist ++ [e]) held' := by
  intro k v hv
  rw [replay_concat] at hv
  cases he : w e k with
  | none =>
    rw [he] at hv
    exact hr k v (.inr ⟨he, h k v hv⟩)
  | some o =>
    rw [he] at hv
    have ho : o = some v := hv
    exact hr k v (.inl (by rw [he, ho]))

end LossyMap
end UniCache.Base
