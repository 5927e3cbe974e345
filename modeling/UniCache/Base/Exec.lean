import Mathlib.Logic.Relation

/-! Stateful computations that may stop without returning, and the rules for the runs
that do return. -/
namespace UniCache.Base

/-- State-passing computations over `σ` that stop with an `ε` or return. -/
abbrev Exec (σ ε α : Type) := StateT σ (Except ε) α

namespace Exec
variable {σ ε α β : Type}

/-- Started in `s`, the computation returns `a` and leaves the state `t`. -/
def Returns (x : Exec σ ε α) (s : σ) (a : α) (t : σ) : Prop := x.run s = .ok (a, t)

theorem returns_unique {x : Exec σ ε α} {s t u : σ} {a b : α}
    (ha : Returns x s a t) (hb : Returns x s b u) : a = b ∧ t = u := by
  have h : (Except.ok (a, t) : Except ε _) = .ok (b, u) := ha.symm.trans hb
  cases h
  exact ⟨rfl, rfl⟩

@[simp] theorem returns_pure {a b : α} {s t : σ} :
    Returns (pure a : Exec σ ε α) s b t ↔ b = a ∧ t = s := by
  constructor
  · intro h
    cases h
    exact ⟨rfl, rfl⟩
  · rintro ⟨rfl, rfl⟩
    rfl

@[simp] theorem returns_bind {x : Exec σ ε α} {f : α → Exec σ ε β} {s u : σ} {b : β} :
    Returns (x >>= f) s b u ↔ ∃ a t, Returns x s a t ∧ Returns (f a) t b u := by
  have hb : (x >>= f).run s = (x.run s).bind fun p => (f p.1).run p.2 := rfl
  unfold Returns
  rw [hb]
  cases hx : x.run s with
  | error e =>
    constructor
    · intro h
      cases h
    · rintro ⟨a, t, h, -⟩
      cases h
  | ok p =>
    constructor
    · intro h
      exact ⟨p.1, p.2, rfl, h⟩
    · rintro ⟨a, t, h, hf⟩
      cases h
      exact hf

@[simp] theorem returns_map {f : α → β} {x : Exec σ ε α} {s u : σ} {b : β} :
    Returns (f <$> x) s b u ↔ ∃ a, Returns x s a u ∧ b = f a := by
  rw [← bind_pure_comp]
  simp only [returns_bind, returns_pure]
  constructor
  · rintro ⟨a, t, hx, rfl, rfl⟩
    exact ⟨a, hx, rfl⟩
  · rintro ⟨a, hx, rfl⟩
    exact ⟨a, u, hx, rfl, rfl⟩

@[simp] theorem returns_get {s t a : σ} :
    Returns (get : Exec σ ε σ) s a t ↔ a = s ∧ t = s := returns_pure (σ := σ) (ε := ε)

@[simp] theorem returns_set {s t u : σ} {a : PUnit} :
    Returns (set u : Exec σ ε PUnit) s a t ↔ t = u := by
  constructor
  · intro h
    cases h
    rfl
  · rintro rfl
    rfl

@[simp] theorem returns_modify {f : σ → σ} {s t : σ} {a : PUnit} :
    Returns (modify f : Exec σ ε PUnit) s a t ↔ t = f s := by
  constructor
  · intro h
    cases h
    rfl
  · rintro rfl
    rfl

@[simp] theorem returns_throw {e : ε} {s t : σ} {a : α} :
    Returns (throw e : Exec σ ε α) s a t ↔ False := by
  constructor
  · intro h
    cases h
  · exact False.elim

@[simp] theorem returns_ite {c : Prop} [Decidable c] {x y : Exec σ ε α} {s t : σ} {a : α} :
    Returns (if c then x else y) s a t ↔ if c then Returns x s a t else Returns y s a t := by
  by_cases hc : c <;> simp [hc]

theorem returns_get_bind {f : σ → Exec σ ε α} {s t : σ} {a : α} :
    Returns (get >>= f) s a t ↔ Returns (f s) s a t := by
  simp only [returns_bind, returns_get, and_assoc, exists_and_left, exists_eq_left]

/-- Why the computation started in `s` stops, if it does not return. -/
def stop? (x : Exec σ ε α) (s : σ) : Option ε :=
  match x.run s with
  | .error e => some e
  | .ok _ => none

/-- A computation goes on where its first part returns. -/
theorem stop_bind {x : Exec σ ε α} {f : α → Exec σ ε β} {s t : σ} {a : α} (h : Returns x s a t) :
    stop? (x >>= f) s = stop? (f a) t := by
  have hb : (x >>= f).run s = (x.run s).bind fun p => (f p.1).run p.2 := rfl
  have hx : x.run s = .ok (a, t) := h
  unfold stop?
  rw [hb, hx]
  rfl

theorem stop_bind_left {x : Exec σ ε α} {f : α → Exec σ ε β} {s : σ} {e : ε}
    (h : stop? x s = some e) : stop? (x >>= f) s = some e := by
  have hb : (x >>= f).run s = (x.run s).bind fun p => (f p.1).run p.2 := rfl
  unfold stop? at h ⊢
  rw [hb]
  cases hx : x.run s with
  | error e' =>
    rw [hx] at h
    exact h
  | ok r =>
    rw [hx] at h
    cases h

/-- A returning run, found by evaluating what is asked of it. -/
theorem returns_of_map {x : Exec σ ε α} {s : σ} {f : α × σ → β} {b : β}
    (h : (x.run s).toOption.map f = some b) : ∃ a t, Returns x s a t ∧ f (a, t) = b := by
  cases hx : x.run s with
  | error e => simp [hx, Except.toOption] at h
  | ok p =>
    simp only [hx, Except.toOption, Option.map_some, Option.some.injEq] at h
    exact ⟨p.1, p.2, hx, h⟩

/-- A computation on a part of a larger state. -/
def zoom {τ : Type} (part : τ → σ) (put : σ → τ → τ) (x : Exec σ ε α) : Exec τ ε α :=
  fun y => (x.run (part y)).map fun r => (r.1, put r.2 y)

@[simp] theorem returns_zoom {τ : Type} {part : τ → σ} {put : σ → τ → τ} {x : Exec σ ε α} {y z : τ}
    {a : α} : Returns (zoom part put x) y a z ↔ ∃ t, Returns x (part y) a t ∧ z = put t y := by
  have hrun : (zoom part put x).run y = (x.run (part y)).map fun r => (r.1, put r.2 y) := rfl
  unfold Returns
  rw [hrun]
  cases x.run (part y) with
  | error e =>
    constructor
    · intro h
      cases h
    · rintro ⟨t, h, -⟩
      cases h
  | ok r =>
    constructor
    · intro h
      cases h
      exact ⟨r.2, rfl, rfl⟩
    · rintro ⟨t, h, rfl⟩
      cases h
      rfl

/-- What every returning run of `x` does to the state. -/
def Within (R : σ → σ → Prop) (x : Exec σ ε α) : Prop :=
  ∀ s a t, Returns x s a t → R s t

namespace Within
variable {R : σ → σ → Prop}

theorem pure (hr : ∀ s, R s s) (a : α) : Within R (Pure.pure a : Exec σ ε α) := by
  intro s b t h
  obtain ⟨-, rfl⟩ := returns_pure.mp h
  exact hr _

theorem bind (ht : ∀ {a b c}, R a b → R b c → R a c) {x : Exec σ ε α} {f : α → Exec σ ε β}
    (hx : Within R x) (hf : ∀ a, Within R (f a)) : Within R (x >>= f) := by
  intro s b u h
  obtain ⟨a, t, h₁, h₂⟩ := returns_bind.mp h
  exact ht (hx s a t h₁) (hf a t b u h₂)

theorem get (hr : ∀ s, R s s) : Within R (MonadState.get : Exec σ ε σ) := by
  intro s a t h
  rw [(returns_get.mp h).2]
  exact hr s

theorem of_modify {f : σ → σ} (hf : ∀ s, R s (f s)) : Within R (modify f : Exec σ ε PUnit) := by
  intro s a t h
  rw [returns_modify.mp h]
  exact hf s

theorem throw (e : ε) : Within R (MonadExcept.throw e : Exec σ ε α) := by
  intro s a t h
  exact (returns_throw.mp h).elim

theorem ite {p : Prop} [Decidable p] {x y : Exec σ ε α} (hx : Within R x) (hy : Within R y) :
    Within R (if p then x else y) := by
  by_cases hp : p
  · rw [if_pos hp]
    exact hx
  · rw [if_neg hp]
    exact hy

end Within

theorem returns_bind_of {x : Exec σ ε α} {f : α → Exec σ ε β} {s t : σ} {a : α}
    (hx : Returns x s a t) (hf : ∃ b u, Returns (f a) t b u) : ∃ b u, Returns (x >>= f) s b u := by
  obtain ⟨b, u, h⟩ := hf
  exact ⟨b, u, returns_bind.mpr ⟨a, t, hx, h⟩⟩

/-- The computation returns from every state. -/
def Halts (x : Exec σ ε α) : Prop := ∀ s, ∃ a t, Returns x s a t

namespace Halts

theorem pure (a : α) : Halts (Pure.pure a : Exec σ ε α) :=
  fun s => ⟨a, s, returns_pure.mpr ⟨rfl, rfl⟩⟩

theorem bind {x : Exec σ ε α} {f : α → Exec σ ε β} (hx : Halts x) (hf : ∀ a, Halts (f a)) :
    Halts (x >>= f) := by
  intro s
  obtain ⟨a, t, h⟩ := hx s
  obtain ⟨b, u, h'⟩ := hf a t
  exact ⟨b, u, returns_bind.mpr ⟨a, t, h, h'⟩⟩

theorem get : Halts (MonadState.get : Exec σ ε σ) := fun s => ⟨s, s, returns_get.mpr ⟨rfl, rfl⟩⟩

theorem modify (f : σ → σ) : Halts (modify f : Exec σ ε PUnit) :=
  fun _ => ⟨⟨⟩, _, returns_modify.mpr rfl⟩

theorem ite {p : Prop} [Decidable p] {x y : Exec σ ε α} (hx : Halts x) (hy : Halts y) :
    Halts (if p then x else y) := by
  by_cases hp : p
  · rw [if_pos hp]
    exact hx
  · rw [if_neg hp]
    exact hy

end Halts

/-- From the states in `I`, which they do not leave, two computations do the same. -/
def Agree (I : σ → Prop) (x y : Exec σ ε α) : Prop :=
  ∀ s, I s → x.run s = y.run s ∧ ∀ a t, Returns x s a t → I t

section
variable {I : σ → Prop} {x y : Exec σ ε α} {f g : α → Exec σ ε β}

theorem agree_of_keeps (h : ∀ s a t, Returns x s a t → I s → I t) : Agree I x x :=
  fun s hs => ⟨rfl, fun a t hx => h s a t hx hs⟩

theorem agree_pure (a : α) : Agree I (pure a : Exec σ ε α) (pure a) :=
  agree_of_keeps fun _ _ _ h hs => (returns_pure.mp h).2 ▸ hs

theorem agree_throw (e : ε) : Agree I (throw e : Exec σ ε α) (throw e) :=
  agree_of_keeps fun _ _ _ h => (returns_throw.mp h).elim

theorem agree_modify {u : σ → σ} (hu : ∀ s, I s → I (u s)) :
    Agree I (modify u : Exec σ ε PUnit) (modify u) :=
  agree_of_keeps fun s _ _ h hs => returns_modify.mp h ▸ hu s hs

theorem agree_set {u : σ} (hu : I u) : Agree I (set u : Exec σ ε PUnit) (set u) :=
  agree_of_keeps fun _ _ _ h _ => returns_set.mp h ▸ hu

theorem agree_bind (hx : Agree I x y) (hf : ∀ a, Agree I (f a) (g a)) :
    Agree I (x >>= f) (y >>= g) := by
  intro s hs
  obtain ⟨heq, hkeep⟩ := hx s hs
  constructor
  · have hl : (x >>= f).run s = (x.run s).bind fun p => (f p.1).run p.2 := rfl
    have hr : (y >>= g).run s = (y.run s).bind fun p => (g p.1).run p.2 := rfl
    rw [hl, hr, ← heq]
    cases hrun : x.run s with
    | error e => rfl
    | ok p => exact (hf p.1 p.2 (hkeep p.1 p.2 hrun)).1
  · intro b u h
    obtain ⟨a, t, h₁, h₂⟩ := returns_bind.mp h
    exact (hf a t (hkeep a t h₁)).2 b u h₂

/-- What is read is a state in `I`. -/
theorem agree_get {f g : σ → Exec σ ε β} (hf : ∀ s, I s → Agree I (f s) (g s)) :
    Agree I (get >>= f) (get >>= g) := by
  intro s hs
  exact hf s hs s hs

theorem agree_ite {c : Prop} [Decidable c] {x' y' : Exec σ ε α} (hx : Agree I x y)
    (hx' : Agree I x' y') : Agree I (if c then x else x') (if c then y else y') := by
  by_cases hc : c
  · rw [if_pos hc, if_pos hc]
    exact hx
  · rw [if_neg hc, if_neg hc]
    exact hx'

end
end Exec
end UniCache.Base
