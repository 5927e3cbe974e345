import UniCache.Base.Exec

/-! Total correctness of loops that go on while they make progress: a round that raises its flag
lowers a measure of the state, so a loop with more turns than the measure returns. -/
namespace UniCache.Base.Exec

variable {σ ε α β : Type}

/-- From `s` the computation returns in a state of `I` whose measure is no larger. The measure is
smaller if the result has its flag up and the flag `b` was down. -/
def Advances (I : σ → Prop) (μ : σ → Nat) (flag : α → Bool) (b : Bool) (x : Exec σ ε α) (s : σ) :
    Prop :=
  ∃ a t, Returns x s a t ∧ I t ∧ μ t ≤ μ s ∧ (flag a = true → b = true ∨ μ t < μ s)

section
variable {I : σ → Prop} {μ : σ → Nat} {flag : α → Bool} {flag' : β → Bool} {b : Bool}
  {x : Exec σ ε α} {f : α → Exec σ ε β} {s : σ}

theorem advances_pure {a : α} (hs : I s) (h : flag a = true → b = true) :
    Advances I μ flag b (pure a : Exec σ ε α) s :=
  ⟨a, s, returns_pure.mpr ⟨rfl, rfl⟩, hs, Nat.le_refl _, fun ha => .inl (h ha)⟩

theorem advances_skip {a : α} (hs : I s) : Advances I μ flag (flag a) (pure a : Exec σ ε α) s :=
  advances_pure hs fun h => h

theorem Advances.bind (hx : Advances I μ flag b x s)
    (hf : ∀ a t, Returns x s a t → I t → Advances I μ flag' (flag a) (f a) t) :
    Advances I μ flag' b (x >>= f) s := by
  obtain ⟨a, t, hret, ht, hle, hflag⟩ := hx
  obtain ⟨a', u, hret', hu, hle', hflag'⟩ := hf a t hret ht
  refine ⟨a', u, returns_bind.mpr ⟨a, t, hret, hret'⟩, hu, Nat.le_trans hle' hle, ?_⟩
  intro ha'
  rcases hflag' ha' with ha | hlt
  · rcases hflag ha with hb | hlt
    · exact .inl hb
    · exact .inr (by omega)
  · exact .inr (by omega)

theorem advances_get {f : σ → Exec σ ε β} (hf : Advances I μ flag' b (f s) s) :
    Advances I μ flag' b (get >>= f) s := by
  obtain ⟨a, t, hret, h⟩ := hf
  exact ⟨a, t, returns_get_bind.mpr hret, h⟩

end

/-- A loop that, from what it carries and a state in `I`, returns in a state of `Q` or passes control
to itself with one turn less and a smaller measure. -/
theorem returns_of_turns {I : β → σ → Prop} {Q : σ → Prop} {μ : σ → Nat}
    {loop : Nat → β → Exec σ ε α}
    (hstep : ∀ n b s, I b s → (∃ a t, Returns (loop (n + 1) b) s a t ∧ Q t) ∨
      ∃ b' t, I b' t ∧ μ t < μ s ∧
        ∀ a u, Returns (loop n b') t a u → Returns (loop (n + 1) b) s a u) :
    ∀ {n b s}, I b s → μ s < n → ∃ a t, Returns (loop n b) s a t ∧ Q t := by
  intro n
  induction n with
  | zero =>
    intro b s _ hlt
    omega
  | succ n ih =>
    intro b s hs hlt
    rcases hstep n b s hs with hret | ⟨b', t, ht, hless, hpass⟩
    · exact hret
    · obtain ⟨a, u, hret, hu⟩ := ih ht (by omega)
      exact ⟨a, u, hpass a u hret, hu⟩

end UniCache.Base.Exec
