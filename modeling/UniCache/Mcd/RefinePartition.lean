import UniCache.Mcd.RefineReclaim

/-! The partition reclaim routines as sequences of removals. -/
namespace UniCache.Mcd
open Base.Exec

def IsDom (loc : Loc) : Prop := loc.mode = .partition

theorem Removals.entries_subset {c : Ctx} {t u : Tiers} {l : List (Loc × McdHashT)}
    (h : Removals c t l u) (loc : Loc) : u.entries loc ⊆ t.entries loc := by
  refine h.induct (I := fun v => v.entries loc ⊆ t.entries loc) ?_ (List.Subset.refl _)
  intro v loc' mh w hr hv
  rw [hr.entries_eq]
  exact List.Subset.trans (Base.update_erase_sublist v.entries loc' mh loc).subset hv

theorem Freed.entries_subset {c : Ctx} {P : Loc → Prop} {s t : State} {n : UInt64}
    (h : Freed c P s t n) (loc : Loc) : t.entries loc ⊆ s.entries loc := by
  obtain ⟨l, hl, -, -⟩ := h
  exact hl.entries_subset loc

theorem Removals.mem_head {c : Ctx} {t u : Tiers} {x : Loc × McdHashT} {l : List (Loc × McdHashT)}
    (h : Removals c t (x :: l) u) : x.2 ∈ t.entries x.1 := by
  cases h with
  | cons hr _ => cases hr <;> assumption

theorem Freed.eq_zero {c : Ctx} {P : Loc → Prop} {s t : State} {n : UInt64} (h : Freed c P s t n)
    (hs : ∀ loc, P loc → s.entries loc = []) : n = 0 := by
  obtain ⟨l, hl, hP, rfl⟩ := h
  cases l with
  | nil => rfl
  | cons x rest =>
    have hmem : x.2 ∈ s.entries x.1 := hl.mem_head
    rw [hs x.1 (hP x List.mem_cons_self)] at hmem
    cases hmem

theorem entries_of_find {id : Domid} {s : State} {d : McdDomain} (h : findMcdDom id s = some d) :
    s.entries (.dom id) = d.hashList := by
  simp [State.entries, h]

theorem premove_spec {c : Ctx} {id : Domid} {mh : Option McdHashT} {p q : Progress} {s t : State}
    (h : Returns (premove c id mh p) s q t) (hm : ∀ m, mh = some m → m ∈ s.entries (.dom id)) :
    ∃ n, Freed c IsDom s t n ∧ q.tot = p.tot + n ∧
      t.entries = Function.update s.entries (.dom id)
        (mh.elim (s.entries (.dom id)) (s.entries (.dom id)).erase) := by
  cases mh with
  | none =>
    obtain ⟨rfl, rfl⟩ := returns_pure.mp h
    refine ⟨0, freed_of_tiers_eq rfl, by simp, ?_⟩
    exact (Function.update_eq_self (Loc.dom id) _).symm
  | some m =>
    obtain ⟨b, s₁, hr, h⟩ := returns_bind.mp h
    obtain ⟨rfl, rfl⟩ := returns_pure.mp h
    obtain ⟨rfl, hrem, -⟩ := pRemoveHashT_spec hr (hm m rfl)
    exact ⟨m.bytes, freed_one (show IsDom (.dom id) from rfl) hrem, rfl, hrem.entries_eq⟩

theorem premove_latedel {c : Ctx} {id : Domid} {latedel : Option McdHashT} {rest : List McdHashT}
    {p q : Progress} {s t : State} (h : Returns (premove c id latedel p) s q t)
    (hs : s.entries (.dom id) = latedel.toList ++ rest) :
    ∃ n, Freed c IsDom s t n ∧ q.tot = p.tot + n ∧
      t.entries = Function.update s.entries (.dom id) rest := by
  obtain ⟨n, hf, ht, he⟩ := premove_spec h fun m hm => by simp [hs, hm]
  have hrest : latedel.elim (s.entries (.dom id)) (s.entries (.dom id)).erase = rest := by
    cases latedel with
    | none => simpa using hs
    | some m => simp [hs]
  rw [hrest] at he
  exact ⟨n, hf, ht, he⟩

/-- A walk empties its list unless it is stopped. -/
theorem walkRemove_spec {c : Ctx} {id : Domid} {stop : UInt64 → Bool} {rest : List McdHashT}
    {latedel : Option McdHashT} {p q : Progress} {s t : State}
    (h : Returns (walkRemove c id stop rest latedel p) s q t)
    (hs : s.entries (.dom id) = latedel.toList ++ rest) :
    ∃ n, Freed c IsDom s t n ∧ q.tot = p.tot + n ∧
      (∀ loc ≠ .dom id, t.entries loc = s.entries loc) ∧
      (stop q.tot = true ∨ t.entries (.dom id) = []) := by
  induction rest generalizing latedel p s with
  | nil =>
    obtain ⟨n, hf, ht, he⟩ := premove_latedel h hs
    refine ⟨n, hf, ht, fun loc hl => ?_, .inr ?_⟩
    · rw [he, Function.update_of_ne hl]
    · rw [he, Function.update_self]
  | cons curr rest ih =>
    obtain ⟨p₁, s₁, h₁, h₂⟩ := returns_bind.mp h
    obtain ⟨n, hf, ht, he⟩ := premove_latedel h₁ hs
    have hother : ∀ loc ≠ .dom id, s₁.entries loc = s.entries loc := fun loc hl => by
      rw [he, Function.update_of_ne hl]
    by_cases hstop : latedel.isSome = true ∧ stop p₁.tot = true
    · rw [if_pos hstop] at h₂
      obtain ⟨rfl, rfl⟩ := returns_pure.mp h₂
      exact ⟨n, hf, ht, hother, .inl hstop.2⟩
    · rw [if_neg hstop] at h₂
      obtain ⟨n₂, hf₂, ht₂, ho₂, hend⟩ := ih h₂ (by rw [he, Function.update_self]; rfl)
      refine ⟨n + n₂, hf.trans hf₂, by rw [ht₂, ht, UInt64.add_assoc], fun loc hl => ?_, hend⟩
      rw [ho₂ loc hl, hother loc hl]

/-- The entries an LFRU scan chooses are there when their turn comes. -/
theorem lfruRemove_mem {now : Int} {id : Domid} {s : State} :
    (∀ m, (lfruScan now none (s.entries (.dom id))).lru = some m → m ∈ s.entries (.dom id)) ∧
    (∀ m, (lfruScan now none (s.entries (.dom id))).lfu = some m → m ∈ s.entries (.dom id)) ∧
    ∀ {t : State}, (lfruScan now none (s.entries (.dom id))).lru ≠
        (lfruScan now none (s.entries (.dom id))).lfu →
      t.entries = Function.update s.entries (.dom id) ((lfruScan now none (s.entries (.dom id))).lru.elim
        (s.entries (.dom id)) (s.entries (.dom id)).erase) →
      ∀ m, (lfruScan now none (s.entries (.dom id))).lfu = some m → m ∈ t.entries (.dom id) := by
  have hsub := lfruScan_subperm now (s.entries (.dom id))
  have hlfu : ∀ m, (lfruScan now none (s.entries (.dom id))).lfu = some m →
      m ∈ s.entries (.dom id) := fun m hm => hsub.subset (by simp [hm])
  refine ⟨fun m hm => hsub.subset (by simp [hm]), hlfu, ?_⟩
  intro t hne hent m hm
  rw [hent, Function.update_self]
  cases hl : (lfruScan now none (s.entries (.dom id))).lru with
  | none => exact hlfu m hm
  | some r =>
    rw [hl, hm] at hne
    exact (List.mem_erase_of_ne fun h => hne (congrArg some h.symm)).mpr (hlfu m hm)

theorem lfruRemove_spec {c : Ctx} {now : Int} {id : Domid} {p q : Progress} {s t : State}
    (h : Returns (lfruRemove c id (lfruScan now none (s.entries (.dom id))) p) s q t) :
    ∃ n, Freed c IsDom s t n ∧ q.tot = p.tot + n := by
  have hmem := @lfruRemove_mem now id s
  obtain ⟨hlru, hlfu, hleft⟩ := hmem
  unfold lfruRemove at h
  by_cases hne : (lfruScan now none (s.entries (.dom id))).lru ≠
      (lfruScan now none (s.entries (.dom id))).lfu
  · rw [if_pos hne] at h
    obtain ⟨p₁, s₁, h₁, h₂⟩ := returns_bind.mp h
    obtain ⟨n₁, hf₁, ht₁, he₁⟩ := premove_spec h₁ hlru
    obtain ⟨n₂, hf₂, ht₂, -⟩ := premove_spec h₂ (hleft hne he₁)
    exact ⟨n₁ + n₂, hf₁.trans hf₂, by rw [ht₂, ht₁, UInt64.add_assoc]⟩
  · rw [if_neg hne] at h
    obtain ⟨n, hf, ht, -⟩ := premove_spec h hlfu
    exact ⟨n, hf, ht⟩

/-- Part of a reclaim: what it adds to `tot` was removed, and no `lfu` pointer is left over. -/
def Takes (c : Ctx) (r : Reclaim) (s : State) (q : Reclaim) (t : State) : Prop :=
  q.lfu = none ∧ ∃ n, Freed c IsDom s t n ∧ q.tot = r.tot + n

theorem takes_refl {c : Ctx} {r : Reclaim} {s : State} (hr : r.lfu = none) : Takes c r s r s :=
  ⟨hr, 0, freed_of_tiers_eq rfl, by simp⟩

theorem Takes.trans {c : Ctx} {r q w : Reclaim} {s t u : State} (h₁ : Takes c r s q t)
    (h₂ : Takes c q t w u) : Takes c r s w u := by
  obtain ⟨-, m, hf, hm⟩ := h₁
  obtain ⟨hw, n, hg, hn⟩ := h₂
  exact ⟨hw, m + n, hf.trans hg, by rw [hn, hm, UInt64.add_assoc]⟩

/-- One execution of `REPLACE_MODE_SUBROUTINE`; `lfu` is reset whenever it was set. -/
theorem replaceModeSubroutine_spec {c : Ctx} {now : Int} {id : Domid} {r q : Reclaim}
    {s t : State} (h : Returns (replaceModeSubroutine c now id r) s q t) (hr : r.lfu = none) :
    Takes c r s q t := by
  simp only [replaceModeSubroutine, returns_bind, returns_domOf, returns_get, and_assoc,
    exists_and_left, exists_eq_left] at h
  obtain ⟨d, hd, h⟩ := h
  have he := entries_of_find hd
  cases hm : s.replacementMode with
  | lfru =>
    rw [hm] at h
    obtain ⟨p, s₂, h₁, h₂⟩ := returns_bind.mp h
    obtain ⟨rfl, rfl⟩ := returns_pure.mp h₂
    rw [hr, ← he] at h₁
    exact ⟨rfl, lfruRemove_spec h₁⟩
  | fast =>
    rw [hm] at h
    obtain ⟨p, s₂, h₁, h₂⟩ := returns_bind.mp h
    obtain ⟨rfl, rfl⟩ := returns_pure.mp h₂
    obtain ⟨n, hf, ht, -, -⟩ := walkRemove_spec h₁ (by simpa using he)
    exact ⟨hr, n, hf, ht⟩
  | score =>
    rw [hm] at h
    obtain ⟨p, s₂, h₁, h₂⟩ := returns_bind.mp h
    obtain ⟨rfl, rfl⟩ := returns_pure.mp h₂
    obtain ⟨n, hf, ht, -⟩ := premove_spec h₁ fun m hm => by rw [he]; exact minScore_mem hm
    exact ⟨hr, n, hf, ht⟩

section
variable {c : Ctx} {now : Int} {amount : UInt64} {considered : Domid → Bool}
  {eligible : McdDomain → Bool}

theorem phaseStep_spec {id : Domid} {r q : Reclaim} {s t : State}
    (h : Returns (phaseStep c now eligible id r) s q t) (hr : r.lfu = none) : Takes c r s q t := by
  simp only [phaseStep, returns_bind, returns_domOf, and_assoc, exists_and_left,
    exists_eq_left] at h
  obtain ⟨d, -, h⟩ := h
  by_cases he : eligible d = true
  · rw [if_pos he] at h
    exact replaceModeSubroutine_spec h hr
  · rw [if_neg he] at h
    obtain ⟨rfl, rfl⟩ := returns_pure.mp h
    exact takes_refl hr

theorem phaseRound_spec {ids : List Domid} {r q : Reclaim} {s t : State}
    (h : Returns (phaseRound c now amount considered eligible ids r) s q t) (hr : r.lfu = none) :
    Takes c r s q t := by
  induction ids generalizing r s with
  | nil =>
    obtain ⟨rfl, rfl⟩ := returns_pure.mp h
    exact takes_refl hr
  | cons id ids ih =>
    unfold phaseRound at h
    by_cases hc : ¬ considered id = true
    · rw [if_pos hc] at h
      exact ih h hr
    · rw [if_neg hc] at h
      obtain ⟨r₁, s₁, h₁, h₂⟩ := returns_bind.mp h
      have hstep := phaseStep_spec h₁ hr
      by_cases hstop : r₁.tot > amount
      · rw [if_pos hstop] at h₂
        obtain ⟨rfl, rfl⟩ := returns_pure.mp h₂
        exact hstep
      · rw [if_neg hstop] at h₂
        exact hstep.trans (ih h₂ hstep.1)

/-- A loop that ends when enough is free, or after a round that visits nothing. -/
theorem reclaimLoop_rule {loop : Nat → Reclaim → M Reclaim} (amount : UInt64)
    (body : Reclaim → M Reclaim) (next : Reclaim → Reclaim)
    {R : Reclaim → State → Reclaim → State → Prop}
    (hspin : ∀ r, loop 0 r = throw .spin)
    (hloop : ∀ n r, loop (n + 1) r =
      if r.tot < amount then do
        let q ← body { r with visited := false }
        if q.visited then loop n (next q) else pure q
      else pure r)
    (hdone : ∀ r s, ¬ r.tot < amount → R r s r s)
    (hround : ∀ {r s q t}, Returns (body { r with visited := false }) s q t → R r s q t)
    (hnext : ∀ {r s r₁ s₁ q t}, R r s r₁ s₁ → R (next r₁) s₁ q t → R r s q t)
    {turns : Nat} {r q : Reclaim} {s t : State} (h : Returns (loop turns r) s q t) : R r s q t := by
  induction turns generalizing r s with
  | zero =>
    rw [hspin] at h
    exact (returns_throw.mp h).elim
  | succ turns ih =>
    rw [hloop] at h
    by_cases hlt : r.tot < amount
    · rw [if_pos hlt] at h
      obtain ⟨r₁, s₁, h₁, h₂⟩ := returns_bind.mp h
      by_cases hv : r₁.visited = true
      · rw [if_pos hv] at h₂
        exact hnext (hround h₁) (ih h₂)
      · rw [if_neg hv] at h₂
        obtain ⟨rfl, rfl⟩ := returns_pure.mp h₂
        exact hround h₁
    · rw [if_neg hlt] at h
      obtain ⟨rfl, rfl⟩ := returns_pure.mp h
      exact hdone _ _ hlt

theorem phaseLoop_rule {R : Reclaim → State → Reclaim → State → Prop}
    (hdone : ∀ r s, R r s r s)
    (hround : ∀ {r s q t}, Returns (phaseRound c now amount considered eligible s.domids
      { r with visited := false }) s q t → R r s q t)
    (hnext : ∀ {r s r₁ s₁ q t}, R r s r₁ s₁ → R { r₁ with visited := false } s₁ q t → R r s q t)
    {turns : Nat} {r q : Reclaim} {s t : State}
    (h : Returns (phaseLoop c now amount considered eligible turns r) s q t) : R r s q t := by
  refine reclaimLoop_rule amount
    (fun r => get >>= fun s => phaseRound c now amount considered eligible s.domids r)
    (fun q => { q with visited := false }) (fun _ => rfl) ?_ (fun r s _ => hdone r s) ?_ hnext h
  · intro n r
    simp only [phaseLoop, bind_assoc]
  · intro r s q t hret
    exact hround (returns_get_bind.mp hret)

theorem phaseLoop_spec {turns : Nat} {r q : Reclaim} {s t : State}
    (h : Returns (phaseLoop c now amount considered eligible turns r) s q t) (hr : r.lfu = none) :
    Takes c r s q t := by
  -- the `visited` flag, reset around every pass, is not part of what a pass takes
  refine phaseLoop_rule (R := fun r s q t => r.lfu = none → Takes c r s q t)
    (fun r s hr => takes_refl hr) ?_ ?_ h hr
  · intro r s q t hret hr
    have hround := phaseRound_spec hret hr
    exact hround
  · intro r s r₁ s₁ q t hround hloop hr
    have hrest : Takes c r₁ s₁ q t := hloop (hround hr).1
    exact (hround hr).trans hrest

theorem weightPhase_spec {r q : Reclaim} {s t : State}
    (h : Returns (weightPhase c now amount considered eligible r) s q t) (hr : r.lfu = none) :
    Takes c r s q t := by
  simp only [weightPhase, returns_bind, returns_get, and_assoc, exists_and_left,
    exists_eq_left] at h
  exact phaseLoop_spec h hr

theorem weightPhases_spec {id : Domid} {fair : UInt32} {r q : Reclaim} {s t : State}
    (h : Returns (weightPhases c now amount id fair r) s q t) (hr : r.lfu = none) :
    Takes c r s q t := by
  simp only [weightPhases, returns_bind] at h
  obtain ⟨r₁, s₁, h₁, r₂, s₂, h₂, r₃, s₃, h₃, h₄⟩ := h
  have t₁ := weightPhase_spec h₁ hr
  have t₂ := weightPhase_spec h₂ t₁.1
  have t₃ := weightPhase_spec h₃ t₂.1
  exact t₁.trans (t₂.trans (t₃.trans (weightPhase_spec h₄ t₃.1)))

/-- Taking from every domain in turn frees more than was asked for, or empties the lists. -/
theorem brutallyFree_spec {ids : List Domid} {p q : Progress} {s t : State}
    (h : Returns (brutallyFree c amount ids p) s q t) :
    ∃ n, Freed c IsDom s t n ∧ q.tot = p.tot + n ∧
      (q.tot > amount ∨ ∀ id ∈ ids, t.entries (.dom id) = []) := by
  induction ids generalizing p s with
  | nil =>
    obtain ⟨rfl, rfl⟩ := returns_pure.mp h
    exact ⟨0, freed_of_tiers_eq rfl, by simp, .inr (by simp)⟩
  | cons id ids ih =>
    simp only [brutallyFree, returns_bind, returns_domOf, and_assoc, exists_and_left,
      exists_eq_left] at h
    obtain ⟨d, hd, p₁, s₁, h₁, h₂⟩ := h
    obtain ⟨n, hf, ht, -, hend⟩ := walkRemove_spec h₁ (by simpa using entries_of_find hd)
    by_cases hstop : p₁.tot > amount
    · rw [if_pos hstop] at h₂
      obtain ⟨rfl, rfl⟩ := returns_pure.mp h₂
      exact ⟨n, hf, ht, .inl hstop⟩
    · rw [if_neg hstop] at h₂
      obtain ⟨n₂, hf₂, ht₂, hend₂⟩ := ih h₂
      refine ⟨n + n₂, hf.trans hf₂, by rw [ht₂, ht, UInt64.add_assoc], ?_⟩
      refine hend₂.imp_right fun hall j hj => ?_
      rcases List.mem_cons.mp hj with rfl | hj
      · -- what the walk has emptied stays empty
        have hempty := hend.resolve_left (by simpa using hstop)
        have hsub := hf₂.entries_subset (.dom j)
        rw [hempty] at hsub
        exact List.subset_nil.mp hsub
      · exact hall j hj

theorem selfBrutalRound_spec {id : Domid} {ids : List Domid} {p q : Progress} {s t : State}
    (h : Returns (selfBrutalRound c amount id ids p) s q t) :
    ∃ n, Freed c IsDom s t n ∧ q.tot = p.tot + n := by
  induction ids generalizing p s with
  | nil =>
    obtain ⟨rfl, rfl⟩ := returns_pure.mp h
    exact ⟨0, freed_of_tiers_eq rfl, by simp⟩
  | cons j ids ih =>
    unfold selfBrutalRound at h
    by_cases hj : j ≠ id
    · rw [if_pos hj] at h
      exact ih h
    · rw [if_neg hj] at h
      simp only [returns_bind, returns_domOf, and_assoc, exists_and_left, exists_eq_left] at h
      obtain ⟨d, hd, h⟩ := h
      by_cases hcurr : d.curr ≤ 0
      · rw [if_pos hcurr] at h
        obtain ⟨rfl, rfl⟩ := returns_pure.mp h
        exact ⟨0, freed_of_tiers_eq rfl, by simp⟩
      · rw [if_neg hcurr] at h
        obtain ⟨p₁, s₁, h₁, h₂⟩ := returns_bind.mp h
        obtain ⟨n, hf, ht, -, -⟩ := walkRemove_spec h₁ (by simpa using entries_of_find hd)
        by_cases hstop : p₁.tot > amount
        · rw [if_pos hstop] at h₂
          obtain ⟨rfl, rfl⟩ := returns_pure.mp h₂
          exact ⟨n, hf, ht⟩
        · rw [if_neg hstop] at h₂
          obtain ⟨n₂, hf₂, ht₂⟩ := ih h₂
          exact ⟨n + n₂, hf.trans hf₂, by rw [ht₂, ht, UInt64.add_assoc]⟩

theorem selfBrutalLoop_spec {id : Domid} {turns : Nat} {p q : Progress} {s t : State}
    (h : Returns (selfBrutalLoop c amount id turns p) s q t) :
    ∃ n, Freed c IsDom s t n ∧ q.tot = p.tot + n := by
  induction turns generalizing p s with
  | zero => exact (returns_throw.mp h).elim
  | succ turns ih =>
    unfold selfBrutalLoop at h
    by_cases hlt : p.tot < amount
    · rw [if_pos hlt] at h
      simp only [returns_bind, returns_get, and_assoc, exists_and_left, exists_eq_left] at h
      obtain ⟨p₁, s₁, h₁, h₂⟩ := h
      obtain ⟨n, hf, ht⟩ := selfBrutalRound_spec h₁
      obtain ⟨n₂, hf₂, ht₂⟩ := ih h₂
      exact ⟨n + n₂, hf.trans hf₂, by rw [ht₂, ht, UInt64.add_assoc]⟩
    · rw [if_neg hlt] at h
      obtain ⟨rfl, rfl⟩ := returns_pure.mp h
      exact ⟨0, freed_of_tiers_eq rfl, by simp⟩

theorem adaptiveLoop_spec {id : Domid} {turns : Nat} {r q : Reclaim} {s t : State}
    (h : Returns (adaptiveLoop c now amount id turns r) s q t) (hr : r.lfu = none) :
    Takes c r s q t := by
  refine reclaimLoop_rule (R := fun r s q t => r.lfu = none → Takes c r s q t)
    amount (replaceModeSubroutine c now id) (fun q => q) (fun _ => rfl) (fun _ _ => rfl)
    (fun r s _ hr => takes_refl hr) ?_ ?_ h hr
  · intro r s q t hret hr
    have hone := replaceModeSubroutine_spec hret hr
    exact hone
  · intro r s r₁ s₁ q t hone hloop hr
    exact (hone hr).trans (hloop (hone hr).1)

end

theorem brutalPhase_spec {c : Ctx} {amount : UInt64} {id : Domid} {q : Progress} {s t : State}
    (h : Returns (brutalPhase c amount id) s q t) :
    Freed c IsDom s t q.tot ∧
      (id = 0 → q.tot > amount ∨ ∀ j ∈ s.domids, t.entries (.dom j) = []) := by
  simp only [brutalPhase, returns_bind, returns_get, and_assoc, exists_and_left,
    exists_eq_left] at h
  by_cases hz : id = 0
  · rw [if_pos hz] at h
    obtain ⟨n, hf, ht, hend⟩ := brutallyFree_spec h
    rw [UInt64.zero_add] at ht
    rw [ht] at hend ⊢
    exact ⟨hf, fun _ => hend⟩
  · rw [if_neg hz] at h
    obtain ⟨rfl, rfl⟩ := returns_pure.mp h
    exact ⟨freed_of_tiers_eq rfl, fun h => (hz h).elim⟩

theorem selfBrutalPhase_spec {c : Ctx} {amount : UInt64} {id : Domid} {p q : Progress}
    {s t : State} (h : Returns (selfBrutalPhase c amount id p) s q t) :
    ∃ n, Freed c IsDom s t n ∧ q.tot = p.tot + n := by
  simp only [selfBrutalPhase, returns_bind, returns_get, and_assoc, exists_and_left,
    exists_eq_left] at h
  by_cases hc : p.tot < amount ∧ s.replacementMode = .lfru
  · rw [if_pos hc] at h
    exact selfBrutalLoop_spec h
  · rw [if_neg hc] at h
    obtain ⟨rfl, rfl⟩ := returns_pure.mp h
    exact ⟨0, freed_of_tiers_eq rfl, by simp⟩

/-- The code a reclaim routine reports for `n` bytes freed. -/
def Reports (amount n : UInt64) (rc : Rc) : Prop :=
  (rc = .errNo ∧ amount ≤ n) ∨ (rc = .errNotMem ∧ n < amount)

theorem reports_ite (amount n : UInt64) :
    Reports amount n (if n < amount then .errNotMem else .errNo) := by
  by_cases h : n < amount
  · rw [if_pos h]; exact .inr ⟨rfl, h⟩
  · rw [if_neg h]; exact .inl ⟨rfl, UInt64.not_lt.mp h⟩

/-- The routine up to its last loop; no result if it has freed enough by then. -/
def weightBasedHead (c : Ctx) (amount : UInt64) (domid : Domid) : M (Option Progress) := do
  let now ← readNow c
  let s ← get
  domUsageUpdateAll c s.domains
  let p ← brutalPhase c amount domid
  if p.tot > amount then pure none
  else do
    let s ← get
    let r ← weightPhases c now amount domid (s.fairRateOf domid) { p with lfu := none }
    pure (some r.toProgress)

theorem partitionCfWeightBased_eq (c : Ctx) (amount : UInt64) (domid : Domid) :
    partitionCfWeightBased c amount domid = (do
      match ← weightBasedHead c amount domid with
      | none => pure .errNo
      | some p => do
        let p ← selfBrutalPhase c amount domid p
        pure (if p.tot < amount then .errNotMem else .errNo)) := by
  simp only [partitionCfWeightBased, weightBasedHead, bind_assoc]
  congr 1
  funext now
  congr 1
  funext s
  congr 1
  funext _
  congr 1
  funext p
  by_cases hp : p.tot > amount
  · simp only [if_pos hp, pure_bind]
  · simp only [if_neg hp, bind_assoc, pure_bind]

/-- What the routine has freed when it gets to its last loop: for dom0, all there is. -/
theorem weightBasedHead_spec {c : Ctx} {amount : UInt64} {id : Domid} {o : Option Progress}
    {s t : State} (h : Returns (weightBasedHead c amount id) s o t) :
    ∃ n, Freed c IsDom s t n ∧ (o = none → amount < n) ∧
      ∀ p, o = some p → p.tot = n ∧ (id = 0 → ∀ j ∈ s.domids, t.entries (.dom j) = []) := by
  simp only [weightBasedHead, returns_bind, returns_get, and_assoc, exists_and_left,
    exists_eq_left] at h
  obtain ⟨now, s₁, hnow, u, s₂, husage, p, s₃, hbrutal, h⟩ := h
  obtain ⟨-, rfl⟩ := returns_reading.mp hnow
  have hq' := quiet_domUsageUpdateAll c _ _ _ _ husage
  have hq : s₂.tiers = s.tiers := hq'
  have hids : s₂.domids = s.domids := congrArg Tiers.live hq
  obtain ⟨hf, hend⟩ := brutalPhase_spec hbrutal
  rw [hids] at hend
  have hf' : Freed c IsDom s s₃ p.tot := by
    have h := (freed_of_tiers_eq (c := c) (P := IsDom) hq).trans hf
    rwa [UInt64.zero_add] at h
  by_cases hstop : p.tot > amount
  · rw [if_pos hstop] at h
    obtain ⟨rfl, rfl⟩ := returns_pure.mp h
    exact ⟨p.tot, hf', fun _ => hstop, by simp⟩
  · rw [if_neg hstop] at h
    simp only [returns_bind, returns_get, returns_pure, and_assoc, exists_and_left,
      exists_eq_left] at h
    obtain ⟨r, s₄, hw, rfl, rfl⟩ := h
    obtain ⟨-, n, hf₁, htot⟩ := weightPhases_spec hw rfl
    refine ⟨p.tot + n, hf'.trans hf₁, by simp, ?_⟩
    intro q hq
    rw [← Option.some.inj hq]
    constructor
    · exact htot
    · intro hz j hj
      have hempty := (hend hz).resolve_left hstop j hj
      have hsub := hf₁.entries_subset (.dom j)
      rw [hempty] at hsub
      exact List.subset_nil.mp hsub

/-- Called for dom0, the weight-based routine frees enough or empties every list. -/
theorem partitionCfWeightBased_spec {c : Ctx} {amount : UInt64} {id : Domid} {rc : Rc}
    {s t : State} (h : Returns (partitionCfWeightBased c amount id) s rc t) :
    ∃ n, Freed c IsDom s t n ∧ Reports amount n rc ∧
      (id = 0 → amount ≤ n ∨ ∀ j ∈ s.domids, t.entries (.dom j) = []) := by
  rw [partitionCfWeightBased_eq] at h
  obtain ⟨o, s₁, hhead, h⟩ := returns_bind.mp h
  obtain ⟨n, hf, hnone, hsome⟩ := weightBasedHead_spec hhead
  cases o with
  | none =>
    obtain ⟨rfl, rfl⟩ := returns_pure.mp h
    have hlt := hnone rfl
    exact ⟨n, hf, .inl ⟨rfl, UInt64.le_of_lt hlt⟩, fun _ => .inl (UInt64.le_of_lt hlt)⟩
  | some p =>
    obtain ⟨q, s₂, hself, h⟩ := returns_bind.mp h
    obtain ⟨rfl, rfl⟩ := returns_pure.mp h
    obtain ⟨n₂, hf₂, htot⟩ := selfBrutalPhase_spec hself
    obtain ⟨hn, hend⟩ := hsome p rfl
    have hall := hf.trans hf₂
    rw [← hn, ← htot] at hall
    refine ⟨q.tot, hall, reports_ite amount q.tot, fun hz => .inr fun j hj => ?_⟩
    have hsub := hf₂.entries_subset (.dom j)
    rw [hend hz j hj] at hsub
    exact List.subset_nil.mp hsub

theorem partitionCfAdaptiveDynamic_spec {c : Ctx} {amount : UInt64} {id : Domid} {rc : Rc}
    {s t : State} (h : Returns (partitionCfAdaptiveDynamic c amount id) s rc t) :
    ∃ n, Freed c IsDom s t n ∧ Reports amount n rc := by
  simp only [partitionCfAdaptiveDynamic, adaptivePhase, returns_bind, returns_get, returns_pure,
    and_assoc, exists_and_left, exists_eq_left] at h
  obtain ⟨now, s₁, hnow, r, s₂, h₁, q, s₃, h₂, rfl, rfl⟩ := h
  obtain ⟨-, rfl⟩ := returns_reading.mp hnow
  have t₁ := adaptiveLoop_spec h₁ rfl
  have t₂ := adaptiveLoop_spec h₂ t₁.1
  obtain ⟨-, n, hf, ht⟩ := t₁.trans t₂
  rw [UInt64.zero_add] at ht
  rw [ht]
  exact ⟨n, hf, reports_ite amount n⟩

/-- The lists the reclaim routine of a mode takes from. -/
def InMode (m : CacheMode) (loc : Loc) : Prop := loc.mode = m

/-- What every reclaim does, whatever the modes: it removes entries of the current mode's lists,
and outside best effort its code says whether they made up the amount. -/
theorem cacheFree_spec {c : Ctx} {amount : UInt64} {id : Domid} {rc : Rc} {s t : State}
    (h : Returns (cacheFree c amount id) s rc t) :
    ∃ n, Freed c (InMode s.cacheMode) s t n ∧
      ((s.cacheMode = .partition ∧ s.partitionMode = .be ∧ rc = .errNo ∧ t = s) ∨
        Reports amount n rc) := by
  simp only [cacheFree, returns_bind, returns_get, and_assoc, exists_and_left, exists_eq_left] at h
  cases hm : s.cacheMode with
  | shared =>
    rw [hm] at h
    obtain ⟨n, hf, hrep⟩ := sharedCacheFree_spec h
    exact ⟨n, hf, .inr (hrep.imp_right fun h => ⟨h.1, h.2.1⟩)⟩
  | partition =>
    rw [hm] at h
    simp only [partitionCacheFree, returns_bind, returns_get, and_assoc, exists_and_left,
      exists_eq_left] at h
    cases hp : s.partitionMode with
    | be =>
      rw [hp] at h
      obtain ⟨rfl, rfl⟩ := returns_pure.mp h
      exact ⟨0, freed_of_tiers_eq rfl, .inl ⟨rfl, rfl, rfl, rfl⟩⟩
    | wb =>
      rw [hp] at h
      obtain ⟨n, hf, hrep, -⟩ := partitionCfWeightBased_spec h
      exact ⟨n, hf, .inr hrep⟩
    | ad =>
      rw [hp] at h
      obtain ⟨n, hf, hrep⟩ := partitionCfAdaptiveDynamic_spec h
      exact ⟨n, hf, .inr hrep⟩

end UniCache.Mcd
