import UniCache.Mcd.SharedContract

/-! `partition_cf_weight_based` up to its last loop always returns; when the last loop does. -/
namespace UniCache.Mcd
open Base Base.Exec

/-! ### The phases before the last loop -/

section
variable {s : State}

theorem privateCount_eq (hnd : s.domids.Nodup) :
    s.privateCount = s.tiers.numEntries .partition := by
  unfold State.privateCount Tiers.numEntries total Tiers.locs
  have hlive : s.tiers.live = s.domains.map (·.domid) := rfl
  rw [hlive, List.map_map, List.map_map]
  congr 1
  apply List.map_congr_left
  intro d hd
  have hent : s.tiers.entries (.dom d.domid) = d.hashList := entries_of_find (find_of_mem hnd hd)
  simp [hent]

end

section
variable {c : Ctx} {now : Int} {amount : UInt64} {D : List Domid} {s : State} {id : Domid}
  {p : Progress} {α : Type} {flag : α → Bool} {b : Bool}

/-- States the reclaim of the domains `D` passes through. -/
structure Draining (c : Ctx) (D : List Domid) (s : State) : Prop where
  removable : s.Removable c .partition
  domids : s.domids = D

/-- Progress of a reclaim from the domains' lists: an entry less for a flag that goes up. -/
abbrev Drains (c : Ctx) (D : List Domid) (flag : α → Bool) (b : Bool) (x : M α) (s : State) : Prop :=
  Advances (Draining c D) (fun s => s.tiers.numEntries .partition) flag b x s

theorem drains_domOf {f : McdDomain → M α} (h : Draining c D s) (hid : id ∈ D)
    (hf : ∀ d, findMcdDom id s = some d → Drains c D flag b (f d) s) :
    Drains c D flag b (domOf id >>= f) s := by
  rw [← h.domids] at hid
  obtain ⟨d, hd⟩ := find_of_listed hid
  obtain ⟨a, t, hret, hrest⟩ := hf d hd
  exact ⟨a, t, returns_bind.mpr ⟨d, s, returns_domOf.mpr ⟨hd, rfl⟩, hret⟩, hrest⟩

theorem premove_drains (h : Draining c D s) (hid : id ∈ D) {mh : Option McdHashT}
    (hm : ∀ m, mh = some m → m ∈ s.entries (.dom id)) :
    Drains c D Progress.visited p.visited (premove c id mh p) s := by
  cases mh with
  | none => exact advances_skip h
  | some m =>
    rw [← h.domids] at hid
    obtain ⟨t, hret, ht, hlt⟩ := h.removable.pRemove hid (hm m rfl)
    have hlive : t.domids = s.domids := by
      have hrem := (pRemoveHashT_spec hret (hm m rfl)).2.1
      exact (Removals.cons hrem (.nil _)).live_eq
    refine ⟨_, t, returns_bind.mpr ⟨_, t, hret, returns_pure.mpr ⟨rfl, rfl⟩⟩,
      ⟨ht, hlive.trans h.domids⟩, hlt.le, ?_⟩
    intro _
    exact .inr hlt

theorem walkRemove_drains {stop : UInt64 → Bool} {rest : List McdHashT} {latedel : Option McdHashT}
    (h : Draining c D s) (hid : id ∈ D) (hs : s.entries (.dom id) = latedel.toList ++ rest) :
    Drains c D Progress.visited p.visited (walkRemove c id stop rest latedel p) s := by
  have hmem : ∀ m, latedel = some m → m ∈ s.entries (.dom id) := fun m hm => by simp [hs, hm]
  induction rest generalizing latedel p s with
  | nil => exact premove_drains h hid hmem
  | cons curr rest ih =>
    apply (premove_drains h hid hmem).bind
    intro q t hret ht
    obtain ⟨n, -, -, hent⟩ := premove_latedel hret hs
    by_cases hstop : latedel.isSome = true ∧ stop q.tot = true
    · rw [if_pos hstop]
      exact advances_skip ht
    · rw [if_neg hstop]
      have hrest : t.entries (.dom id) = (some curr).toList ++ rest := by
        rw [hent, Function.update_self]
        rfl
      exact ih ht hrest fun m hm => by simp [hrest, hm]

theorem lfruRemove_drains (h : Draining c D s) (hid : id ∈ D) :
    Drains c D Progress.visited p.visited
      (lfruRemove c id (lfruScan now none (s.entries (.dom id))) p) s := by
  obtain ⟨hlru, hlfu, hleft⟩ := @lfruRemove_mem now id s
  unfold lfruRemove
  by_cases hne : (lfruScan now none (s.entries (.dom id))).lru ≠
      (lfruScan now none (s.entries (.dom id))).lfu
  · rw [if_pos hne]
    apply (premove_drains h hid hlru).bind
    intro q t hret ht
    obtain ⟨n, -, -, hent⟩ := premove_spec hret hlru
    exact premove_drains ht hid (hleft hne hent)
  · rw [if_neg hne]
    exact premove_drains h hid hlfu

variable {r : Reclaim}

theorem replaceModeSubroutine_drains (h : Draining c D s) (hid : id ∈ D) (hr : r.lfu = none) :
    Drains c D (fun r : Reclaim => r.visited) r.visited (replaceModeSubroutine c now id r) s := by
  apply drains_domOf h hid
  intro d hd
  have hent : s.entries (.dom id) = d.hashList := entries_of_find hd
  apply advances_get
  cases s.replacementMode with
  | lfru =>
    rw [hr, ← hent]
    apply (lfruRemove_drains h hid).bind
    intro q t _ ht
    exact advances_pure ht fun hv => hv
  | fast =>
    apply (walkRemove_drains h hid (by simpa using hent)).bind
    intro q t _ ht
    exact advances_pure ht fun hv => hv
  | score =>
    apply (premove_drains h hid fun m hm => by rw [hent]; exact minScore_mem hm).bind
    intro q t _ ht
    exact advances_pure ht fun hv => hv

variable {considered : Domid → Bool} {eligible : McdDomain → Bool}

theorem phaseStep_drains (h : Draining c D s) (hid : id ∈ D) (hr : r.lfu = none) :
    Drains c D (fun r : Reclaim => r.visited) r.visited (phaseStep c now eligible id r) s := by
  apply drains_domOf h hid
  intro d _
  by_cases he : eligible d = true
  · rw [if_pos he]
    exact replaceModeSubroutine_drains h hid hr
  · rw [if_neg he]
    exact advances_skip h

theorem phaseRound_drains {ids : List Domid} (h : Draining c D s) (hids : ids ⊆ D)
    (hr : r.lfu = none) : Drains c D (fun r : Reclaim => r.visited) r.visited
      (phaseRound c now amount considered eligible ids r) s := by
  induction ids generalizing r s with
  | nil => exact advances_skip h
  | cons id ids ih =>
    have hid : id ∈ D := hids List.mem_cons_self
    have hrest : ids ⊆ D := fun d hd => hids (List.mem_cons_of_mem _ hd)
    unfold phaseRound
    by_cases hc : ¬ considered id = true
    · rw [if_pos hc]
      exact ih h hrest hr
    · rw [if_neg hc]
      apply (phaseStep_drains h hid hr).bind
      intro q t hret ht
      by_cases hstop : q.tot > amount
      · rw [if_pos hstop]
        exact advances_skip ht
      · rw [if_neg hstop]
        exact ih ht hrest (phaseStep_spec hret hr).1

omit r in
/-- A loop whose body has removed an entry whenever it goes on. -/
theorem reclaimLoop_returns {loop : Nat → Reclaim → M Reclaim} (amount : UInt64)
    (body : Reclaim → M Reclaim) (next : Reclaim → Reclaim)
    (hloop : ∀ n r, loop (n + 1) r =
      if r.tot < amount then do
        let q ← body { r with visited := false }
        if q.visited then loop n (next q) else pure q
      else pure r)
    (hbody : ∀ {r s}, Draining c D s → r.lfu = none →
      Drains c D (fun r : Reclaim => r.visited) r.visited (body r) s)
    (hclean : ∀ {r s q t}, Returns (body r) s q t → r.lfu = none → (next q).lfu = none)
    {turns : Nat} {r : Reclaim} (h : Draining c D s) (hr : r.lfu = none)
    (hturns : s.tiers.numEntries .partition < turns) :
    ∃ q t, Returns (loop turns r) s q t ∧ Draining c D t := by
  have hstep : ∀ (n : Nat) (r : Reclaim) (s : State), r.lfu = none ∧ Draining c D s →
      (∃ q t, Returns (loop (n + 1) r) s q t ∧ Draining c D t) ∨
      ∃ (r' : Reclaim) (t : State), (r'.lfu = none ∧ Draining c D t) ∧
        t.tiers.numEntries .partition < s.tiers.numEntries .partition ∧
        ∀ q u, Returns (loop n r') t q u → Returns (loop (n + 1) r) s q u := by
    rintro n r s ⟨hr, hs⟩
    rw [hloop]
    by_cases hlt : r.tot < amount
    · rw [if_pos hlt]
      obtain ⟨q, t, hret, ht, -, hflag⟩ : Drains c D (fun r : Reclaim => r.visited) false
          (body { r with visited := false }) s := hbody hs hr
      by_cases hv : q.visited = true
      · refine .inr ⟨next q, t, ⟨hclean hret hr, ht⟩, (hflag hv).resolve_left (by simp),
          fun w u hrest => returns_bind.mpr ⟨q, t, hret, ?_⟩⟩
        rw [if_pos hv]
        exact hrest
      · refine .inl ⟨q, t, returns_bind.mpr ⟨q, t, hret, ?_⟩, ht⟩
        rw [if_neg hv]
        exact returns_pure.mpr ⟨rfl, rfl⟩
    · rw [if_neg hlt]
      exact .inl ⟨r, s, returns_pure.mpr ⟨rfl, rfl⟩, hs⟩
  exact returns_of_turns (I := fun r s => r.lfu = none ∧ Draining c D s) hstep ⟨hr, h⟩ hturns

theorem phaseLoop_returns {turns : Nat} (h : Draining c D s) (hr : r.lfu = none)
    (hturns : s.tiers.numEntries .partition < turns) :
    ∃ q t, Returns (phaseLoop c now amount considered eligible turns r) s q t ∧ Draining c D t := by
  refine reclaimLoop_returns amount
    (fun r => get >>= fun s => phaseRound c now amount considered eligible s.domids r)
    (fun q => { q with visited := false }) ?_ ?_ ?_ h hr hturns
  · intro n r
    simp only [phaseLoop, bind_assoc]
  · intro r s hs hr
    apply advances_get
    exact phaseRound_drains hs (by rw [hs.domids]; exact fun _ hd => hd) hr
  · intro r s q t hret hr
    exact (phaseRound_spec (returns_get_bind.mp hret) hr).1

theorem adaptiveLoop_returns {turns : Nat} (h : Draining c D s) (hid : id ∈ D) (hr : r.lfu = none)
    (hturns : s.tiers.numEntries .partition < turns) :
    ∃ q t, Returns (adaptiveLoop c now amount id turns r) s q t ∧ Draining c D t :=
  reclaimLoop_returns amount (replaceModeSubroutine c now id) (fun q => q) (fun _ _ => rfl)
    (fun hs hr => replaceModeSubroutine_drains hs hid hr)
    (fun hret hr => (replaceModeSubroutine_spec hret hr).1) h hr hturns

omit r in
theorem Draining.turns (h : Draining c D s) :
    s.tiers.numEntries .partition < s.privateCount + 1 := by
  rw [privateCount_eq (h.removable.nodup.of_map _)]
  exact Nat.lt_succ_self _

theorem weightPhase_returns (now : Int) (amount : UInt64) (considered : Domid → Bool)
    (eligible : McdDomain → Bool) (h : Draining c D s) (hr : r.lfu = none) :
    ∃ q t, Returns (weightPhase c now amount considered eligible r) s q t ∧ q.lfu = none ∧
      Draining c D t := by
  obtain ⟨q, t, hret, ht⟩ : ∃ q t, Returns (phaseLoop c now amount considered eligible
      (s.privateCount + 1) r) s q t ∧ Draining c D t := phaseLoop_returns h hr h.turns
  exact ⟨q, t, returns_get_bind.mpr hret, (phaseLoop_spec hret hr).1, ht⟩

theorem adaptivePhase_returns (now : Int) (amount : UInt64) (h : Draining c D s) (hid : id ∈ D)
    (hr : r.lfu = none) :
    ∃ q t, Returns (adaptivePhase c now amount id r) s q t ∧ q.lfu = none ∧ Draining c D t := by
  obtain ⟨q, t, hret, ht⟩ : ∃ q t, Returns (adaptiveLoop c now amount id (s.privateCount + 1) r) s q t ∧
      Draining c D t := adaptiveLoop_returns h hid hr h.turns
  exact ⟨q, t, returns_get_bind.mpr hret, (adaptiveLoop_spec hret hr).1, ht⟩

theorem weightPhases_returns (now : Int) (amount : UInt64) (id : Domid) (fair : UInt32)
    (h : Draining c D s) (hr : r.lfu = none) :
    ∃ q t, Returns (weightPhases c now amount id fair r) s q t ∧ Draining c D t := by
  obtain ⟨r₁, s₁, h₁, hr₁, hs₁⟩ :=
    weightPhase_returns now amount (· ≠ id) (fun d => d.fairRate > fair) h hr
  obtain ⟨r₂, s₂, h₂, hr₂, hs₂⟩ :=
    weightPhase_returns now amount (· = id) (fun d => d.curr > 100) hs₁ hr₁
  obtain ⟨r₃, s₃, h₃, hr₃, hs₃⟩ :=
    weightPhase_returns now amount (· ≠ id) (fun d => d.curr > 100) hs₂ hr₂
  obtain ⟨r₄, s₄, h₄, -, hs₄⟩ :=
    weightPhase_returns now amount (· = id) (fun d => d.curr > 0) hs₃ hr₃
  refine ⟨r₄, s₄, ?_, hs₄⟩
  simp only [weightPhases, returns_bind]
  exact ⟨r₁, s₁, h₁, r₂, s₂, h₂, r₃, s₃, h₃, h₄⟩

theorem brutallyFree_drains {ids : List Domid} (h : Draining c D s) (hids : ids ⊆ D) :
    Drains c D Progress.visited p.visited (brutallyFree c amount ids p) s := by
  induction ids generalizing p s with
  | nil => exact advances_skip h
  | cons id ids ih =>
    apply drains_domOf h (hids List.mem_cons_self)
    intro d hd
    apply (walkRemove_drains h (hids List.mem_cons_self) (by simpa using entries_of_find hd)).bind
    intro q t _ ht
    by_cases hstop : q.tot > amount
    · rw [if_pos hstop]
      exact advances_skip ht
    · rw [if_neg hstop]
      exact ih ht fun d hd => hids (List.mem_cons_of_mem _ hd)

theorem brutalPhase_returns (amount : UInt64) (id : Domid) (h : Draining c D s) :
    ∃ q t, Returns (brutalPhase c amount id) s q t ∧ Draining c D t := by
  have hids : s.domids ⊆ D := by
    rw [h.domids]
    exact fun _ hd => hd
  by_cases hz : id = 0
  · obtain ⟨q, t, hret, ht, -⟩ : Drains c D Progress.visited false
      (brutallyFree c amount s.domids ⟨0, false⟩) s := brutallyFree_drains h hids
    refine ⟨q, t, returns_get_bind.mpr ?_, ht⟩
    rw [if_pos hz]
    exact hret
  · refine ⟨⟨0, false⟩, s, returns_get_bind.mpr ?_, h⟩
    rw [if_neg hz]
    exact returns_pure.mpr ⟨rfl, rfl⟩

omit D in
theorem halts_domUsageUpdateAll (l : List McdDomain) : Halts (domUsageUpdateAll c l) := by
  induction l with
  | nil => exact .pure _
  | cons d l ih =>
    unfold domUsageUpdateAll
    exact .ite ih ((halts_domUsageUpdate d.domid).bind fun _ => ih)

theorem Draining.of_same {t : State} (h : Draining c D s) (htiers : t.tiers = s.tiers)
    (hslab : t.slab = s.slab) : Draining c D t where
  removable := h.removable.of_same htiers hslab
  domids := (congrArg Tiers.live htiers).trans h.domids

theorem weightBasedHead_returns (amount : UInt64) (id : Domid) (h : Draining c D s) :
    ∃ o t, Returns (weightBasedHead c amount id) s o t ∧ Draining c D t := by
  have hbump : Draining c D s.bump := h.of_same rfl rfl
  obtain ⟨_, s₁, husage⟩ := halts_domUsageUpdateAll (c := c) s.bump.domains s.bump
  have hs₁ : Draining c D s₁ :=
    hbump.of_same (quiet_domUsageUpdateAll c _ _ _ _ husage)
      (ofSlab_eq.passive.domUsageUpdateAll _ _ _ _ husage)
  obtain ⟨p, s₂, hbrutal, hs₂⟩ := brutalPhase_returns amount id hs₁
  have hnow : Returns (readNow c) s (c.now s.tick) s.bump := returns_reading.mpr ⟨rfl, rfl⟩
  by_cases hstop : p.tot > amount
  · refine ⟨none, s₂, returns_bind.mpr ⟨_, _, hnow, returns_get_bind.mpr
      (returns_bind.mpr ⟨_, s₁, husage, returns_bind.mpr ⟨p, s₂, hbrutal, ?_⟩⟩)⟩, hs₂⟩
    rw [if_pos hstop]
    exact returns_pure.mpr ⟨rfl, rfl⟩
  · obtain ⟨r, s₃, hphases, hs₃⟩ : ∃ r t, Returns (weightPhases c (c.now s.tick) amount id
        (s₂.fairRateOf id) { p with lfu := none }) s₂ r t ∧ Draining c D t :=
      weightPhases_returns _ _ _ _ hs₂ rfl
    refine ⟨some r.toProgress, s₃, returns_bind.mpr ⟨_, _, hnow, returns_get_bind.mpr
      (returns_bind.mpr ⟨_, s₁, husage, returns_bind.mpr ⟨p, s₂, hbrutal, ?_⟩⟩)⟩, hs₃⟩
    rw [if_neg hstop]
    exact returns_get_bind.mpr (returns_bind.mpr ⟨r, s₃, hphases, returns_pure.mpr ⟨rfl, rfl⟩⟩)

end

/-! ### The last loop -/

/-- The bytes the last loop may still free: all of the requesting domain's, unless its share is 0. -/
def State.lastResort (s : State) (id : Domid) : UInt64 :=
  match findMcdDom id s with
  | some d => if d.curr ≤ 0 then 0 else (d.hashList.map fun mh => mh.bytes).sum
  | none => 0

/-- A pass of the last loop finds nothing to remove. -/
def State.Exhausted (s : State) (id : Domid) : Prop :=
  ∀ d, findMcdDom id s = some d → d.curr ≤ 0 ∨ d.hashList = []

section
variable {c : Ctx} {amount : UInt64} {D : List Domid} {s t : State} {id : Domid} {p q : Progress}

theorem premove_tot {mh : Option McdHashT} (h : Returns (premove c id mh p) s q t) :
    q.tot = p.tot + (mh.toList.map fun mh => mh.bytes).sum := by
  cases mh with
  | none =>
    rw [(returns_pure.mp h).1]
    simp
  | some m =>
    obtain ⟨b, s₁, hr, h⟩ := returns_bind.mp h
    rw [(returns_pure.mp h).1, (pRemoveHashT_unlinks hr).1]
    simp

/-- A walk that is not stopped frees the bytes of its list. -/
theorem walkRemove_tot {rest : List McdHashT} {latedel : Option McdHashT}
    (h : Returns (walkRemove c id (fun _ => false) rest latedel p) s q t) :
    q.tot = p.tot + ((latedel.toList ++ rest).map fun mh => mh.bytes).sum := by
  induction rest generalizing latedel p s with
  | nil =>
    rw [List.append_nil]
    exact premove_tot h
  | cons curr rest ih =>
    obtain ⟨p₁, s₁, h₁, h₂⟩ := returns_bind.mp h
    rw [if_neg (by simp)] at h₂
    rw [ih h₂, premove_tot h₁, List.map_append, List.map_append, List.sum_append, List.sum_append,
      UInt64.add_assoc]
    simp

theorem selfBrutalRound_skip {ids : List Domid} (hid : id ∉ ids) :
    Returns (selfBrutalRound c amount id ids p) s p s := by
  induction ids with
  | nil => exact returns_pure.mpr ⟨rfl, rfl⟩
  | cons j ids ih =>
    rw [List.mem_cons, not_or] at hid
    unfold selfBrutalRound
    rw [if_pos fun h => hid.1 h.symm]
    exact ih hid.2

/-- At the requesting domain the pass takes its whole list, unless its `curr` is not positive. -/
theorem selfBrutalRound_own {ids : List Domid} (h : Draining c D s) (hD : id ∈ D) (hnew : id ∉ ids) :
    ∃ q t, Returns (selfBrutalRound c amount id (id :: ids) p) s q t ∧
      q.tot = p.tot + s.lastResort id ∧ Draining c D t ∧ t.Exhausted id := by
  have hlisted : id ∈ s.domids := by
    rw [h.domids]
    exact hD
  obtain ⟨d, hd⟩ := find_of_listed hlisted
  have hdom : Returns (domOf id) s d s := returns_domOf.mpr ⟨hd, rfl⟩
  have hent : s.entries (.dom id) = d.hashList := entries_of_find hd
  unfold selfBrutalRound
  rw [if_neg (not_not.mpr rfl)]
  by_cases hcurr : d.curr ≤ 0
  · refine ⟨p, s, returns_bind.mpr ⟨d, s, hdom, ?_⟩, ?_, h, ?_⟩
    · rw [if_pos hcurr]
      exact returns_pure.mpr ⟨rfl, rfl⟩
    · simp [State.lastResort, hd, hcurr]
    · intro d' hd'
      rw [hd] at hd'
      rw [← Option.some.inj hd']
      exact .inl hcurr
  · obtain ⟨q, t, hwalk, ht, -⟩ : Drains c D Progress.visited p.visited
        (walkRemove c id (fun _ => false) d.hashList none p) s :=
      walkRemove_drains h hD (by simpa using hent)
    obtain ⟨n, -, -, -, hend⟩ := walkRemove_spec hwalk (by simpa using hent)
    have hempty : t.entries (.dom id) = [] := hend.resolve_left (by simp)
    refine ⟨q, t, returns_bind.mpr ⟨d, s, hdom, ?_⟩, ?_, ht, ?_⟩
    · rw [if_neg hcurr]
      refine returns_bind.mpr ⟨q, t, hwalk, ?_⟩
      by_cases hstop : q.tot > amount
      · rw [if_pos hstop]
        exact returns_pure.mpr ⟨rfl, rfl⟩
      · rw [if_neg hstop]
        exact selfBrutalRound_skip hnew
    · rw [walkRemove_tot hwalk]
      simp [State.lastResort, hd, hcurr]
    · intro d' hd'
      rw [entries_of_find hd'] at hempty
      exact .inr hempty

/-- A pass of the last loop takes the last resort and leaves nothing for another. -/
theorem selfBrutalRound_returns {ids : List Domid} (h : Draining c D s) (hnd : ids.Nodup)
    (hids : ids ⊆ D) (hall : id ∈ D → id ∈ ids) :
    ∃ q t, Returns (selfBrutalRound c amount id ids p) s q t ∧ q.tot = p.tot + s.lastResort id ∧
      Draining c D t ∧ t.Exhausted id := by
  induction ids with
  | nil =>
    have hnone : findMcdDom id s = none := by
      rw [← Option.not_isSome_iff_eq_none, isSome_findMcdDom]
      intro hlive
      have hD : id ∈ D := by
        rw [← h.domids]
        exact hlive
      simpa using hall hD
    refine ⟨p, s, returns_pure.mpr ⟨rfl, rfl⟩, ?_, h, ?_⟩
    · simp [State.lastResort, hnone]
    · intro d hd
      rw [hnone] at hd
      cases hd
  | cons j ids ih =>
    obtain ⟨hj, hnd⟩ := List.nodup_cons.mp hnd
    by_cases hne : j ≠ id
    · unfold selfBrutalRound
      rw [if_pos hne]
      apply ih hnd fun d hd => hids (List.mem_cons_of_mem _ hd)
      intro hD
      rcases List.mem_cons.mp (hall hD) with heq | hmem
      · exact absurd heq.symm hne
      · exact hmem
    · have heq : j = id := not_not.mp hne
      rw [heq] at hj hids ⊢
      exact selfBrutalRound_own h (hids List.mem_cons_self) hj

/-- A pass that finds nothing changes nothing. -/
theorem selfBrutalRound_exhausted {ids : List Domid} (hs : s.Exhausted id) (hids : ids ⊆ s.domids) :
    Returns (selfBrutalRound c amount id ids p) s p s := by
  induction ids with
  | nil => exact returns_pure.mpr ⟨rfl, rfl⟩
  | cons j ids ih =>
    have hrest := ih fun d hd => hids (List.mem_cons_of_mem _ hd)
    unfold selfBrutalRound
    by_cases hne : j ≠ id
    · rw [if_pos hne]
      exact hrest
    · rw [if_neg hne]
      have heq : j = id := not_not.mp hne
      rw [heq] at hids ⊢
      obtain ⟨d, hd⟩ := find_of_listed (hids List.mem_cons_self)
      refine returns_bind.mpr ⟨d, s, returns_domOf.mpr ⟨hd, rfl⟩, ?_⟩
      by_cases hcurr : d.curr ≤ 0
      · rw [if_pos hcurr]
        exact returns_pure.mpr ⟨rfl, rfl⟩
      · rw [if_neg hcurr, (hs d hd).resolve_left hcurr]
        refine returns_bind.mpr ⟨p, s, returns_pure.mpr ⟨rfl, rfl⟩, ?_⟩
        by_cases hstop : p.tot > amount
        · rw [if_pos hstop]
          exact returns_pure.mpr ⟨rfl, rfl⟩
        · rw [if_neg hstop]
          exact hrest

/-- With nothing left to remove and too little freed, the last loop never ends. -/
theorem selfBrutalLoop_spins (hs : s.Exhausted id) (hlt : p.tot < amount) (turns : Nat) :
    stop? (selfBrutalLoop c amount id turns p) s = some .spin := by
  induction turns with
  | zero => rfl
  | succ turns ih =>
    unfold selfBrutalLoop
    rw [if_pos hlt, stop_bind (returns_get.mpr ⟨rfl, rfl⟩),
      stop_bind (selfBrutalRound_exhausted hs fun _ hd => hd)]
    exact ih

/-- The last loop of a reclaim that reaches it with `p`. -/
def Finishes (amount : UInt64) (id : Domid) (p : Progress) (u : State) : Prop :=
  u.replacementMode = .lfru → amount ≤ p.tot ∨ amount ≤ p.tot + u.lastResort id

theorem selfBrutalPhase_returns (h : Draining c D s) (hnd : D.Nodup) (hfin : Finishes amount id p s)
    (hpat : 2 ≤ c.patience) : ∃ q t, Returns (selfBrutalPhase c amount id p) s q t := by
  by_cases hcond : p.tot < amount ∧ s.replacementMode = .lfru
  · obtain ⟨q, t, hround, htot, -, -⟩ : ∃ q t, Returns (selfBrutalRound c amount id s.domids p) s q t ∧
        q.tot = p.tot + s.lastResort id ∧ Draining c D t ∧ t.Exhausted id := by
      rw [h.domids]
      exact selfBrutalRound_returns h hnd (fun _ hd => hd) fun hD => hD
    have henough : ¬ q.tot < amount := by
      rw [htot]
      exact UInt64.not_lt.mpr ((hfin hcond.2).resolve_left (UInt64.not_le.mpr hcond.1))
    obtain ⟨n, hn⟩ : ∃ n, c.patience = n + 2 := ⟨c.patience - 2, by omega⟩
    refine ⟨q, t, returns_get_bind.mpr ?_⟩
    rw [if_pos hcond, hn]
    unfold selfBrutalLoop
    rw [if_pos hcond.1]
    refine returns_get_bind.mpr (returns_bind.mpr ⟨q, t, hround, ?_⟩)
    unfold selfBrutalLoop
    rw [if_neg henough]
    exact returns_pure.mpr ⟨rfl, rfl⟩
  · refine ⟨p, s, returns_get_bind.mpr ?_⟩
    rw [if_neg hcond]
    exact returns_pure.mpr ⟨rfl, rfl⟩

theorem selfBrutalPhase_spins (h : Draining c D s) (hnd : D.Nodup)
    (hfin : ¬ Finishes amount id p s) : stop? (selfBrutalPhase c amount id p) s = some .spin := by
  have hmode : s.replacementMode = .lfru := by
    by_contra hmode
    exact hfin fun hlfru => absurd hlfru hmode
  have hlt : p.tot < amount := by
    by_contra hle
    exact hfin fun _ => .inl (UInt64.not_lt.mp hle)
  unfold selfBrutalPhase
  rw [stop_bind (returns_get.mpr ⟨rfl, rfl⟩), if_pos ⟨hlt, hmode⟩]
  cases c.patience with
  | zero => rfl
  | succ n =>
    obtain ⟨q, t, hround, htot, -, hexh⟩ : ∃ q t,
        Returns (selfBrutalRound c amount id s.domids p) s q t ∧
        q.tot = p.tot + s.lastResort id ∧ Draining c D t ∧ t.Exhausted id := by
      rw [h.domids]
      exact selfBrutalRound_returns h hnd (fun _ hd => hd) fun hD => hD
    have hless : q.tot < amount := by
      rw [htot]
      by_contra hle
      exact hfin fun _ => .inr (UInt64.not_lt.mp hle)
    unfold selfBrutalLoop
    rw [if_pos hlt, stop_bind (returns_get.mpr ⟨rfl, rfl⟩), stop_bind hround]
    exact selfBrutalLoop_spins hexh hless n

end

/-- Without outsourcing no header is needed. -/
theorem removable_of_off {c : Ctx} {s : State} (hnd : s.domids.Nodup)
    (hlisted : ∀ id ∈ s.domids, ∀ mh ∈ s.entries (.dom id), mh.domain ∈ s.domids)
    (hoff : s.outsourcing = false) : s.Removable c .partition := by
  constructor
  · exact hnd.map fun _ _ h => Loc.dom.inj h
  · intro loc hloc
    obtain ⟨id, hid, rfl⟩ := List.mem_map.mp hloc
    exact hlisted id hid
  · intro hon
    rw [hoff] at hon
    cases hon

instance (amount : UInt64) (id : Domid) (p : Progress) (u : State) :
    Decidable (Finishes amount id p u) :=
  inferInstanceAs (Decidable (_ → _ ∨ _))

/-- With nothing to remove in any list, the reclaim of any amount but 0 does not end in LFRU mode. -/
theorem weightBased_spins_of_empty {c : Ctx} {amount : UInt64} {id : Domid} {s : State}
    (h : s.Removable c .partition) (hempty : ∀ j, s.entries (.dom j) = [])
    (hmode : s.replacementMode = .lfru) (hpos : 0 < amount) :
    stop? (partitionCfWeightBased c amount id) s = some .spin := by
  have hs : Draining c s.domids s := ⟨h, rfl⟩
  have hnd : s.domids.Nodup := h.nodup.of_map _
  obtain ⟨o, u, hhead, hu⟩ := weightBasedHead_returns amount id hs
  obtain ⟨n, hf, hnone, hsome⟩ := weightBasedHead_spec hhead
  have hn : n = 0 := hf.eq_zero fun loc hloc => by
    cases loc with
    | bucket i => cases hloc
    | dom j => exact hempty j
  rw [partitionCfWeightBased_eq, stop_bind hhead]
  cases o with
  | none =>
    have hlt := hnone rfl
    rw [hn] at hlt
    exact absurd hlt (UInt64.not_lt.mpr (UInt64.le_of_lt hpos))
  | some p =>
    have htot : p.tot = 0 := by rw [(hsome p rfl).1, hn]
    have hlast : u.lastResort id = 0 := by
      unfold State.lastResort
      split
      · rename_i d hd
        have hnil : d.hashList = [] := by
          rw [← entries_of_find hd]
          exact List.subset_nil.mp (hempty id ▸ hf.entries_subset (.dom id))
        simp [hnil]
      · rfl
    refine stop_bind_left (selfBrutalPhase_spins hu hnd fun hfin => ?_)
    have hcfg : u.config = s.config := hf.clears.cfg_eq
    have hle := hfin ((congrArg Config.replacementMode hcfg).trans hmode)
    rw [htot, hlast, UInt64.add_zero, or_self] at hle
    exact absurd hpos (UInt64.not_lt.mpr hle)

/-- A listed domain with nothing in its list. -/
def System.oneEmpty : System := System.start.after [⟨.calm, .create 1⟩, ⟨.calm, .cacheMode 0 1⟩]

end UniCache.Mcd
