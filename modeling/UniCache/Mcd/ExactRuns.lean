import UniCache.Mcd.Exact

/-! The control operations against the ideal map, and whole runs. -/
namespace UniCache.Mcd
open Base Base.Exec

/-! ### Flushes -/

section
variable {c : Ctx} {t u : Tiers} {i : Ideal} {loc : Loc} {P Q : Loc → Prop}

theorem Ideal.keep_congr [DecidablePred P] [DecidablePred Q] (h : ∀ loc, P loc ↔ Q loc) :
    i.keep P = i.keep Q := by
  have hheld : (fun loc => if P loc then i.held loc else fun _ => none) =
      fun loc => if Q loc then i.held loc else fun _ => none :=
    funext fun loc => ite_congr (propext (h loc)) (fun _ => rfl) fun _ => rfl
  simp only [Ideal.keep, hheld]

/-- Lists are emptied, the others stay as they are. -/
theorem Tiers.Mirrors.keep [DecidablePred P] (h : t.Mirrors i) (hlive : u.live = t.live)
    (hcfg : u.cfg = t.cfg) (hheads : ∀ loc, u.headers loc = [])
    (hkept : ∀ loc, P loc → u.entries loc = t.entries loc)
    (hgone : ∀ loc, ¬ P loc → u.entries loc = []) : u.Mirrors (i.keep P) := by
  have hcases : ∀ loc, u.entries loc = if P loc then t.entries loc else [] := by
    intro loc
    by_cases hloc : P loc
    · rw [if_pos hloc, hkept loc hloc]
    · rw [if_neg hloc, hgone loc hloc]
  have hsub : ∀ loc, (u.entries loc).Sublist (t.entries loc) := by
    intro loc
    rw [hcases]
    split_ifs
    · exact List.Sublist.refl _
    · exact List.nil_sublist _
  exact
    { live := hlive.trans h.live
      nodup := hlive ▸ h.nodup
      mode := hcfg ▸ h.mode
      attached := hcfg ▸ h.attached
      headers := hheads
      once := fun loc => (h.once loc).sublist ((hsub loc).map _)
      owned := fun b m hm => hlive ▸ h.owned b m ((hsub _).subset hm)
      held := by
        intro loc
        rw [hcases]
        simp only [Ideal.keep]
        split_ifs
        · exact h.held loc
        · exact lookup_nil }

/-- Removals from some lists do not show in the others. -/
theorem Clears.entries_eq {k : Nat} (h : Clears c P t u k) (hloc : ¬ P loc) :
    u.entries loc = t.entries loc := by
  obtain ⟨l, hrem, hP, -⟩ := h
  clear k
  induction hrem with
  | nil t => rfl
  | cons hone _ ih =>
    have hne : loc ≠ _ := fun heq => hloc (heq ▸ hP _ List.mem_cons_self)
    rw [ih fun x hx => hP x (List.mem_cons_of_mem _ hx), hone.entries_eq, Function.update_of_ne hne]

end

section
variable {c : Ctx} {s t : State} {i : Ideal} {loc : Loc} {m : CacheMode} {d : Domid}

theorem Flushes.same (h : Flushes c s t m) :
    t.tiers.live = s.tiers.live ∧ t.tiers.cfg = s.tiers.cfg := by
  cases m with
  | shared =>
    obtain ⟨r, h⟩ := h
    exact (sMcdFlush_releases h).same
  | partition =>
    have hall : ∀ {ids : List Domid} {s : State}, Returns (pMcdFlushAll c ids) s () t →
        t.tiers.live = s.tiers.live ∧ t.tiers.cfg = s.tiers.cfg := by
      intro ids
      induction ids with
      | nil =>
        intro s h
        rw [returns_modify.mp h]
        exact ⟨rfl, rfl⟩
      | cons e ids ih =>
        intro s h
        unfold pMcdFlushAll at h
        by_cases hz : e = 0
        · rw [if_pos hz] at h
          exact ih h
        · rw [if_neg hz] at h
          obtain ⟨r, s₁, hone, hrest⟩ := returns_bind.mp h
          obtain ⟨hlive, hcfg⟩ := (pMcdFlush_releases hone).same
          obtain ⟨hlive', hcfg'⟩ := ih hrest
          exact ⟨hlive'.trans hlive, hcfg'.trans hcfg⟩
    exact hall h

theorem Flushes.entries_eq (h : Flushes c s t m) (hloc : m.Spares loc) :
    t.entries loc = s.entries loc := by
  cases m with
  | shared =>
    obtain ⟨r, h⟩ := h
    obtain ⟨-, u, st, hclears, -, -, ht⟩ := sMcdFlush_spec h
    have hent : t.entries loc = u.entries loc := congrFun (congrArg Tiers.entries ht) loc
    rw [hent]
    apply Clears.entries_eq hclears
    cases loc with
    | bucket b => exact hloc.elim
    | dom d => exact fun hmode => CacheMode.noConfusion hmode
  | partition =>
    apply ((pMcdFlushAll_emptied h loc).2 _).1
    rintro ⟨d, -, hne, rfl⟩
    exact hne hloc

theorem Flushes.headers_nil (h : Flushes c s t m) (hs : ∀ loc, s.headers loc = []) (loc : Loc) :
    t.headers loc = [] := by
  obtain ⟨a, on, hkept, hgone, ht⟩ := h.exits
  have hlists : t.slab.lists loc = a.lists loc := by rw [ht]; rfl
  rw [← lists_eq_nil_iff, hlists]
  by_cases hloc : m.Spares loc
  · rw [hkept loc hloc, lists_eq_nil_iff]
    exact hs loc
  · exact hgone loc hloc

theorem Flushes.mirrors (h : Flushes c s t m) (hs : s.tiers.Mirrors i) :
    t.tiers.Mirrors (i.keep m.Spares) :=
  hs.keep h.same.1 h.same.2 (h.headers_nil hs.headers) (fun _ => h.entries_eq)
    fun _ hloc => (h.emptied hloc).1

theorem flush_exact (h : s.tiers.Mirrors i) (hd : d ∈ s.tiers.live) :
    ∃ t, Returns (mcdOp c (.flush d)) s (.code .errNo) t ∧
      t.tiers.Mirrors (i.keep (Ideal.Untouched d i.mode)) := by
  cases hm : s.cacheMode with
  | shared =>
    obtain ⟨r, t, hret⟩ := sMcdFlush_returns (c := c) h.owned fun b => h.navigable.intact (.bucket b)
    obtain ⟨rfl, -⟩ := sMcdFlush_spec hret
    refine ⟨t, returns_get_bind.mpr (by rw [hm]; exact hret), ?_⟩
    have hflush : Flushes c s t .shared := ⟨_, hret⟩
    rw [Ideal.keep_congr (Q := CacheMode.shared.Spares)]
    · exact hflush.mirrors h
    · intro loc
      have hmode : i.mode = .shared := h.mode.symm.trans hm
      simp [Ideal.Untouched, hmode]
  | partition =>
    obtain ⟨r, t, hret, -⟩ := pMcdFlush_returns (c := c) hd (h.navigable.intact (.dom d))
    obtain ⟨rfl, -⟩ := pMcdFlush_inv hret
    refine ⟨t, returns_get_bind.mpr (by rw [hm]; exact hret), ?_⟩
    have hempt := pMcdFlush_emptied hret
    obtain ⟨hlive, hcfg⟩ := (pMcdFlush_releases hret).same
    have hmode : i.mode = .partition := h.mode.symm.trans hm
    have hout : ∀ loc, Ideal.Untouched d i.mode loc ↔ loc ≠ .dom d := by
      intro loc
      simp [Ideal.Untouched, hmode]
    rw [Ideal.keep_congr hout]
    apply h.keep hlive hcfg
    · intro loc
      rw [hempt.headers]
      by_cases hloc : loc = .dom d
      · rw [hloc, Function.update_self]
      · rw [Function.update_of_ne hloc, h.headers]
    · intro loc hloc
      rw [hempt.entries, Function.update_of_ne hloc]
    · intro loc hloc
      rw [hempt.entries, not_not.mp hloc, Function.update_self]

end

/-! ### Control operations -/

section
variable {c : Ctx} {s t : State} {i : Ideal} {d : Domid}

/-- A limit above what is used, or one nobody looks at, evicts nothing. -/
theorem freeExcess_idle {n : UInt64} (h : s.tiers.BestEffort ∨ n = 0 ∨ s.tiers.totUsedBytes ≤ n) :
    Returns (freeExcess c) { s with maxMemBytes := n } .errNo { s with maxMemBytes := n } := by
  refine returns_get_bind.mpr ?_
  by_cases hover : n ≠ 0 ∧ s.totUsedBytes > n
  · rcases h with hbest | hzero | hle
    · have hfree := cacheFree_best (c := c) (s := { s with maxMemBytes := n }) hbest
        (s.totUsedBytes - n) 0
      exact returns_ite.mpr ((if_pos hover).mpr hfree)
    · exact absurd hzero hover.1
    · exact absurd hle (UInt64.not_le.mpr hover.2)
  · exact returns_ite.mpr ((if_neg hover).mpr (returns_pure.mpr ⟨rfl, rfl⟩))

theorem Tiers.Mirrors.limit (h : s.tiers.Mirrors i) (n : UInt64) :
    ({ s with maxMemBytes := n } : State).tiers.Mirrors i := h.congr rfl rfl rfl rfl rfl

theorem memsize_exact {m : Int32} (h : s.tiers.Mirrors i)
    (hfree : s.tiers.BestEffort ∨ memsizeBytes m = 0 ∨ s.tiers.totUsedBytes ≤ memsizeBytes m) :
    ∃ t, Returns (mcdOp c (.memsize m)) s (.code .errNo) t ∧ t.tiers.Mirrors i := by
  have hidle := freeExcess_idle (c := c) hfree
  have hmirrors := h.limit (memsizeBytes m)
  generalize hw : ({ s with maxMemBytes := memsizeBytes m } : State) = w at hidle hmirrors
  obtain ⟨⟨⟩, t, husage⟩ := halts_domUsageUpdateAll (c := c) w.domains w
  refine ⟨t, ?_, ?_⟩
  · exact returns_bind.mpr ⟨(), w, returns_modify.mpr hw.symm, returns_bind.mpr ⟨.errNo, w, hidle,
      returns_get_bind.mpr (returns_bind.mpr ⟨(), t, husage, returns_pure.mpr ⟨rfl, rfl⟩⟩)⟩⟩
  · rw [quiet_domUsageUpdateAll _ _ _ _ _ husage]
    exact hmirrors

theorem weight_exact (h : s.tiers.Mirrors i) (hd : d ∈ s.tiers.live) (w : UInt32) :
    ∃ t, Returns (mcdOp c (.weight d w)) s (.code .errNo) t ∧ t.tiers.Mirrors i := by
  obtain ⟨t, hret⟩ := weight_returns (c := c) hd w
  refine ⟨t, hret, ?_⟩
  rw [setWeight_spec hret]
  exact h

theorem cacheMode_exact (h : s.tiers.Mirrors i) (which mode : UInt32) :
    ∃ t, Returns (mcdOp c (.cacheMode which mode)) s (.code .errNo) t ∧
      t.tiers.Mirrors (i.switch (i.mode.switched which mode)) := by
  obtain ⟨t, hret⟩ := setCacheMode_returns (c := c) h.navigable which mode
  refine ⟨t, hret, ?_⟩
  have hmode : i.mode = s.cacheMode := h.mode.symm
  have htarget : i.mode.switched which mode = s.targetMode which mode := by rw [hmode]; rfl
  obtain ⟨rm, pm, w, hw, ⟨hsame, ht⟩ | ⟨hne, hflush⟩⟩ := setCacheMode_inv hret
  · rw [Ideal.switch, htarget, if_pos (hsame.trans h.mode), ht, hw]
    exact h.congr rfl hsame rfl rfl rfl
  · have hw' : w.tiers.Mirrors { i with mode := s.targetMode which mode } := by
      rw [hw]
      exact ⟨h.live, h.nodup, rfl, h.attached, h.headers, h.once, h.owned, h.held⟩
    rw [Ideal.switch, htarget, if_neg fun heq => hne (heq.trans hmode), hmode]
    exact hflush.mirrors hw'

theorem param_exact (h : s.tiers.Mirrors i) {which mode p : UInt32}
    (hfree : ¬ (which = 25 ∧ p = 3)) :
    ∃ t, Returns (mcdOp c (.param which mode p)) s (.code .errNo) t ∧
      t.tiers.Mirrors (if which = 25 ∧ p = 1 then i.keep i.mode.Spares else i) := by
  obtain ⟨r, t, hret, hcode⟩ := setParam_returns (c := c) h.navigable which mode p
  rw [hcode hfree] at hret
  refine ⟨t, hret, ?_⟩
  rcases setParam_inv hret with ⟨hflush, hf⟩ | ⟨hno, alpha, beta, user, tick, ht⟩
  · rw [if_pos hflush, ← h.mode]
    exact hf.mirrors h
  · rw [if_neg hno, ht]
    exact h.congr rfl rfl rfl rfl rfl

theorem Tiers.Mirrors.request {f : Store → Store} {u : Unit} (h : s.tiers.Mirrors i)
    (hreq : Returns (minfRequest c f) s u t) : t.tiers.Mirrors i := by
  rcases minfRequest_spec hreq with ht | ht
  · rw [ht]
    exact h
  · rw [ht]
    exact h.congr rfl rfl rfl rfl rfl

theorem create_exact (h : s.tiers.Mirrors i) (hd : d ∉ s.tiers.live)
    (hroom : s.tiers.Room c.toEnv sizeofMcdDomain) :
    ∃ t, Returns (mcdOp c (.create d)) s (.code .errNo) t ∧
      t.tiers.Mirrors { i with live := i.live ++ [d] } := by
  obtain ⟨addr, s₁, hmalloc, hsame⟩ := mcdMalloc_room hroom (by decide) d
  rw [← hsame] at h hd
  generalize hs₂ : (if d > 0 then State.domWeightUpdate { s₁ with
      totalWeight := if d > 0 then s₁.totalWeight + domWeightDefault else s₁.totalWeight
      domains := s₁.domains ++ [freshDomain d] } else { s₁ with
      totalWeight := if d > 0 then s₁.totalWeight + domWeightDefault else s₁.totalWeight
      domains := s₁.domains ++ [freshDomain d] }) = s₂
  have henrol : s₂.tiers = { s₁.tiers with live := s₁.tiers.live ++ [d] } := by
    rw [← hs₂, tiers_ite_domWeightUpdate]
    exact tiers_enrol hd
  have hmirrors : s₂.tiers.Mirrors { i with live := i.live ++ [d] } := by
    rw [henrol]
    refine ⟨by rw [h.live], ?_, h.mode, h.attached, h.headers, h.once, ?_, h.held⟩
    · rw [← List.concat_eq_append]
      exact h.nodup.concat hd
    · intro b m hm
      exact List.mem_append_left _ (h.owned b m hm)
  obtain ⟨u, t, hreq⟩ := halts_minfRequest (c := c) (fun st e x => if e = d then none else st e x) s₂
  refine ⟨t, ?_, hmirrors.request hreq⟩
  refine returns_bind.mpr ⟨some addr, s₁, hmalloc, returns_bind.mpr ⟨(), _, returns_modify.mpr rfl,
    returns_bind.mpr ⟨(), s₂, returns_modify.mpr hs₂.symm, returns_bind.mpr ⟨u, t, hreq,
      returns_pure.mpr ⟨rfl, rfl⟩⟩⟩⟩⟩

theorem destroy_exact (h : s.tiers.Mirrors i) (hd : d ∈ s.tiers.live)
    (hnone : ∀ b, ∀ mh ∈ s.tiers.entries (.bucket b), mh.domain ≠ d) :
    ∃ t, Returns (mcdOp c (.destroy d)) s (.code .errNo) t ∧
      t.tiers.Mirrors { i.keep (· ≠ .dom d) with live := i.live.erase d } := by
  obtain ⟨t, hret⟩ := destroy_returns (c := c) h.navigable hd
  refine ⟨t, hret, ?_⟩
  obtain ⟨w, q, u, hw, hflush, hempty, -, ht⟩ := destroy_inv h.nodup hret
  have hw' : w.tiers.Mirrors i := by
    rcases hw with hw | hw
    · rw [hw]
      exact h
    · rw [hw]
      exact h.congr rfl rfl rfl rfl rfl
  have hent : w.tiers.entries = s.tiers.entries := by
    rcases hw with hw | hw <;> rw [hw]
  have hempt := pMcdFlush_emptied hflush
  obtain ⟨hlive, hcfg⟩ := (pMcdFlush_releases hflush).same
  have hkeep : u.tiers.Mirrors (i.keep (· ≠ .dom d)) := by
    apply hw'.keep hlive hcfg
    · intro loc
      rw [hempt.headers]
      by_cases hloc : loc = .dom d
      · rw [hloc, Function.update_self]
      · rw [Function.update_of_ne hloc, hw'.headers]
    · intro loc hloc
      rw [hempt.entries, Function.update_of_ne hloc]
    · intro loc hloc
      rw [not_not.mp hloc]
      exact hempty
  have hbuckets : ∀ b, u.tiers.entries (.bucket b) = s.tiers.entries (.bucket b) := by
    intro b
    rw [hempt.entries, Function.update_of_ne (by simp), hent]
  rw [ht]
  refine ⟨?_, hkeep.nodup.erase d, hkeep.mode, hkeep.attached, hkeep.headers, hkeep.once, ?_,
    hkeep.held⟩
  · show u.tiers.live.erase d = i.live.erase d
    rw [hkeep.live]
    rfl
  · intro b m hm
    have hold : m ∈ u.tiers.entries (.bucket b) := hm
    have hne : m.domain ≠ d := hnone b m (hbuckets b ▸ hold)
    exact (List.mem_erase_of_ne hne).mpr (hkeep.owned b m hold)

theorem enable_exact (h : s.tiers.Mirrors i) :
    ∃ t, Returns (mcdOp c .enable) s (.code (if i.attached then .errBusy else .zero)) t ∧
      t.tiers.Mirrors { i with attached := true } := by
  have hon : i.attached = s.mcdctlEnabled := h.attached.symm
  by_cases hb : s.mcdctlEnabled = true
  · refine ⟨s, returns_get_bind.mpr ?_, ?_⟩
    · rw [if_pos hb, hon, if_pos hb]
      exact returns_pure.mpr ⟨rfl, rfl⟩
    · rw [hb] at hon
      rw [← hon]
      exact h
  · refine ⟨s.attached, returns_get_bind.mpr ?_, ?_⟩
    · rw [if_neg hb, hon, if_neg hb]
      exact returns_bind.mpr ⟨(), _, returns_set.mpr rfl, returns_pure.mpr ⟨rfl, rfl⟩⟩
    · refine ⟨h.live, h.nodup, h.mode, rfl, fun loc => ?_, h.once, h.owned, h.held⟩
      cases loc with
      | bucket b => rfl
      | dom e => exact h.headers (.dom e)

theorem disable_exact (h : s.tiers.Mirrors i) :
    ∃ t, Returns (mcdOp c .disable) s (.code .zero) t ∧
      t.tiers.Mirrors { i with attached := false } :=
  ⟨_, returns_bind.mpr ⟨(), _, returns_modify.mpr rfl, returns_pure.mpr ⟨rfl, rfl⟩⟩,
    h.live, h.nodup, h.mode, rfl, h.headers, h.once, h.owned, h.held⟩

end

/-! ### Runs -/

theorem op_exact {c : Ctx} {s : State} {i : Ideal} {cmd : Cmd} (h : s.tiers.Mirrors i)
    (hfree : cmd.Unhindered s.tiers c.toEnv) :
    ∃ t, Returns (mcdOp c cmd) s (i.step cmd).1 t ∧ t.tiers.Mirrors (i.step cmd).2 := by
  cases cmd with
  | get d k cap => exact get_exact h hfree cap
  | put d k v => exact put_exact h hfree
  | remove d k => exact remove_exact h hfree
  | check d k => exact check_exact h hfree.1 hfree.2
  | getsize d k => exact check_exact h hfree.1 hfree.2
  | flush d => exact flush_exact h hfree
  | memsize m => exact memsize_exact h hfree
  | weight d w => exact weight_exact h hfree w
  | cacheMode which mode => exact cacheMode_exact h which mode
  | param which mode p => exact param_exact h hfree
  | create d => exact create_exact h hfree.1 hfree.2
  | destroy d => exact destroy_exact h hfree.1 hfree.2
  | enable => exact enable_exact h
  | disable => exact disable_exact h

section
variable {y : System} {i : Ideal} {a : Call} {l : List Call}

/-- One call of a run. -/
theorem call_exact (h : y.mcd.tiers.Mirrors i) (hfree : a.Unhindered y) :
    ∃ z, y.call a = .ok ((i.step a.cmd).1, z) ∧ z.mcd.tiers.Mirrors (i.step a.cmd).2 := by
  obtain ⟨t, hop, ht⟩ := op_exact (c := y.ctx a.env) h hfree
  obtain ⟨z, hcall, hz⟩ := call_of_op hop fun d hcmd => by
    -- the caller whose hits are counted is not removed by its own call
    have hi : d ∈ i.live := by
      rw [← h.live]
      unfold Call.Unhindered at hfree
      cases hc : a.cmd <;> rw [hc] at hcmd hfree <;> cases hcmd
      · exact hfree
      · exact hfree.1
    show d ∈ t.tiers.live
    rw [ht.live]
    cases hc : a.cmd <;> rw [hc] at hcmd <;> cases hcmd
    · exact hi
    · simp only [Ideal.step, Ideal.measure]
      split_ifs <;> exact hi
  refine ⟨z, hcall, ?_⟩
  rw [hz]
  exact ht

theorem replies_exact (h : y.mcd.tiers.Mirrors i) (hl : y.Along Call.Unhindered l) :
    y.replies l = some (i.replies (l.map (·.cmd))) ∧
      (y.after l).mcd.tiers.Mirrors (i.after (l.map (·.cmd))) := by
  induction l generalizing y i with
  | nil => exact ⟨rfl, h⟩
  | cons a l ih =>
    obtain ⟨z, hcall, hz⟩ := call_exact h hl.1
    obtain ⟨hreplies, hafter⟩ := ih hz (hl.2 _ _ hcall)
    constructor
    · simp only [System.replies, hcall, hreplies]
      rfl
    · simp only [System.after, hcall]
      exact hafter

theorem mirrors_start : System.start.mcd.tiers.Mirrors .start where
  live := rfl
  nodup := List.nodup_nil
  mode := rfl
  attached := rfl
  headers loc := by cases loc <;> rfl
  once loc := by cases loc <;> exact List.nodup_nil
  owned b mh hmh := by cases hmh
  held loc := by cases loc <;> rfl

end

theorem room_calm {t : Tiers} {size : UInt64}
    (h : t.totUsedBytes + size + safetyBytes < t.totMemSize 1000000) : t.Room .calm size :=
  ⟨fun _ => rfl, .inr fun _ => h⟩

end UniCache.Mcd
