import UniCache.Mcd.HeaderPool

/-! What `set_cache_mode` leaves of the mode it switches from. -/
namespace UniCache.Mcd
open Base Base.Exec

/-- The lists of a mode are empty and its counters zero. -/
structure Tiers.Vacant (t : Tiers) (m : CacheMode) : Prop where
  entries : ∀ loc, loc.mode = m → t.entries loc = []
  headers : ∀ loc, loc.mode = m → t.headers loc = []
  counters : t.data.counters m = (0, 0, 0)

/-- Exact counters of empty lists are zero. -/
theorem Tiers.Counted.vacant {t : Tiers} {m : CacheMode} (hc : t.Counted)
    (hent : ∀ loc, loc.mode = m → t.entries loc = [])
    (hhead : ∀ loc, loc.mode = m → t.headers loc = []) : t.Vacant m := by
  refine ⟨hent, hhead, ?_⟩
  rw [hc.counters m]
  apply total_eq_zero
  intro loc hloc mh hmh
  rw [hent loc (mem_locs_iff.mp hloc).1] at hmh
  cases hmh

/-- Of the lists of its own mode a flush spares only those of dom0. -/
theorem CacheMode.spares_own {m : CacheMode} {loc : Loc} (hm : loc.mode = m) :
    m.Spares loc ↔ m = .partition ∧ loc = .dom 0 := by
  subst hm
  cases loc <;> simp [Loc.mode, CacheMode.Spares]

section
variable {c : Ctx} {s t : State} {m : CacheMode}

/-- A flush empties its mode exactly when dom0 has nothing of its own to lose. -/
theorem Flushes.vacant_iff (hc : t.tiers.Counted) (h : Flushes c s t m) :
    t.tiers.Vacant m ↔
      (m = .partition → s.entries (.dom 0) = [] ∧ s.headers (.dom 0) = []) := by
  have hkept : m = .partition → t.entries (.dom 0) = s.entries (.dom 0) ∧
      t.headers (.dom 0) = s.headers (.dom 0) := by
    rintro rfl
    apply (pMcdFlushAll_emptied h (.dom 0)).2
    rintro ⟨d, -, hne, hd⟩
    exact hne (Loc.dom.inj hd).symm
  constructor
  · intro hvacant hm
    obtain ⟨hent, hhead⟩ := hkept hm
    rw [← hent, ← hhead]
    exact ⟨hvacant.entries (.dom 0) hm.symm, hvacant.headers (.dom 0) hm.symm⟩
  · intro hzero
    have hlists : ∀ loc, loc.mode = m → t.entries loc = [] ∧ t.headers loc = [] := by
      intro loc hloc
      by_cases hspared : m.Spares loc
      · obtain ⟨hm, rfl⟩ := (CacheMode.spares_own hloc).mp hspared
        obtain ⟨hent, hhead⟩ := hkept hm
        rw [hent, hhead]
        exact hzero hm
      · exact h.emptied hspared
    exact hc.vacant (fun loc hloc => (hlists loc hloc).1) fun loc hloc => (hlists loc hloc).2

end

/-! ### The flushes return -/

section
variable {c : Ctx} {s t : State} {i : Bucket} {d : Domid} {loc : Loc} {mh : McdHashT}
  {l : List McdHashT} {u : Unit}

theorem halts_reading {α : Type} (f : Nat → α) : Halts (reading f) :=
  fun _ => ⟨_, _, returns_reading.mpr ⟨rfl, rfl⟩⟩

theorem halts_domUsageUpdate (d : Domid) : Halts (domUsageUpdate c d) := by
  have hfree : Halts (getFreeSysMem c) := (halts_reading _).bind fun _ => .pure _
  have htotal : Halts (getTotMemSize c) := hfree.bind fun _ => Halts.get.bind fun _ => .pure _
  exact htotal.bind fun _ => .modify _

theorem halts_minfRequest (f : Store → Store) : Halts (minfRequest c f) := by
  apply Halts.get.bind
  intro s
  apply Halts.ite _ (.pure _)
  exact (halts_reading _).bind fun ok => .ite (.modify _) (.pure _)

theorem halts_unlinkHashT : Halts (unlinkHashT c loc mh .doNotMoveToSsd) := by
  unfold unlinkHashT
  rw [if_neg fun hmove => Move.noConfusion hmove.1]
  exact .modify _

theorem find_of_listed (hd : d ∈ s.domids) : ∃ rec, findMcdDom d s = some rec :=
  Option.isSome_iff_exists.mp (isSome_findMcdDom.mpr hd)

theorem sRemoveHashT_returns (hd : mh.domain ∈ s.domids) :
    ∃ b t, Returns (sRemoveHashT c i mh .doNotMoveToSsd) s b t := by
  obtain ⟨rec, hrec⟩ := find_of_listed hd
  have hfind : findMcdDom mh.domain (s.dischargeData mh .shared) = some rec := hrec
  apply returns_bind_of (a := ()) (returns_modify.mpr rfl)
  apply returns_bind_of (returns_domOf.mpr ⟨hfind, rfl⟩)
  exact (Halts.modify _).bind (fun _ => halts_unlinkHashT.bind fun _ => .pure _) _

theorem pRemoveHashT_returns (mh : McdHashT) (hd : d ∈ s.domids) :
    ∃ b t, Returns (pRemoveHashT c d mh .doNotMoveToSsd) s b t := by
  obtain ⟨rec, hrec⟩ := find_of_listed hd
  have hfind : findMcdDom d (s.dischargeData mh .partition) = some rec := hrec
  apply returns_bind_of (a := ()) (returns_modify.mpr rfl)
  apply returns_bind_of (returns_domOf.mpr ⟨hfind, rfl⟩)
  apply (Halts.modify _).bind
  intro _
  exact halts_unlinkHashT.bind fun _ => (halts_domUsageUpdate d).bind fun _ => .pure _

theorem sFlushEntries_returns (hl : s.shared i = l) (hlisted : ∀ mh ∈ l, mh.domain ∈ s.domids) :
    ∃ u t, Returns (sFlushEntries c i l) s u t := by
  induction l generalizing s with
  | nil => exact Halts.modify _ s
  | cons mh l ih =>
    obtain ⟨b, s₁, hrem⟩ := sRemoveHashT_returns (c := c) (i := i) (hlisted mh List.mem_cons_self)
    have hmem : mh ∈ s.shared i := by
      rw [hl]
      exact List.mem_cons_self
    have htiers := (sRemoveHashT_spec hrem hmem).2.2 rfl
    have hlive : s₁.domids = s.domids := congrArg Tiers.live htiers
    apply returns_bind_of hrem
    have hrest : s₁.shared i = l :=
      entries_after_drop (show s.entries (.bucket i) = mh :: l from hl) htiers
    apply ih hrest
    intro x hx
    rw [hlive]
    exact hlisted x (List.mem_cons_of_mem _ hx)

theorem pFlushEntries_returns (hd : d ∈ s.domids) (hl : s.entries (.dom d) = l) :
    ∃ u t, Returns (pFlushEntries c d l) s u t := by
  induction l generalizing s with
  | nil => exact Halts.modify _ s
  | cons mh l ih =>
    obtain ⟨b, s₁, hrem⟩ := pRemoveHashT_returns (c := c) mh hd
    have hmem : mh ∈ s.entries (.dom d) := by
      rw [hl]
      exact List.mem_cons_self
    have htiers := (pRemoveHashT_spec hrem hmem).2.2 rfl
    have hlive : s₁.domids = s.domids := congrArg Tiers.live htiers
    apply returns_bind_of hrem
    apply ih _ (entries_after_drop hl htiers)
    rw [hlive]
    exact hd

/-- The walk over the shared buckets meets no entry without a record. -/
theorem sFlushBuckets_returns (is : List Bucket)
    (hlisted : ∀ i, ∀ mh ∈ s.shared i, mh.domain ∈ s.domids) :
    ∃ u t, Returns (sFlushBuckets c is) s u t := by
  induction is generalizing s with
  | nil => exact Halts.pure _ s
  | cons i is ih =>
    apply returns_bind_of (returns_get.mpr ⟨rfl, rfl⟩)
    obtain ⟨u, s₁, hone⟩ := sFlushEntries_returns (c := c) rfl (hlisted i)
    obtain ⟨⟨_, hrem, -, -⟩, -⟩ := sFlushEntries_spec rfl hone
    have hlive : s₁.domids = s.domids := hrem.live_eq
    apply returns_bind_of hone
    apply ih
    intro j mh hmh
    rw [hlive]
    exact hlisted j mh (hrem.entries_subset (.bucket j) hmh)

theorem intact_iff : s.intact loc = true ↔ ∀ mch ∈ s.headers loc, mch.page ∈ s.pool.pages := by
  simp [State.intact]

theorem intact_of_subset (hsub : t.headers loc ⊆ s.headers loc)
    (hpages : t.pool.pages = s.pool.pages) (hi : s.intact loc = true) : t.intact loc = true := by
  rw [intact_iff] at hi ⊢
  intro mch hmch
  rw [hpages]
  exact hi mch (hsub hmch)

/-- Whether a list is intact shows in the allocator. -/
theorem intact_of_slab (hslab : t.slab = s.slab) (hi : s.intact loc = true) :
    t.intact loc = true := by
  rw [intact_iff] at hi ⊢
  have hpages : t.pool.pages = s.pool.pages := congrArg Slab.pages hslab
  have hlists : (t.headers loc).map (·.block) = (s.headers loc).map (·.block) :=
    congrArg (fun a : Slab Loc => a.lists loc) hslab
  intro mch hmch
  have hblock : mch.block ∈ (s.headers loc).map (·.block) := by
    rw [← hlists]
    exact List.mem_map_of_mem hmch
  obtain ⟨old, hold, heq⟩ := List.mem_map.mp hblock
  have hpage : old.page = mch.page := congrArg Prod.fst heq
  rw [hpages, ← hpage]
  exact hi old hold

theorem mcdctlFree_pages {mch : McdctlHashT} (h : Returns (mcdctlFree loc mch) s u t) :
    t.pool.pages = s.pool.pages := by
  rw [(returns_mcdctlFree.mp h).2]
  by_cases ho : s.outsourcing
  · rw [if_pos ho]
    cases loc <;> rfl
  · rw [if_neg ho]

theorem flushHeaders_pages {hs : List McdctlHashT} (h : Returns (flushHeaders loc hs) s u t) :
    t.pool.pages = s.pool.pages := by
  induction hs generalizing s with
  | nil =>
    rw [returns_modify.mp h]
    cases loc <;> rfl
  | cons mch hs ih =>
    obtain ⟨_, s₁, hfree, h⟩ := returns_bind.mp h
    rw [ih h, mcdctlFree_pages hfree]

/-- A flush of headers leaves intact what was. -/
theorem flushHeaders_intact {hs : List McdctlHashT} {e : Loc} (hhas : s.Has loc)
    (h : Returns (flushHeaders loc hs) s u t) (hi : s.intact e = true) : t.intact e = true := by
  have hheads : t.headers e = Function.update s.headers loc [] e :=
    congrArg (fun x : Tiers => x.headers e) (flushHeaders_spec hhas h)
  apply intact_of_subset _ (flushHeaders_pages h) hi
  rw [hheads]
  by_cases he : e = loc
  · rw [he, Function.update_self]
    exact List.nil_subset _
  · rw [Function.update_of_ne he]
    exact List.Subset.refl _

theorem flushHeaders_returns (hs : List McdctlHashT) (hhas : s.Has loc)
    (hi : s.intact loc = true) : ∃ u t, Returns (flushHeaders loc hs) s u t := by
  induction hs generalizing s with
  | nil => exact Halts.modify _ s
  | cons mch hs ih =>
    obtain ⟨s₁, hfree⟩ := mcdctlFree_returns_iff.mpr hi
    have htiers := mcdctlFree_spec hfree hhas
    apply returns_bind_of hfree
    apply ih
    · apply has_of_live _ hhas
      rw [htiers]
      split_ifs <;> rfl
    · apply intact_of_subset _ (mcdctlFree_pages hfree) hi
      have hheads : s₁.headers loc = s₁.tiers.headers loc := rfl
      rw [hheads, htiers]
      split_ifs
      · simp only [Tiers.setHeaders, Function.update_self]
        exact List.erase_subset
      · exact List.Subset.refl _

theorem flushBuckets_returns (is : List Bucket) (hi : ∀ i, s.intact (.bucket i) = true) :
    ∃ u t, Returns (flushBuckets is) s u t := by
  induction is generalizing s with
  | nil => exact Halts.pure _ s
  | cons i is ih =>
    apply returns_bind_of (returns_get.mpr ⟨rfl, rfl⟩)
    obtain ⟨u, s₁, hone⟩ := flushHeaders_returns (s.mcdctlShared i)
      (show s.Has (.bucket i) from trivial) (hi i)
    apply returns_bind_of hone
    apply ih
    intro j
    exact flushHeaders_intact (show s.Has (.bucket i) from trivial) hone (hi j)

theorem sMcdFlush_returns (hlisted : ∀ i, ∀ mh ∈ s.shared i, mh.domain ∈ s.domids)
    (hi : ∀ i, s.intact (.bucket i) = true) : ∃ r t, Returns (sMcdFlush c) s r t := by
  obtain ⟨u, s₁, hwalk⟩ := sFlushBuckets_returns (c := c) (List.finRange 100) hlisted
  have hslab : s₁.slab = s.slab := ofSlab_eq.sFlushBuckets _ _ _ _ hwalk
  obtain ⟨u', s₂, hheads⟩ := flushBuckets_returns (List.finRange 100)
    fun i => intact_of_slab hslab (hi i)
  have hctl : ∃ u t, Returns (mcdctlFlush c) s₁ u t :=
    returns_bind_of hheads ((halts_minfRequest _).bind (fun _ => .modify _) s₂)
  obtain ⟨u'', s₃, hctl⟩ := hctl
  exact returns_bind_of hwalk (returns_bind_of hctl (Halts.pure _ s₃))

/-- `p_mcd_flush` returns when the domain has a record and its header list is intact, and leaves
intact what was. -/
theorem pMcdFlush_returns (hd : d ∈ s.domids) (hi : s.intact (.dom d) = true) :
    ∃ r t, Returns (pMcdFlush c d) s r t ∧ t.domids = s.domids ∧
      ∀ e, s.intact e = true → t.intact e = true := by
  obtain ⟨rec, hrec⟩ := find_of_listed hd
  obtain ⟨u, s₁, hwalk⟩ := pFlushEntries_returns (c := c) hd (entries_of_find hrec)
  have hslab : s₁.slab = s.slab := ofSlab_eq.pFlushEntries _ _ _ _ _ hwalk
  have hhas : s.Has (.dom d) := isSome_findMcdDom.mpr hd
  obtain ⟨⟨_, hrem, -, -⟩, -⟩ := pFlushEntries_spec hhas (entries_of_find hrec) hwalk
  have hhas₁ : s₁.Has (.dom d) := has_of_live hrem.live_eq hhas
  obtain ⟨u', s₂, hheads⟩ := flushHeaders_returns (s₁.headers (.dom d)) hhas₁
    (intact_of_slab hslab hi)
  obtain ⟨u'', t, hreq⟩ := halts_minfRequest (c := c)
    (fun st d' h => if d' = d then none else st d' h) s₂
  have hctl : Returns (mcdctlDomFlush c d) s₁ () t := by
    simp only [mcdctlDomFlush, returns_bind, returns_get, and_assoc, exists_and_left,
      exists_eq_left]
    exact ⟨(), s₂, hheads, hreq⟩
  have hflush : Returns (pMcdFlush c d) s (.code .errNo) t := by
    simp only [pMcdFlush, returns_bind, returns_domOf, returns_pure, and_assoc, exists_and_left,
      exists_eq_left]
    exact ⟨rec, hrec, (), s₁, hwalk, (), t, hctl, trivial, rfl⟩
  refine ⟨_, t, hflush, ?_, ?_⟩
  · obtain ⟨-, v, st, hv, -, -, ht⟩ := pMcdFlush_spec hflush
    have hlive : t.domids = v.live := congrArg Tiers.live ht
    rw [hlive]
    exact Clears.live_eq hv
  · intro e he
    have hreqSlab : t.slab = s₂.slab := ofSlab_eq.minfRequest _ _ _ _ hreq
    exact intact_of_slab hreqSlab (flushHeaders_intact hhas₁ hheads (intact_of_slab hslab he))

theorem pMcdFlushAll_returns {ids : List Domid}
    (hids : ∀ d ∈ ids, d ≠ 0 → d ∈ s.domids ∧ s.intact (.dom d) = true) :
    ∃ u t, Returns (pMcdFlushAll c ids) s u t := by
  induction ids generalizing s with
  | nil => exact Halts.modify _ s
  | cons d ids ih =>
    unfold pMcdFlushAll
    by_cases hz : d = 0
    · rw [if_pos hz]
      exact ih fun e he => hids e (List.mem_cons_of_mem _ he)
    · rw [if_neg hz]
      obtain ⟨hd, hi⟩ := hids d List.mem_cons_self hz
      obtain ⟨r, s₁, hone, hlive, hkeep⟩ := pMcdFlush_returns (c := c) hd hi
      apply returns_bind_of hone
      apply ih
      intro e he hne
      obtain ⟨hlisted, hintact⟩ := hids e (List.mem_cons_of_mem _ he) hne
      rw [hlive]
      exact ⟨hlisted, hkeep _ hintact⟩

/-- The flush of a mode follows no pointer to a record or a header that is gone. -/
def State.Walkable (s : State) : CacheMode → Prop
  | .shared => (∀ i, ∀ mh ∈ s.shared i, mh.domain ∈ s.domids) ∧
      ∀ i, s.intact (.bucket i) = true
  | .partition => ∀ d ∈ s.domids, d ≠ 0 → s.intact (.dom d) = true

theorem switchCacheMode_returns {m : CacheMode} (hw : s.Walkable s.cacheMode) :
    ∃ u t, Returns (switchCacheMode c m) s u t := by
  apply returns_bind_of (returns_get.mpr ⟨rfl, rfl⟩)
  apply returns_bind_of (a := ()) (returns_set.mpr rfl)
  by_cases hsame : s.cacheMode = m
  · rw [if_pos hsame]
    exact Halts.pure _ _
  · rw [if_neg hsame]
    cases m with
    | shared =>
      rw [CacheMode.eq_partition hsame] at hw
      exact pMcdFlushAll_returns fun d hd hne => ⟨hd, hw d hd hne⟩
    | partition =>
      rw [CacheMode.eq_shared hsame] at hw
      obtain ⟨r, t, hflush⟩ := sMcdFlush_returns (c := c) (s := { s with cacheMode := .partition })
        hw.1 hw.2
      exact returns_bind_of hflush (Halts.pure _ t)

theorem applyCacheMode_returns (which mode : UInt32) (hw : s.Walkable s.cacheMode) :
    ∃ u t, Returns (applyCacheMode c which mode) s u t := by
  unfold applyCacheMode
  by_cases h₀ : which = 0
  · rw [if_pos h₀]
    exact switchCacheMode_returns hw
  rw [if_neg h₀]
  by_cases h₁ : which = 1
  · rw [if_pos h₁]
    exact Halts.modify _ s
  rw [if_neg h₁]
  by_cases h₂ : which = 2
  · rw [if_pos h₂]
    apply returns_bind_of (a := ()) (returns_modify.mpr rfl)
    exact switchCacheMode_returns hw
  · rw [if_neg h₂]
    exact Halts.pure _ s

end

section
variable {y z : System} {l : List (Call × Reply)} (env : Env) (which mode : UInt32)

theorem cacheMode_returns (hw : y.mcd.Walkable y.mcd.cacheMode) :
    ∃ r z, y.call ⟨env, .cacheMode which mode⟩ = .ok (r, z) := by
  obtain ⟨u, t, happly⟩ := applyCacheMode_returns (c := y.ctx env) which mode hw
  have hdo : Returns (doMcdOp (y.ctx env) (.cacheMode which mode)) y.mcd (.code .errNo) t := by
    simp only [doMcdOp, mcdOp, setCacheMode, updateUsage, findCaller, Cmd.updatesUsage,
      Cmd.countsFor, Bool.false_eq_true, if_false, returns_bind, returns_get, returns_pure]
    exact ⟨_, t, ⟨u, t, happly, rfl, rfl⟩, (), t, ⟨t, t, ⟨rfl, rfl⟩, trivial, rfl⟩, (), t,
      ⟨trivial, rfl⟩, rfl, rfl⟩
  have hrun : (doMcdOp (y.ctx env) (.cacheMode which mode)).run y.mcd = .ok (.code .errNo, t) := hdo
  unfold System.call
  rw [hrun]
  exact ⟨_, _, rfl⟩

/-- A change of the cache mode empties the lists of the mode that is left, and makes its counters
zero, except that what dom0 has in partition mode stays. The call returns whenever its flush follows
no pointer to a record or a header that is gone. -/
theorem mode_switch_empties_iff (hrun : Run Call.Fresh .start l y) :
    (∀ r z, y.call ⟨env, .cacheMode which mode⟩ = .ok (r, z) →
        z.mcd.cacheMode ≠ y.mcd.cacheMode →
        (z.mcd.tiers.Vacant y.mcd.cacheMode ↔ (y.mcd.cacheMode = .partition →
          y.mcd.entries (.dom 0) = [] ∧ y.mcd.headers (.dom 0) = []))) ∧
      (y.mcd.Walkable y.mcd.cacheMode →
        ∃ r z, y.call ⟨env, .cacheMode which mode⟩ = .ok (r, z)) := by
  refine ⟨fun r z hcall hchange => ?_, cacheMode_returns env which mode⟩
  have hcounted : z.mcd.tiers.Counted :=
    call_counted (a := ⟨env, .cacheMode which mode⟩) (run_counted hrun) trivial hcall
  obtain ⟨t, hop, hz, -⟩ := call_spec hcall
  rw [hz] at hcounted ⊢
  have hmode : z.mcd.cacheMode = t.cacheMode := congrArg (·.cfg.cacheMode) hz
  obtain ⟨rm, pm, w, hw, ⟨hsame, ht⟩ | ⟨-, hflush⟩⟩ := setCacheMode_inv hop
  · rw [hmode, ht, hw, hsame] at hchange
    exact absurd rfl hchange
  · have hlists : w.entries (.dom 0) = y.mcd.entries (.dom 0) ∧
        w.headers (.dom 0) = y.mcd.headers (.dom 0) := by
      rw [hw]
      exact ⟨rfl, rfl⟩
    rw [hflush.vacant_iff hcounted, hlists.1, hlists.2]

end

theorem mode_switch_empties_private :
    (System.onePrivate.mcd.entries (.dom 1)).length = 1 ∧
      ∃ r z, System.onePrivate.call ⟨.calm, .cacheMode 0 0⟩ = .ok (r, z) ∧
        z.mcd.tiers.Vacant .partition := by
  have hfacts : System.start.runs Call.Fresh [⟨.calm, .create 1⟩, ⟨.calm, .cacheMode 0 1⟩,
        ⟨.calm, .put 1 (.single 1) (.single 7)⟩] = true ∧
      (System.onePrivate.mcd.entries (.dom 1)).length = 1 ∧
      System.onePrivate.mcd.cacheMode = .partition ∧
      (System.onePrivate.mcd.entries (.dom 0) = [] ∧ System.onePrivate.mcd.headers (.dom 0) = []) ∧
      System.onePrivate.mcd.domids = [1] ∧ System.onePrivate.mcd.intact (.dom 1) = true ∧
      (System.onePrivate.after [⟨.calm, .cacheMode 0 0⟩]).mcd.cacheMode = .shared := by
    decide +kernel
  obtain ⟨hruns, hone, hmode, hzero, hids, hintact, hnew⟩ := hfacts
  have hrun : ∃ l, l.map (·.1) = _ ∧ Run Call.Fresh .start l System.onePrivate :=
    run_of_runs hruns
  generalize System.onePrivate = y at *
  obtain ⟨l, -, hrun⟩ := hrun
  obtain ⟨hiff, hreturns⟩ := mode_switch_empties_iff .calm 0 0 hrun
  have hall : ∀ d ∈ y.mcd.domids, d ≠ 0 → y.mcd.intact (.dom d) = true := by
    intro d hd _
    rw [hids, List.mem_singleton] at hd
    rw [hd]
    exact hintact
  obtain ⟨r, z, hcall⟩ := hreturns (by rw [hmode]; exact hall)
  have hz : y.after [⟨.calm, .cacheMode 0 0⟩] = z := by simp [System.after, hcall]
  rw [hz] at hnew
  rw [hmode] at hiff
  refine ⟨hone, r, z, hcall, (hiff r z hcall ?_).mpr fun _ => hzero⟩
  rw [hnew]
  decide

/-- A system in partition mode where dom0 has put one key. -/
def System.zeroPrivate : System :=
  System.start.after [⟨.calm, .create 0⟩, ⟨.calm, .cacheMode 0 1⟩,
    ⟨.calm, .put 0 (.single 1) (.single 7)⟩]

/-- `p_mcd_flush_all` passes over domain 0, so what dom0 stored survives the switch to shared mode
and stays counted. -/
theorem mode_switch_keeps_zero :
    (∃ l, Run Call.Fresh .start l System.zeroPrivate) ∧
      ∃ r z, System.zeroPrivate.call ⟨.calm, .cacheMode 0 0⟩ = .ok (r, z) ∧
        System.zeroPrivate.mcd.cacheMode = .partition ∧ z.mcd.cacheMode = .shared ∧
        (z.mcd.entries (.dom 0)).length = 1 ∧ z.mcd.data.priNrKeys = 1 := by
  have hfacts : System.start.runs Call.Fresh [⟨.calm, .create 0⟩, ⟨.calm, .cacheMode 0 1⟩,
        ⟨.calm, .put 0 (.single 1) (.single 7)⟩] = true ∧
      (System.zeroPrivate.replies [⟨.calm, .cacheMode 0 0⟩]).isSome ∧
      System.zeroPrivate.mcd.cacheMode = .partition ∧
      (System.zeroPrivate.after [⟨.calm, .cacheMode 0 0⟩]).mcd.cacheMode = .shared ∧
      ((System.zeroPrivate.after [⟨.calm, .cacheMode 0 0⟩]).mcd.entries (.dom 0)).length = 1 ∧
      (System.zeroPrivate.after [⟨.calm, .cacheMode 0 0⟩]).mcd.data.priNrKeys = 1 := by
    decide +kernel
  obtain ⟨hruns, hreturns, hzero⟩ := hfacts
  obtain ⟨l, -, hrun⟩ := run_of_runs hruns
  obtain ⟨r, hcall⟩ := call_after hreturns
  refine ⟨⟨l, hrun⟩, ?_⟩
  exact ⟨r, _, hcall, hzero⟩

end UniCache.Mcd
