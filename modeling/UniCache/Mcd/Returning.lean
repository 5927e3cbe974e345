import UniCache.Mcd.Filling

/-! The operations that allocate nothing return wherever the lists can be walked and the domain they
name has its record. -/
namespace UniCache.Mcd
open Base Base.Exec

/-- No header list runs into a released page, and the entries of the buckets have their domains'
records. -/
structure State.Navigable (s : State) : Prop where
  intact : ∀ loc, s.intact loc = true
  owned : ∀ i, ∀ mh ∈ s.shared i, mh.domain ∈ s.domids

section
variable {c : Ctx} {s : State} {loc : Loc} {d : Domid} {k : GuestKey}

theorem State.Navigable.walkable (h : s.Navigable) (m : CacheMode) : s.Walkable m := by
  cases m with
  | shared => exact ⟨h.owned, fun i => h.intact _⟩
  | partition => exact fun d _ _ => h.intact _

theorem halts_set (t : State) : Halts (set t : M Unit) := fun _ => ⟨(), t, returns_set.mpr rfl⟩

theorem halts_deliver (c : Ctx) (loc : Loc) (mh : McdHashT) (cap : UInt32) (rc : Rc) :
    Halts (deliver c loc mh cap rc) := by
  apply (halts_reading _).bind
  intro now
  exact (Halts.modify _).bind fun _ => .ite (.pure _) (.pure _)

theorem halts_noteAccess (c : Ctx) (mh : McdHashT) : Halts (noteAccess c mh) :=
  (halts_reading _).bind fun _ => .modify _

theorem mcdSubCall_returns {p q : M Reply} (hp : s.cacheMode = .partition → ∃ r t, Returns p s r t)
    (hq : s.cacheMode = .shared → ∃ r t, Returns q s r t) : ∃ r t, Returns (mcdSubCall p q) s r t := by
  refine returns_bind_of (returns_get.mpr ⟨rfl, rfl⟩) ?_
  cases hm : s.cacheMode with
  | shared => exact hq hm
  | partition => exact hp hm

theorem findMcdctlHashT_returns (hash : UInt32) (h : s.intact loc = true) :
    Returns (findMcdctlHashT loc hash) s ((s.headers loc).find? (·.hash = hash)) s :=
  returns_findMcdctlHashT.mpr ⟨h, rfl, rfl⟩

theorem dropOutsourced_returns (hash : UInt32) (h : s.intact loc = true) :
    ∃ t, Returns (dropOutsourced c loc hash) s () t := by
  have hfind := findMcdctlHashT_returns hash h
  cases hf : (s.headers loc).find? (·.hash = hash) with
  | none =>
    rw [hf] at hfind
    exact ⟨s, returns_bind.mpr ⟨none, s, hfind, returns_pure.mpr ⟨rfl, rfl⟩⟩⟩
  | some mch =>
    rw [hf] at hfind
    obtain ⟨u, s₁, hdel⟩ := halts_minfRequest (c := c) (·.set mch.domain mch.hash none) s
    have hslab : s₁.slab = s.slab := ofSlab_eq.minfRequest _ _ _ _ hdel
    obtain ⟨t, hfree⟩ : ∃ t, Returns (mcdctlFree loc mch) s₁ () t :=
      mcdctlFree_returns_iff.mpr (intact_of_slab hslab h)
    exact ⟨t, returns_bind.mpr ⟨some mch, s, hfind, returns_bind.mpr ⟨u, s₁, hdel, hfree⟩⟩⟩

/-- The part of both `get`s after a miss in memory. -/
theorem fetch_returns {rest : McdHashT → M Reply} {hash : UInt32} (h : s.intact loc = true)
    (hpage : ∀ mch ∈ s.headers loc, ∃ o t, Returns (mcdPageIn c loc mch) s o t)
    (hrest : ∀ mh, Halts (rest mh)) : ∃ r t, Returns (do
      match ← findMcdctlHashT loc hash with
      | none => pure (.code .errMcdFault)
      | some mch => do
        match ← mcdPageIn c loc mch with
        | none => pure (.code .errMcdFault)
        | some mh => do
          modify (·.listAddTail loc mh)
          rest mh) s r t := by
  apply returns_bind_of (findMcdctlHashT_returns hash h)
  cases hf : (s.headers loc).find? (·.hash = hash) with
  | none => exact Halts.pure _ s
  | some mch =>
    obtain ⟨o, t, hret⟩ := hpage mch (List.mem_of_find?_eq_some hf)
    apply returns_bind_of hret
    cases o with
    | none => exact Halts.pure _ t
    | some mh => exact (Halts.modify _).bind (fun _ => hrest mh) t

/-- A `get` returns if the page-in it may make does. -/
theorem get_returns (h : s.Navigable) (hd : d ∈ s.domids) (cap : UInt32)
    (hpage : ∀ mch ∈ s.headers (s.home d k), ∃ o t, Returns (mcdPageIn c (s.home d k) mch) s o t) :
    ∃ r t, Returns (mcdOp c (.get d k cap)) s r t := by
  apply mcdSubCall_returns
  · intro hm
    rw [home_partition hm] at hpage
    obtain ⟨rec, hrec⟩ := find_of_listed hd
    apply returns_bind_of (returns_domOf.mpr ⟨hrec, rfl⟩)
    cases findMcdHashT (getHash k.bytes) rec.hashList with
    | some mh => exact halts_deliver c _ mh cap _ s
    | none => exact fetch_returns (h.intact _) hpage fun mh => halts_deliver c _ mh cap _
  · intro hm
    rw [home_shared hm] at hpage
    apply returns_bind_of (returns_get.mpr ⟨rfl, rfl⟩)
    cases findMcdHashT (getHash k.bytes) (s.entries (.bucket (bucketOf (getHash k.bytes)))) with
    | some mh => exact (halts_noteAccess c mh).bind (fun _ => halts_deliver c _ mh cap _) s
    | none =>
      exact fetch_returns (h.intact _) hpage fun mh =>
        (halts_noteAccess c mh).bind fun _ => halts_deliver c _ mh cap _

theorem remove_returns (h : s.Navigable) (hd : d ∈ s.domids) :
    ∃ r t, Returns (mcdOp c (.remove d k)) s r t := by
  apply mcdSubCall_returns
  · intro hm
    obtain ⟨rec, hrec⟩ := find_of_listed hd
    apply returns_bind_of (returns_domOf.mpr ⟨hrec, rfl⟩)
    cases findMcdHashT (getHash k.bytes) rec.hashList with
    | some mh =>
      obtain ⟨b, t, hrem⟩ := pRemoveHashT_returns (c := c) mh hd
      exact returns_bind_of hrem (Halts.pure _ t)
    | none =>
      obtain ⟨t, hdrop⟩ := dropOutsourced_returns (c := c) (getHash k.bytes)
        (h.intact (.dom d))
      exact returns_bind_of hdrop (Halts.pure _ t)
  · intro hm
    apply returns_bind_of (returns_get.mpr ⟨rfl, rfl⟩)
    cases hf : findMcdHashT (getHash k.bytes) (s.shared (bucketOf (getHash k.bytes))) with
    | some mh =>
      obtain ⟨b, t, hrem⟩ := sRemoveHashT_returns (c := c) (i := bucketOf (getHash k.bytes))
        (h.owned _ mh (findMcdHashT_mem hf).1)
      exact returns_bind_of hrem (Halts.pure _ t)
    | none =>
      obtain ⟨t, hdrop⟩ := dropOutsourced_returns (c := c) (getHash k.bytes)
        (h.intact (.bucket (bucketOf (getHash k.bytes))))
      exact returns_bind_of hdrop (Halts.pure _ t)

theorem flush_returns (h : s.Navigable) (hd : d ∈ s.domids) :
    ∃ r t, Returns (mcdOp c (.flush d)) s r t := by
  apply mcdSubCall_returns
  · intro hm
    obtain ⟨r, t, hret, -⟩ := pMcdFlush_returns (c := c) hd (h.intact (.dom d))
    exact ⟨r, t, hret⟩
  · intro hm
    exact sMcdFlush_returns h.owned fun i => h.intact (.bucket i)

theorem weight_returns (hd : d ∈ s.domids) (w : UInt32) :
    ∃ t, Returns (mcdOp c (.weight d w)) s (.code .errNo) t := by
  obtain ⟨rec, hrec⟩ := find_of_listed hd
  exact ⟨_, returns_bind.mpr ⟨rec, s, returns_domOf.mpr ⟨hrec, rfl⟩, returns_bind.mpr ⟨(), _,
    returns_modify.mpr rfl, returns_bind.mpr ⟨(), _, returns_modify.mpr rfl, returns_bind.mpr ⟨(), _,
      returns_modify.mpr rfl, returns_pure.mpr ⟨rfl, rfl⟩⟩⟩⟩⟩⟩

theorem setCacheMode_returns (h : s.Navigable) (which mode : UInt32) :
    ∃ t, Returns (mcdOp c (.cacheMode which mode)) s (.code .errNo) t := by
  obtain ⟨u, t, happly⟩ := applyCacheMode_returns (c := c) which mode (h.walkable s.cacheMode)
  exact ⟨t, returns_bind.mpr ⟨u, t, happly, returns_pure.mpr ⟨rfl, rfl⟩⟩⟩

theorem flushAll_returns (h : s.Navigable) : ∃ u t, Returns (flushAll c) s u t := by
  apply returns_bind_of (returns_get.mpr ⟨rfl, rfl⟩)
  cases s.cacheMode with
  | shared =>
    obtain ⟨r, t, hret⟩ := sMcdFlush_returns (c := c) h.owned fun i => h.intact (.bucket i)
    exact returns_bind_of hret (Halts.pure _ t)
  | partition => exact pMcdFlushAll_returns fun d hd _ => ⟨hd, h.intact _⟩

/-- Of the parameters only the request for another shared page reports a code of its own. -/
theorem setParam_returns (h : s.Navigable) (which mode p : UInt32) :
    ∃ r t, Returns (mcdOp c (.param which mode p)) s r t ∧
      (¬ (which = 25 ∧ p = 3) → r = .code .errNo) := by
  have hset : ∀ f : State → State, ∃ r t, Returns (do
      modify f
      pure (.code .errNo) : M Reply) s r t ∧ (¬ (which = 25 ∧ p = 3) → r = .code .errNo) := fun f =>
    ⟨_, _, returns_bind.mpr ⟨(), _, returns_modify.mpr rfl, returns_pure.mpr ⟨rfl, rfl⟩⟩, fun _ => rfl⟩
  show ∃ r t, Returns (setParam c which mode p) s r t ∧ _
  unfold setParam
  split_ifs with h₁ h₂ h₃ h₄ h₅
  · exact hset _
  · exact hset _
  · obtain ⟨u, t, hflush⟩ := flushAll_returns (c := c) h
    exact ⟨_, t, returns_bind.mpr ⟨u, t, hflush, returns_pure.mpr ⟨rfl, rfl⟩⟩, fun _ => rfl⟩
  · exact hset _
  · have hpage : Halts (increaseSharedPage c) :=
      Halts.get.bind fun s => .ite ((halts_reading _).bind fun _ => .pure _) (.pure _)
    obtain ⟨rc, t, hret⟩ := hpage s
    exact ⟨_, t, returns_bind.mpr ⟨rc, t, hret, returns_pure.mpr ⟨rfl, rfl⟩⟩, fun hno => absurd h₅ hno⟩
  · exact ⟨_, s, returns_pure.mpr ⟨rfl, rfl⟩, fun _ => rfl⟩

theorem destroy_returns (h : s.Navigable) (hd : d ∈ s.domids) :
    ∃ t, Returns (mcdOp c (.destroy d)) s (.code .errNo) t := by
  obtain ⟨u, s₁, hreq⟩ := halts_minfRequest (c := c) (fun st e x => if e = d then none else st e x) s
  have hslab : s₁.slab = s.slab := ofSlab_eq.minfRequest _ _ _ _ hreq
  have hlive : s₁.domids = s.domids := by
    rcases minfRequest_spec hreq with ht | ht
    · exact congrArg Tiers.live ht
    · exact congrArg Tiers.live ht
  have hd₁ : d ∈ s₁.domids := by rwa [hlive]
  obtain ⟨rec, hrec⟩ := find_of_listed hd₁
  obtain ⟨r, s₂, hflush, -⟩ := pMcdFlush_returns (c := c) (d := d)
    (s := { s₁ with totalWeight := s₁.totalWeight - rec.weight }) hd₁
    (intact_of_slab hslab (h.intact (.dom d)))
  exact ⟨_, returns_bind.mpr ⟨u, s₁, hreq, returns_bind.mpr ⟨rec, s₁, returns_domOf.mpr ⟨hrec, rfl⟩,
    returns_bind.mpr ⟨(), _, returns_modify.mpr rfl, returns_bind.mpr ⟨r, s₂, hflush,
      returns_bind.mpr ⟨(), _, returns_modify.mpr rfl, returns_bind.mpr ⟨(), _, returns_modify.mpr rfl,
        returns_pure.mpr ⟨rfl, rfl⟩⟩⟩⟩⟩⟩⟩⟩

theorem halts_mcdEventEnable : Halts mcdEventEnable :=
  Halts.get.bind fun _ => .ite (.pure _) ((halts_set _).bind fun _ => .pure _)

theorem halts_mcdEventDisable : Halts mcdEventDisable := (Halts.modify _).bind fun _ => .pure _

end

section
variable {c : Ctx} {t u : Tiers}

theorem Releases.same (h : Releases c t u) : u.live = t.live ∧ u.cfg = t.cfg := by
  refine h.induct (I := fun v => v.live = t.live ∧ v.cfg = t.cfg) ?_ ⟨rfl, rfl⟩
  rintro v w hstep ⟨hlive, hcfg⟩
  cases hstep with
  | removal hrem => cases hrem <;> exact ⟨hlive, hcfg⟩
  | touch => exact ⟨hlive, hcfg⟩
  | forget => exact ⟨hlive, hcfg⟩

theorem GuestOp.live_eq (h : GuestOp c t u) : u.live = t.live := by
  rcases h with h | ⟨v, w, x, loc, mh, hbefore, hadmits, hafter⟩
  · exact h.same.1
  · have hlink : w.live = v.live := by
      rw [hadmits.after]
      exact hadmits.clears.live_eq
    rw [hafter.same.1, hlink, hbefore.same.1]

end

/-- A hypercall returns with its operation, if the caller whose hits it counts still has its
record. -/
theorem call_of_op {y : System} {a : Call} {r : Reply} {t : State}
    (hop : Returns (mcdOp (y.ctx a.env) a.cmd) y.mcd r t)
    (hcaller : ∀ d, a.cmd.countsFor = some d → d ∈ t.domids) :
    ∃ z, y.call a = .ok (r, z) ∧ z.mcd.tiers = t.tiers := by
  have husage : Halts (updateUsage (y.ctx a.env) a.cmd) :=
    Halts.get.bind fun s => .ite (halts_domUsageUpdateAll s.domains) (.pure _)
  obtain ⟨u, t₁, husage⟩ := husage t
  have hsame := quiet_updateUsage _ _ _ _ _ husage
  have hfind : Returns (findCaller a.cmd) t₁ () t₁ := by
    unfold findCaller
    cases hcmd : a.cmd.countsFor with
    | none => exact returns_pure.mpr ⟨rfl, rfl⟩
    | some d =>
      have hlive : t₁.domids = t.domids := congrArg Tiers.live hsame
      obtain ⟨rec, hrec⟩ := find_of_listed (s := t₁) (hlive ▸ hcaller d hcmd)
      exact returns_bind.mpr ⟨rec, t₁, returns_domOf.mpr ⟨hrec, rfl⟩, returns_pure.mpr ⟨rfl, rfl⟩⟩
  have hdo : Returns (doMcdOp (y.ctx a.env) a.cmd) y.mcd r t₁ :=
    returns_bind.mpr ⟨r, t, hop, returns_bind.mpr ⟨u, t₁, husage, returns_bind.mpr ⟨(), t₁, hfind,
      returns_pure.mpr ⟨rfl, rfl⟩⟩⟩⟩
  exact ⟨_, call_of_returns hdo, hsame⟩

end UniCache.Mcd
