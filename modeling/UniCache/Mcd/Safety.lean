import UniCache.Mcd.Adaptive
import UniCache.Mcd.Ideal
import UniCache.Mcd.Sanity

/-! Calls that never crash the hypervisor and never hang it. -/
namespace UniCache.Mcd
open Base Base.Exec

/-! ### Reclaims that return -/

/-- A reclaim on behalf of `id` comes to an end: the weight-based one does not get to its last loop,
and the adaptive one finds a record of the domain. -/
def State.Reclaimable (s : State) (id : Domid) : Prop :=
  s.cacheMode = .partition →
    (s.partitionMode = .wb → s.replacementMode ≠ .lfru) ∧ (s.partitionMode = .ad → id ∈ s.domids)

instance (s : State) (id : Domid) : Decidable (s.Reclaimable id) :=
  inferInstanceAs (Decidable (_ → _))

/-- Room can be made on behalf of `id` as often as it is asked for. -/
structure State.Ready (c : Ctx) (id : Domid) (s : State) : Prop where
  removable : s.Removable c s.cacheMode
  reclaim : s.Reclaimable id

section
variable {c : Ctx} {s t : State} {m : CacheMode} {id e : Domid} {amount : UInt64}

theorem State.Ready.of_config (h : s.Ready c id) (hrem : t.Removable c s.cacheMode)
    (hcfg : t.tiers.cfg = s.tiers.cfg) (hlive : t.domids = s.domids) : t.Ready c id := by
  have hmode : t.cacheMode = s.cacheMode := congrArg Config.cacheMode hcfg
  have hpart : t.partitionMode = s.partitionMode := congrArg Config.partitionMode hcfg
  have hrep : t.replacementMode = s.replacementMode := congrArg Config.replacementMode hcfg
  refine ⟨hmode ▸ hrem, ?_⟩
  unfold State.Reclaimable
  rw [hmode, hpart, hrep, hlive]
  exact h.reclaim

theorem State.Ready.of_same (h : s.Ready c id) (htiers : t.tiers = s.tiers)
    (hslab : t.slab = s.slab) : t.Ready c id :=
  h.of_config (h.removable.of_same htiers hslab) (congrArg Tiers.cfg htiers)
    (congrArg Tiers.live htiers)

theorem State.Ready.of_listed (h : s.Ready c id) (he : e ∈ s.domids) : s.Ready c e :=
  ⟨h.removable, fun hm => ⟨(h.reclaim hm).1, fun _ => he⟩⟩

/-- A computation that reads and counts only. -/
theorem State.Ready.quiet {α : Type} {x : M α} {a : α} (h : s.Ready c id) (hq : Quiet x)
    (hslab : Within (fun s t => t.slab = s.slab) x) (hret : Returns x s a t) : t.Ready c id :=
  h.of_same (hq _ _ _ hret) (hslab _ _ _ hret)

theorem sharedCacheFree_removable (h : s.Removable c .shared) :
    ∃ rc t, Returns (sharedCacheFree c amount) s rc t ∧ t.Removable c .shared := by
  obtain ⟨tot, t, hpol, ht⟩ : ∃ tot t, Returns (replacePolicy c (c.now s.tick) amount) s.bump tot t ∧
      t.Removable c .shared := replacePolicy_returns h.bump
  have hrep : ∃ tot' u, Returns (sharedReplace c (c.now s.tick) amount) s.bump tot' u ∧
      u.Removable c .shared := by
    by_cases hlt : tot < amount
    · obtain ⟨tot', u, hsweep, hu⟩ : ∃ tot' u, Returns (sweep c amount (List.finRange 100) tot) t tot' u ∧
          u.Removable c .shared := sweep_returns ht
      refine ⟨tot', u, returns_bind.mpr ⟨tot, t, hpol, ?_⟩, hu⟩
      rw [if_pos hlt]
      exact hsweep
    · refine ⟨tot, t, returns_bind.mpr ⟨tot, t, hpol, ?_⟩, ht⟩
      rw [if_neg hlt]
      exact returns_pure.mpr ⟨rfl, rfl⟩
  obtain ⟨tot', u, hrep, hu⟩ := hrep
  exact ⟨_, u, returns_bind.mpr ⟨_, _, returns_reading.mpr ⟨rfl, rfl⟩, returns_bind.mpr ⟨tot', u, hrep,
    returns_pure.mpr ⟨rfl, rfl⟩⟩⟩, hu⟩

/-- Outside LFRU mode the weight-based reclaim has no last loop. -/
theorem weightBased_removable (h : s.Removable c .partition) (hmode : s.replacementMode ≠ .lfru) :
    ∃ rc t, Returns (partitionCfWeightBased c amount id) s rc t ∧ t.Removable c .partition := by
  obtain ⟨o, u, hhead, hu⟩ := weightBasedHead_returns amount id (⟨h, rfl⟩ : Draining c s.domids s)
  rw [partitionCfWeightBased_eq]
  cases o with
  | none =>
    exact ⟨_, u, returns_bind.mpr ⟨none, u, hhead, returns_pure.mpr ⟨rfl, rfl⟩⟩, hu.removable⟩
  | some p =>
    have hkept : u.replacementMode = s.replacementMode := by
      obtain ⟨n, hfreed, -⟩ := weightBasedHead_spec hhead
      exact congrArg Config.replacementMode hfreed.clears.cfg_eq
    have hlast : Returns (selfBrutalPhase c amount id p) u p u := by
      refine returns_get_bind.mpr ?_
      rw [if_neg fun hcond => hmode (hkept ▸ hcond.2)]
      exact returns_pure.mpr ⟨rfl, rfl⟩
    exact ⟨_, u, returns_bind.mpr ⟨some p, u, hhead, returns_bind.mpr ⟨p, u, hlast,
      returns_pure.mpr ⟨rfl, rfl⟩⟩⟩, hu.removable⟩

theorem adaptiveDynamic_removable (h : s.Removable c .partition) (hid : id ∈ s.domids) :
    ∃ rc t, Returns (partitionCfAdaptiveDynamic c amount id) s rc t ∧ t.Removable c .partition := by
  have hs : Draining c s.domids s.bump := ⟨h.bump, rfl⟩
  have hhr : (s.bump.hrDom c).getD id ∈ s.domids := by
    cases hfound : s.bump.hrDom c with
    | none => exact hid
    | some hr => exact hrDom_listed (s := s.bump) hfound
  obtain ⟨q, t, h₁, hq, ht⟩ := adaptivePhase_returns (c.now s.tick) amount hs hhr
    (r := { tot := 0, visited := false, lfu := none }) rfl
  obtain ⟨r, u, h₂, -, hu⟩ := adaptivePhase_returns (c.now s.tick) amount ht hid hq
  exact ⟨_, u, returns_bind.mpr ⟨_, _, returns_reading.mpr ⟨rfl, rfl⟩, returns_get_bind.mpr
    (returns_bind.mpr ⟨q, t, h₁, returns_bind.mpr ⟨r, u, h₂, returns_pure.mpr ⟨rfl, rfl⟩⟩⟩)⟩,
    hu.removable⟩

theorem cacheFree_ready (amount : UInt64) (h : s.Ready c id) :
    ∃ rc t, Returns (cacheFree c amount id) s rc t ∧ t.Ready c id := by
  have hfree : ∃ rc t, Returns (cacheFree c amount id) s rc t ∧ t.Removable c s.cacheMode := by
    have hrem := h.removable
    have hrec := h.reclaim
    simp only [cacheFree, returns_get_bind]
    cases hm : s.cacheMode with
    | shared =>
      rw [hm] at hrem
      exact sharedCacheFree_removable hrem
    | partition =>
      rw [hm] at hrem
      obtain ⟨hwb, had⟩ := hrec hm
      simp only [partitionCacheFree, returns_get_bind]
      cases hp : s.partitionMode with
      | be => exact ⟨_, s, returns_pure.mpr ⟨rfl, rfl⟩, hrem⟩
      | wb => exact weightBased_removable hrem (hwb hp)
      | ad => exact adaptiveDynamic_removable hrem (had hp)
  obtain ⟨rc, t, hret, ht⟩ := hfree
  obtain ⟨hclears, -⟩ := cacheFree_clears hret
  exact ⟨rc, t, hret, h.of_config ht hclears.cfg_eq hclears.live_eq⟩

/-! ### Allocation -/

theorem halts_allocateIf (c : Ctx) (rc : Rc) : Halts (allocateIf c rc) := by
  have hx : Halts (xmalloc c) := by
    apply (halts_reading _).bind
    intro ok
    apply Halts.get.bind
    intro s
    exact .ite ((halts_set _).bind fun _ => .pure _) (.pure _)
  exact .ite hx (.pure _)

theorem allocateIf_ready {rc : Rc} {o : Option Nat} (h : s.Ready c id)
    (hret : Returns (allocateIf c rc) s o t) : t.Ready c id :=
  h.quiet (quiet_allocateIf c rc) (.ite ofSlab_eq.passive.xmalloc (ofSlab_eq.passive.pure _)) hret

theorem mcdMalloc_returns (size : UInt64) (h : s.Ready c id) :
    ∃ o t, Returns (mcdMalloc c size id) s o t := by
  have htotal : Halts (getTotMemSize c) :=
    ((halts_reading _).bind fun _ => .pure _).bind fun _ => Halts.get.bind fun _ => .pure _
  obtain ⟨total, s₁, htot⟩ := htotal s
  have h₁ : s₁.Ready c id := h.quiet (quiet_getTotMemSize c) ofSlab_eq.passive.getTotMemSize htot
  apply returns_bind_of htot
  by_cases hz : size = 0
  · rw [if_pos hz]
    exact Halts.pure _ s₁
  rw [if_neg hz]
  have hfirst : ∃ rc t, Returns (firstTrial c size total id) s₁ rc t ∧ t.Ready c id := by
    simp only [firstTrial, returns_get_bind]
    by_cases hfull : s₁.totUsedBytes + size + safetyBytes ≥ total
    · rw [if_pos hfull]
      exact cacheFree_ready _ h₁
    · rw [if_neg hfull]
      exact ⟨_, s₁, returns_pure.mpr ⟨rfl, rfl⟩, h₁⟩
  obtain ⟨rc, s₂, hfirst, h₂⟩ := hfirst
  apply returns_bind_of hfirst
  obtain ⟨o, s₃, halloc⟩ := halts_allocateIf c rc s₂
  apply returns_bind_of halloc
  cases o with
  | some p => exact Halts.pure _ s₃
  | none =>
    obtain ⟨rc', s₄, hfree, -⟩ := cacheFree_ready (size + safetyBytes)
      (allocateIf_ready h₂ halloc)
    exact returns_bind_of hfree (halts_allocateIf c rc' s₄)

theorem createMcdHashT_returns (ks vs : UInt32) (h : s.Ready c id) (hid : id ∈ s.domids) :
    ∃ o t, Returns (createMcdHashT c id ks vs) s o t := by
  obtain ⟨o, s₁, hmalloc⟩ := mcdMalloc_returns (entrySize ks vs) h
  cases o with
  | none => exact returns_bind_of hmalloc (Halts.pure _ s₁)
  | some addr =>
    have hlive : s₁.tiers.live = s.tiers.live := (mcdMalloc_spec hmalloc).1.live_eq
    have hsome : (findMcdDom id s₁).isSome := isSome_findMcdDom.mpr (hlive ▸ hid)
    exact ⟨_, _, (returns_createMcdHashT hmalloc).mpr ⟨hsome, _, rfl, rfl, rfl⟩⟩

end

/-! ### The operations -/

section
variable {c : Ctx} {s t : State} {m : CacheMode} {id : Domid} {loc : Loc} {hash : UInt32}

/-- What may be removed stays so while the lists of entries stay and headers come free. -/
theorem State.Removable.grow (h : s.Removable c m) (hent : t.entries = s.entries)
    (hlive : t.domids = s.domids) (hon : t.outsourcing = s.outsourcing) (hallocs : Allocs s t)
    (hroom : s.pool.room ≤ t.pool.room) : t.Removable c m := by
  have hlocs : t.tiers.locs m = s.tiers.locs m := by
    have hlive' : t.tiers.live = s.tiers.live := hlive
    unfold Tiers.locs
    rw [hlive']
  have hnum : t.tiers.numEntries m = s.tiers.numEntries m := by
    have hent' : t.tiers.entries = s.tiers.entries := hent
    unfold Tiers.numEntries
    rw [hlocs, hent']
  constructor
  · rw [hlocs]
    exact h.nodup
  · rw [hlocs, hent, hlive]
    exact h.listed
  · rw [hon, hnum]
    intro ho
    have hsup := h.supplied ho
    exact ⟨hsup.inv.steps hallocs, hsup.room.trans hroom, hsup.alloc⟩

theorem mcdctlFree_room {mch : McdctlHashT} {u : Unit} (h : Returns (mcdctlFree loc mch) s u t) :
    s.pool.room ≤ t.pool.room := by
  rw [(returns_mcdctlFree.mp h).2]
  by_cases ho : s.outsourcing
  · rw [if_pos ho]
    have hfree : (s.freeHeader loc mch).pool.freelist.length = s.pool.freelist.length + 1 := by
      cases loc <;> rfl
    have hpages : (s.freeHeader loc mch).pool.pages = s.pool.pages := by cases loc <;> rfl
    unfold HeaderPool.room
    rw [hfree, hpages]
    omega
  · rw [if_neg ho]

theorem dropOutsourced_room {u : Unit} (h : Returns (dropOutsourced c loc hash) s u t) :
    s.pool.room ≤ t.pool.room := by
  obtain ⟨o, s₁, hfind, h⟩ := returns_bind.mp h
  rw [(returns_findMcdctlHashT.mp hfind).2.2] at h
  cases o with
  | none => rw [(returns_pure.mp h).2]
  | some mch =>
    obtain ⟨_, s₂, hdel, hfree⟩ := returns_bind.mp h
    have hslab : s₂.slab = s.slab := ofSlab_eq.minfRequest _ _ _ _ hdel
    rw [← room_of_slab hslab]
    exact mcdctlFree_room hfree

theorem Forgets.entries_eq {t u : Tiers} (h : Forgets t loc hash u) :
    u.entries = t.entries ∧ u.live = t.live := by
  rcases h with ⟨-, rfl⟩ | ⟨mch, -, st, -, rfl⟩
  · exact ⟨rfl, rfl⟩
  · split_ifs <;> exact ⟨rfl, rfl⟩

theorem dropOutsourced_ready (hash : UInt32) (h : s.Ready c id) (hi : s.intact loc = true) :
    ∃ t, Returns (dropOutsourced c loc hash) s () t ∧ t.Ready c id ∧ t.domids = s.domids := by
  obtain ⟨t, hret⟩ := dropOutsourced_returns (c := c) hash hi
  have hforgets := dropOutsourced_spec hret
  obtain ⟨hent, hlive⟩ := hforgets.entries_eq
  have hon : t.outsourcing = s.outsourcing := by
    show t.tiers.outsourcing = s.tiers.outsourcing
    unfold Tiers.outsourcing
    rw [hforgets.cfg_eq]
  have hrem : t.Removable c s.cacheMode := h.removable.grow hent hlive hon
    (dropOutsourced_allocs _ _ _ hret) (dropOutsourced_room hret)
  exact ⟨t, hret, h.of_config hrem hforgets.cfg_eq hlive, hlive⟩

end

section
variable {c : Ctx} {s : State} {d : Domid} {k : GuestKey} {loc : Loc}

theorem sMcdReplace_ready (h : s.Ready c d) (hnav : s.Navigable) (hm : s.cacheMode = .shared)
    (hash : UInt32) :
    ∃ ms t, Returns (sMcdReplace c hash) s ms t ∧ t.Ready c d ∧ t.domids = s.domids := by
  cases hf : findMcdHashT hash (s.shared (bucketOf hash)) with
  | none =>
    obtain ⟨t, hdrop, ht, hlive⟩ := dropOutsourced_ready hash h
      (hnav.intact (.bucket (bucketOf hash)))
    refine ⟨0, t, returns_get_bind.mpr ?_, ht, hlive⟩
    rw [hf]
    exact returns_bind.mpr ⟨(), t, hdrop, returns_pure.mpr ⟨rfl, rfl⟩⟩
  | some mh =>
    obtain ⟨hmem, -⟩ := findMcdHashT_mem hf
    generalize hu : ({ s.bump with hist := s.hist.noteQuery (c.now s.tick - mh.putTime) } : State) = u
    have htiers : u.tiers = s.tiers := by rw [← hu]; rfl
    have hu' : u.Ready c d := h.of_same htiers (by rw [← hu]; rfl)
    have hmem' : mh ∈ u.shared (bucketOf hash) := by rw [← hu]; exact hmem
    have hlisted : mh.domain ∈ u.domids := by rw [← hu]; exact hnav.owned _ mh hmem
    obtain ⟨b, t, hrem⟩ := sRemoveHashT_returns (c := c) (i := bucketOf hash) hlisted
    have hdrop : t.tiers = u.tiers.drop (.bucket (bucketOf hash)) mh :=
      (sRemoveHashT_spec hrem hmem').2.2 rfl
    have hslab : t.slab = u.slab := ofSlab_eq.sRemoveHashT ofSlab_eq.unlinkHashT _ _ _ hrem
    have humode : u.cacheMode = .shared := by rw [← hu]; exact hm
    have hrm := hu'.removable
    rw [humode] at hrm
    have hloc : Loc.bucket (bucketOf hash) ∈ u.tiers.locs .shared := mem_locs_iff.mpr ⟨rfl, by simp⟩
    have hremoval : Removal c u.tiers (.bucket (bucketOf hash)) mh t.tiers := by
      rw [hdrop]
      exact .drop hmem'
    obtain ⟨ht, -⟩ := hrm.removal hloc hmem' hremoval (Slab.steps_of_eq hslab)
      (by rw [room_of_slab hslab]; exact Nat.le_succ _)
    rw [← humode] at ht
    have hlive : t.domids = u.domids := congrArg Tiers.live hdrop
    refine ⟨nsToMs (c.now s.tick - mh.putTime), t, returns_get_bind.mpr ?_,
      hu'.of_config ht hremoval.cfg_eq hlive, by rw [hlive, ← hu]; rfl⟩
    rw [hf]
    exact returns_bind.mpr ⟨_, _, returns_reading.mpr ⟨rfl, rfl⟩, returns_bind.mpr ⟨(), u,
      returns_modify.mpr hu.symm, returns_bind.mpr ⟨b, t, hrem, returns_pure.mpr ⟨rfl, rfl⟩⟩⟩⟩

/-- The entry that a `put` replaces may be paged out here. -/
theorem pMcdReplace_ready (h : s.Ready c d) (hnav : s.Navigable) (hm : s.cacheMode = .partition)
    (hd : d ∈ s.domids) (hash : UInt32) :
    ∃ ms t, Returns (pMcdReplace c d hash) s ms t ∧ t.Ready c d ∧ t.domids = s.domids := by
  obtain ⟨rec, hrec⟩ := find_of_listed hd
  cases hf : findMcdHashT hash rec.hashList with
  | none =>
    obtain ⟨t, hdrop, ht, hlive⟩ := dropOutsourced_ready hash h (hnav.intact (.dom d))
    refine ⟨0, t, returns_bind.mpr ⟨rec, s, returns_domOf.mpr ⟨hrec, rfl⟩, ?_⟩, ht, hlive⟩
    rw [hf]
    exact returns_bind.mpr ⟨(), t, hdrop, returns_pure.mpr ⟨rfl, rfl⟩⟩
  | some mh =>
    have hmem : mh ∈ s.bump.entries (.dom d) := by
      have hent : s.bump.entries (.dom d) = rec.hashList := entries_of_find (s := s.bump) hrec
      rw [hent]
      exact (findMcdHashT_mem hf).1
    have hbump : s.bump.Ready c d := h.of_same rfl rfl
    have hrm : s.bump.Removable c .partition := hm ▸ hbump.removable
    obtain ⟨t, hrem, ht, -⟩ := hrm.pRemove hd hmem
    obtain ⟨-, hremoval, -⟩ := pRemoveHashT_spec hrem hmem
    have hlive : t.domids = s.domids := (Removals.cons hremoval (.nil _)).live_eq
    refine ⟨nsToMs (c.now s.tick - mh.putTime), t,
      returns_bind.mpr ⟨rec, s, returns_domOf.mpr ⟨hrec, rfl⟩, ?_⟩,
      h.of_config (hm.symm ▸ ht) hremoval.cfg_eq hlive, hlive⟩
    rw [hf]
    exact returns_bind.mpr ⟨_, _, returns_reading.mpr ⟨rfl, rfl⟩, returns_bind.mpr ⟨_, t, hrem,
      returns_pure.mpr ⟨rfl, rfl⟩⟩⟩

theorem putEntry_returns (v : GuestVal) (ms : UInt32) (h : s.Ready c d) (hd : d ∈ s.domids) :
    ∃ r t, Returns (putEntry c d k loc v ms) s r t := by
  obtain ⟨o, t, hcreate⟩ := createMcdHashT_returns k.size v.size h hd
  have hfill : Returns (createHashT c d k v) s (o.map (·.fill k v)) t := by
    refine returns_bind.mpr ⟨o, t, hcreate, ?_⟩
    cases o with
    | none => exact returns_pure.mpr ⟨rfl, rfl⟩
    | some mh => exact returns_pure.mpr ⟨rfl, rfl⟩
  apply returns_bind_of hfill
  cases o with
  | none => exact Halts.pure _ t
  | some mh =>
    have hset : Halts (setQueryTime d (mh.fill k v) ms) :=
      (Halts.modify _).bind fun _ => (Halts.modify _).bind fun _ => .pure _
    exact hset.bind (fun _ => (Halts.modify _).bind fun _ => .pure _) t

theorem put_returns (v : GuestVal) (h : s.Ready c d) (hnav : s.Navigable) (hd : d ∈ s.domids) :
    ∃ r t, Returns (mcdOp c (.put d k v)) s r t := by
  apply mcdSubCall_returns
  · intro hm
    obtain ⟨ms, t, hrep, ht, hlive⟩ := pMcdReplace_ready h hnav hm hd (getHash k.bytes)
    exact returns_bind_of hrep (putEntry_returns v ms ht (hlive ▸ hd))
  · intro hm
    obtain ⟨ms, t, hrep, ht, hlive⟩ := sMcdReplace_ready h hnav hm (getHash k.bytes)
    exact returns_bind_of hrep (putEntry_returns v ms ht (hlive ▸ hd))

theorem addMeasurement_returns (loc : Loc) (k : GuestKey) (h : s.Ready c d) (hd : d ∈ s.domids) :
    ∃ t, Returns (addMeasurement c d loc k) s () t := by
  obtain ⟨o, t, hcreate⟩ := createMcdHashT_returns k.size 0 h hd
  cases o with
  | none => exact ⟨t, returns_bind.mpr ⟨none, t, hcreate, returns_pure.mpr ⟨rfl, rfl⟩⟩⟩
  | some mh => exact ⟨_, returns_bind.mpr ⟨some mh, t, hcreate, returns_modify.mpr rfl⟩⟩

theorem check_returns (h : s.Ready c d) (hnav : s.Navigable) (hd : d ∈ s.domids) :
    ∃ r t, Returns (mcdOp c (.check d k)) s r t := by
  apply mcdSubCall_returns
  · intro hm
    obtain ⟨rec, hrec⟩ := find_of_listed hd
    apply returns_bind_of (returns_domOf.mpr ⟨hrec, rfl⟩)
    cases findMcdHashT (getHash k.bytes) rec.hashList with
    | some mh => exact Halts.pure _ s
    | none =>
      obtain ⟨t, hadd⟩ := addMeasurement_returns (.dom d) k h hd
      exact returns_bind_of (findMcdctlHashT_returns _ (hnav.intact _))
        (returns_bind_of hadd (Halts.pure _ t))
  · intro hm
    apply returns_bind_of (returns_get.mpr ⟨rfl, rfl⟩)
    cases findMcdHashT (getHash k.bytes) (s.entries (.bucket (bucketOf (getHash k.bytes)))) with
    | some mh => exact Halts.pure _ s
    | none =>
      obtain ⟨t, hadd⟩ := addMeasurement_returns (.bucket (bucketOf (getHash k.bytes))) k h hd
      exact returns_bind_of (findMcdctlHashT_returns _ (hnav.intact _))
        (returns_bind_of hadd (Halts.pure _ t))

/-- A page-in returns for a header with bytes behind it, whose domain has a record. -/
theorem mcdPageIn_returns {mch : McdctlHashT} (h : s.Ready c d) (hsane : s.Sane)
    (hmch : mch ∈ s.headers loc) : ∃ o t, Returns (mcdPageIn c loc mch) s o t := by
  obtain ⟨hlisted, hvalue⟩ := hsane.fetchable.headers loc mch hmch
  by_cases ho : s.outsourcing
  · obtain ⟨o, u, hcreate⟩ := createMcdHashT_returns mch.keySize mch.valSize (h.of_listed hlisted)
      hlisted
    cases o with
    | none =>
      refine ⟨none, u, returns_get_bind.mpr ?_⟩
      rw [if_neg (not_not_intro ho)]
      exact returns_bind.mpr ⟨none, u, hcreate, returns_pure.mpr ⟨rfl, rfl⟩⟩
    | some mh =>
      obtain ⟨mh', v, htransfer⟩ := transferIn_returns (c := c) mch mh u
      have hinv : u.slab.Inv := hsane.slab.steps (createMcdHashT_allocs _ _ _ hcreate)
      have hslab : v.slab = u.slab := ofSlab_eq.transferIn mch mh _ _ _ htransfer
      have hintact : v.intact loc = true := by
        refine intact_of_slab hslab (intact_iff.mpr fun m hm => ?_)
        exact hinv.lists_pages loc m.block (List.mem_map_of_mem hm)
      obtain ⟨t, hfree⟩ : ∃ t, Returns (mcdctlFree loc mch) v () t :=
        mcdctlFree_returns_iff.mpr hintact
      exact ⟨some mh', t, (returns_mcdPageIn ho hcreate).mpr ⟨hvalue, mh', v, htransfer, rfl, hfree⟩⟩
  · refine ⟨none, s, returns_get_bind.mpr ?_⟩
    rw [if_pos ho]
    exact returns_pure.mpr ⟨rfl, rfl⟩

-- for any limit: the product in `memsizeBytes` must not be unfolded
theorem State.Ready.limit (h : s.Ready c d) (n : UInt64) :
    ({ s with maxMemBytes := n } : State).Ready c d :=
  ⟨h.removable.grow rfl rfl rfl (allocs_refl s) (Nat.le_refl _), h.reclaim⟩

theorem memsize_returns (m : Int32) (h : s.Ready c 0) : ∃ r t, Returns (mcdOp c (.memsize m)) s r t := by
  have hw := h.limit (memsizeBytes m)
  show ∃ r t, Returns (setMemsize c m) s r t
  unfold setMemsize
  generalize memsizeBytes m = n at hw ⊢
  apply returns_bind_of (a := ()) (returns_modify.mpr rfl)
  have hfree : ∃ rc t, Returns (freeExcess c) ({ s with maxMemBytes := n } : State) rc t := by
    apply returns_bind_of (returns_get.mpr ⟨rfl, rfl⟩)
    split_ifs
    · obtain ⟨rc, t, hret, -⟩ := cacheFree_ready _ hw
      exact ⟨rc, t, hret⟩
    · exact Halts.pure _ _
  obtain ⟨rc, t, hfree⟩ := hfree
  apply returns_bind_of hfree
  apply returns_bind_of (returns_get.mpr ⟨rfl, rfl⟩)
  exact (halts_domUsageUpdateAll t.domains).bind (fun _ => .pure _) t

theorem create_returns (h : s.Ready c d) : ∃ r t, Returns (mcdOp c (.create d)) s r t := by
  obtain ⟨o, t, hmalloc⟩ := mcdMalloc_returns sizeofMcdDomain h
  apply returns_bind_of hmalloc
  cases o with
  | none => exact Halts.pure _ t
  | some addr =>
    exact (Halts.modify _).bind (fun _ => (Halts.modify _).bind fun _ =>
      (halts_minfRequest _).bind fun _ => .pure _) t

end

/-! ### Runs -/

/-- The domain whose record a command relies on. -/
def Cmd.named : Cmd → Option Domid
  | .get d _ _ | .put d _ _ | .remove d _ | .check d _ | .getsize d _ | .flush d | .weight d _
  | .destroy d => some d
  | .memsize .. | .cacheMode .. | .param .. | .create .. | .enable | .disable => none

/-- The domain on whose behalf a command may make room. -/
def Cmd.spender : Cmd → Option Domid
  | .get d _ _ | .put d _ _ | .check d _ | .getsize d _ | .create d => some d
  | .memsize .. => some 0
  | .remove .. | .flush .. | .weight .. | .cacheMode .. | .param .. | .destroy .. | .enable
  | .disable => none

/-- As long as entries are paged out, a header can be had for each of them. -/
def State.Equipped (s : State) (env : Env) : Prop :=
  s.outsourcing = true →
    (∀ n, env.xmalloc n = true) ∧ s.tiers.numEntries s.cacheMode ≤ s.pool.room

/-- Calls after which the hypervisor is still up: they name domains that are listed, release no page
under a header, leave nothing of a domain behind, and make room only where that comes to an end and
finds the headers it needs. -/
structure Call.Careful (y : System) (a : Call) : Prop extends Call.Orderly y a where
  listed : ∀ d ∈ a.cmd.named, d ∈ y.mcd.domids
  reclaim : ∀ d ∈ a.cmd.spender, y.mcd.Reclaimable d
  equipped : a.cmd.spender.isSome → y.mcd.Equipped a.env

section
variable {c : Ctx} {s t : State} {d : Domid} {y z : System} {a : Call} {r : Reply} {l : List Call}

theorem State.Sane.ready (h : s.Sane) (heq : s.Equipped c.toEnv) (hrec : s.Reclaimable d) :
    s.Ready c d := by
  refine ⟨⟨?_, fun loc _ mh hmh => (h.fetchable.entries loc mh hmh).1, fun ho => ?_⟩, hrec⟩
  · cases s.cacheMode with
    | shared => exact (List.nodup_finRange 100).map fun _ _ heq => Loc.bucket.inj heq
    | partition => exact h.counted.live.map fun _ _ heq => Loc.dom.inj heq
  · exact ⟨h.slab, (heq ho).2, (heq ho).1⟩

theorem mcdOp_returns {cmd : Cmd} (h : s.Sane) (hlisted : ∀ d ∈ cmd.named, d ∈ s.domids)
    (hready : ∀ d ∈ cmd.spender, s.Ready c d) : ∃ r t, Returns (mcdOp c cmd) s r t := by
  have hnav := h.navigable
  cases cmd with
  | get d k cap =>
    exact get_returns hnav (hlisted d rfl) cap fun mch hmch => mcdPageIn_returns (hready d rfl) h hmch
  | put d k v => exact put_returns v (hready d rfl) hnav (hlisted d rfl)
  | remove d k => exact remove_returns hnav (hlisted d rfl)
  | check d k => exact check_returns (hready d rfl) hnav (hlisted d rfl)
  | getsize d k => exact check_returns (hready d rfl) hnav (hlisted d rfl)
  | flush d => exact flush_returns hnav (hlisted d rfl)
  | memsize m => exact memsize_returns m (hready 0 rfl)
  | weight d w => exact ⟨_, weight_returns (hlisted d rfl) w⟩
  | cacheMode which mode => exact ⟨_, setCacheMode_returns hnav which mode⟩
  | param which mode p =>
    obtain ⟨r, t, hret, -⟩ := setParam_returns (c := c) hnav which mode p
    exact ⟨r, t, hret⟩
  | create d => exact create_returns (hready d rfl)
  | destroy d => exact ⟨_, destroy_returns hnav (hlisted d rfl)⟩
  | enable => exact halts_mcdEventEnable s
  | disable => exact halts_mcdEventDisable s

/-- No operation loses the record of the caller whose hits it counts. -/
theorem caller_kept {cmd : Cmd} (hown : s.tiers.HeadersOwned) (hop : Returns (mcdOp c cmd) s r t)
    (hd : cmd.countsFor = some d) (hlisted : ∀ d ∈ cmd.named, d ∈ s.domids) : d ∈ t.domids := by
  have hlive : t.domids = s.domids := by
    cases cmd with
    | get e k cap => exact (get_op hown hop).live_eq
    | check e k => exact (check_op hop).live_eq
    | _ => cases hd
  rw [hlive]
  cases cmd with
  | get e k cap =>
    cases hd
    exact hlisted _ rfl
  | check e k =>
    cases hd
    exact hlisted _ rfl
  | _ => cases hd

/-- From a sane state a careful call returns, in a sane state. -/
theorem careful_call (h : y.mcd.Sane) (hc : Call.Careful y a) :
    ∃ r z, y.call a = .ok (r, z) ∧ z.mcd.Sane := by
  obtain ⟨r, t, hop⟩ := mcdOp_returns (c := y.ctx a.env) h hc.listed fun d hd =>
    h.ready (hc.equipped (Option.isSome_of_mem hd)) (hc.reclaim d hd)
  obtain ⟨z, hcall, -⟩ := call_of_op hop fun d hd =>
    caller_kept h.counted.headersOwned hop hd hc.listed
  exact ⟨r, z, hcall, call_sane h hc.toOrderly hcall⟩

theorem careful_replies (h : y.mcd.Sane) (hl : y.Along Call.Careful l) :
    (y.replies l).isSome ∧ (y.after l).mcd.Sane := by
  induction l generalizing y with
  | nil => exact ⟨rfl, h⟩
  | cons a l ih =>
    obtain ⟨r, z, hcall, hz⟩ := careful_call h hl.1
    obtain ⟨hreplies, hafter⟩ := ih hz (hl.2 _ _ hcall)
    simp only [System.replies, System.after, hcall, Option.isSome_map]
    exact ⟨hreplies, hafter⟩

end

end UniCache.Mcd
