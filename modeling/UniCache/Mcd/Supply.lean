import UniCache.Base.Progress
import UniCache.Mcd.ModeSwitch
import UniCache.Mcd.PageContract

/-! When the removals of a reclaim return: every entry has its domain's record, and there is a mini
header for each entry that may be outsourced. -/
namespace UniCache.Mcd
open Base Base.Exec

/-- The headers that may still be had from a pool. -/
def HeaderPool.room (p : HeaderPool) : Nat :=
  p.freelist.length + headersPerPage * (maxPagesForMcdctl - p.pages.length)

/-- A header can be had and linked for each of `n` entries. -/
structure State.Supplied (c : Ctx) (n : Nat) (s : State) : Prop where
  inv : s.slab.Inv
  room : n ≤ s.pool.room
  alloc : ∀ k, c.xmalloc k = true

/-- The number of entries in the lists of a mode. -/
def Tiers.numEntries (t : Tiers) (m : CacheMode) : Nat := total t.entries (fun _ => 1) (t.locs m)

/-- The reclaim may remove every entry of a mode's lists. -/
structure State.Removable (c : Ctx) (m : CacheMode) (s : State) : Prop where
  nodup : (s.tiers.locs m).Nodup
  listed : ∀ loc ∈ s.tiers.locs m, ∀ mh ∈ s.entries loc, mh.domain ∈ s.domids
  supplied : s.outsourcing = true → s.Supplied c (s.tiers.numEntries m)

section
variable {c : Ctx} {mh : McdHashT} {loc : Loc} {s t : State} {n : Nat}

theorem takeFree_room {p : Block} (h : Returns takeFree s (some p) t) :
    t.pool.room + 1 = s.pool.room := by
  obtain ⟨ps, hfree, rfl⟩ := takeFree_inv h
  simp only [HeaderPool.room, hfree, List.length_cons]
  omega

/-- A header that is handed out is one less to be had, also when a page is taken for it. -/
theorem mcdctlMalloc_room {p : Block} (h : Returns (mcdctlMalloc c) s (some p) t) :
    t.pool.room + 1 = s.pool.room := by
  simp only [mcdctlMalloc, returns_bind, returns_get, and_assoc, exists_and_left,
    exists_eq_left] at h
  by_cases ho : s.outsourcing
  · rw [if_neg (not_not_intro ho)] at h
    by_cases hempty : s.pool.freelist = []
    · rw [if_pos hempty] at h
      obtain ⟨_, v, hnew, htake⟩ := returns_bind.mp h
      rw [takeFree_room htake]
      obtain ⟨ps, hfree, -⟩ := takeFree_inv htake
      simp only [mcdctlNewMalloc, returns_bind, returns_get, and_assoc, exists_and_left,
        exists_eq_left, if_neg (not_not_intro ho)] at hnew
      by_cases hfull : maxPagesForMcdctl ≤ s.pool.pages.length
      · rw [if_pos hfull] at hnew
        rw [(returns_pure.mp hnew).2]
      · rw [if_neg hfull] at hnew
        obtain ⟨ok, s₁, hread, hnew⟩ := returns_bind.mp hnew
        rw [(returns_reading.mp hread).2] at hnew
        cases ok with
        | false =>
          rw [(returns_pure.mp hnew).2]
          rfl
        | true =>
          rw [returns_modify.mp hnew]
          simp only [HeaderPool.room, hempty, List.length_map, List.length_range,
            List.length_append, List.length_singleton, List.length_nil]
          have hmul : headersPerPage * (maxPagesForMcdctl - s.pool.pages.length) =
              headersPerPage * (maxPagesForMcdctl - (s.pool.pages.length + 1)) + headersPerPage := by
            rw [← Nat.mul_succ]
            congr 1
            omega
          have hpool : s.bump.pool = s.pool := rfl
          rw [hpool, hmul]
          omega
    · rw [if_neg hempty] at h
      exact takeFree_room h
  · rw [if_pos ho] at h
    exact absurd (returns_pure.mp h).1 (by simp)

theorem linkHeader_room {u : Unit} (h : Returns (linkHeader c mh) s u t) :
    t.pool.room + 1 = s.pool.room := by
  obtain ⟨mch, s₁, hcreate, -, rfl⟩ := linkHeader_inv h
  have hpool : (s₁.setHeaders (s₁.headers (s₁.pageOutLoc mh) ++ [mch]) (s₁.pageOutLoc mh)).pool =
      s₁.pool := by
    cases s₁.pageOutLoc mh <;> rfl
  rw [hpool]
  obtain ⟨o, s₂, hmalloc, hcreate⟩ := returns_bind.mp hcreate
  cases o with
  | none => exact (returns_throw.mp hcreate).elim
  | some p =>
    rw [(returns_pure.mp hcreate).2]
    exact mcdctlMalloc_room hmalloc

theorem State.Supplied.canLink (h : s.Supplied c (n + 1)) (hd : mh.domain ∈ s.domids) :
    s.CanLink c mh := by
  have hroom := h.room
  constructor
  · by_cases hfree : s.pool.freelist = []
    · refine .inr ⟨?_, h.alloc _⟩
      unfold HeaderPool.room at hroom
      rw [hfree, List.length_nil, Nat.zero_add] at hroom
      have hpos := Nat.pos_of_mul_pos_left (Nat.lt_of_lt_of_le (Nat.succ_pos n) hroom)
      omega
    · exact .inl hfree
  · simp only [State.intact, List.all_eq_true, List.contains_iff_mem]
    intro mch hm
    exact h.inv.lists_pages (s.pageOutLoc mh) mch.block (List.mem_map_of_mem hm)
  · unfold State.pageOutLoc
    cases s.cacheMode with
    | shared => exact trivial
    | partition => exact isSome_findMcdDom.mpr hd

theorem mcdPageOut_room {u : Unit} (h : Returns (mcdPageOut c mh) s u t) :
    s.pool.room ≤ t.pool.room + 1 := by
  simp only [mcdPageOut, returns_bind, returns_get, and_assoc, exists_and_left,
    exists_eq_left] at h
  by_cases ho : s.outsourcing
  · rw [if_neg (not_not_intro ho)] at h
    obtain ⟨out, s₁, hread, h⟩ := returns_bind.mp h
    rw [(returns_reading.mp hread).2] at h
    have haccepted : ∀ file, Returns (do
        modify fun s : State => { s with store := s.store.set mh.domain mh.hash file }
        if mh.flags &&& mcdMinfError ≠ 0 then pure () else linkHeader c mh : M Unit) s.bump u t →
        s.pool.room ≤ t.pool.room + 1 := by
      intro file h
      obtain ⟨_, s₂, hmod, h⟩ := returns_bind.mp h
      rw [returns_modify.mp hmod] at h
      by_cases hflag : mh.flags &&& mcdMinfError ≠ 0
      · rw [if_pos hflag] at h
        rw [(returns_pure.mp h).2]
        exact Nat.le_succ _
      · rw [if_neg hflag] at h
        exact (linkHeader_room h).ge
    cases out with
    | refused =>
      rw [(returns_pure.mp h).2]
      exact Nat.le_succ _
    | _ => exact haccepted _ h
  · rw [if_pos ho] at h
    rw [(returns_pure.mp h).2]
    exact Nat.le_succ _

theorem mcdPageOut_returns (hn : mh.flags = mcdHashTNormal) (hd : mh.domain ∈ s.domids)
    (hs : s.outsourcing = true → s.Supplied c (n + 1)) : ∃ t, Returns (mcdPageOut c mh) s () t := by
  by_cases ho : s.outsourcing = true
  · by_cases hout : c.pageOut s.tick = .refused
    · refine ⟨s.bump, ?_⟩
      simp only [mcdPageOut, returns_bind, returns_get, and_assoc, exists_and_left, exists_eq_left,
        if_neg (not_not_intro ho), returns_reading, hout]
      exact returns_pure.mpr ⟨rfl, rfl⟩
    · obtain ⟨t, page, slot, hret, -⟩ := mcdPageOutRc_accepted ho hout hn ((hs ho).canLink hd)
      exact ⟨t, returns_mcdPageOut.mpr ⟨_, hret⟩⟩
  · refine ⟨s, ?_⟩
    simp only [mcdPageOut, returns_bind, returns_get, and_assoc, exists_and_left, exists_eq_left,
      if_pos ho]
    exact returns_pure.mpr ⟨rfl, rfl⟩

theorem outsourcing_listDel (s : State) (loc : Loc) (mh : McdHashT) :
    (s.listDel loc mh).outsourcing = s.outsourcing := by
  cases loc <;> rfl

theorem domids_listDel (s : State) (loc : Loc) (mh : McdHashT) :
    (s.listDel loc mh).domids = s.domids := by
  cases loc with
  | bucket i => rfl
  | dom d =>
    exact domids_modifyDom (f := fun r => { r with hashList := (s.entries (.dom d)).erase mh })
      (fun _ => rfl) d s

theorem room_of_slab (hslab : t.slab = s.slab) : t.pool.room = s.pool.room := by
  have hfree : t.pool.freelist = s.pool.freelist := congrArg Slab.free hslab
  have hpages : t.pool.pages = s.pool.pages := congrArg Slab.pages hslab
  unfold HeaderPool.room
  rw [hfree, hpages]

theorem State.Supplied.of_slab (h : s.Supplied c n) (hslab : t.slab = s.slab) : t.Supplied c n where
  inv := by rw [hslab]; exact h.inv
  room := by rw [room_of_slab hslab]; exact h.room
  alloc := h.alloc

/-- The allocator and the tiers decide what may be removed. -/
theorem State.Removable.of_same {m : CacheMode} (h : s.Removable c m) (htiers : t.tiers = s.tiers)
    (hslab : t.slab = s.slab) : t.Removable c m := by
  have hdomids : t.domids = s.domids := congrArg Tiers.live htiers
  have hentries : t.entries = s.entries := congrArg Tiers.entries htiers
  have hon : t.outsourcing = s.outsourcing := congrArg Tiers.outsourcing htiers
  constructor
  · rw [htiers]
    exact h.nodup
  · rw [htiers, hdomids, hentries]
    exact h.listed
  · rw [htiers, hon]
    intro ho
    exact (h.supplied ho).of_slab hslab

/-- The end of a removal returns and uses up one header at most. -/
theorem unlinkHashT_returns (hd : mh.domain ∈ s.domids)
    (hs : s.outsourcing = true → s.Supplied c (n + 1)) :
    ∃ t, Returns (unlinkHashT c loc mh .moveToSsd) s () t ∧ s.pool.room ≤ t.pool.room + 1 := by
  have hslab : (s.listDel loc mh).slab = s.slab := slab_setEntries s _ loc
  have hroom := room_of_slab hslab
  unfold unlinkHashT
  by_cases hn : mh.flags = mcdHashTNormal
  · rw [if_pos ⟨rfl, hn⟩]
    have hs' : (s.listDel loc mh).outsourcing = true → (s.listDel loc mh).Supplied c (n + 1) := by
      rw [outsourcing_listDel]
      intro ho
      exact (hs ho).of_slab hslab
    obtain ⟨t, ht⟩ := mcdPageOut_returns hn (by rw [domids_listDel]; exact hd) hs'
    refine ⟨t, returns_bind.mpr ⟨(), _, returns_modify.mpr rfl, ht⟩, ?_⟩
    rw [← hroom]
    exact mcdPageOut_room ht
  · rw [if_neg fun h => hn h.2]
    refine ⟨_, returns_modify.mpr rfl, ?_⟩
    rw [hroom]
    exact Nat.le_succ _

/-- What is left after a removal may be removed as well, and is one entry less. -/
theorem State.Removable.removal {m : CacheMode} (h : s.Removable c m) (hloc : loc ∈ s.tiers.locs m)
    (hm : mh ∈ s.entries loc) (hrem : Removal c s.tiers loc mh t.tiers) (hallocs : Allocs s t)
    (hroom : s.pool.room ≤ t.pool.room + 1) :
    t.Removable c m ∧ t.tiers.numEntries m < s.tiers.numEntries m := by
  have hlive : t.tiers.live = s.tiers.live := (Removals.cons hrem (.nil _)).live_eq
  have hlocs : t.tiers.locs m = s.tiers.locs m := by
    unfold Tiers.locs
    rw [hlive]
  have hon : t.outsourcing = s.outsourcing := by
    show t.tiers.outsourcing = s.tiers.outsourcing
    unfold Tiers.outsourcing
    rw [hrem.cfg_eq]
  have hcount : t.tiers.numEntries m + 1 = s.tiers.numEntries m := by
    unfold Tiers.numEntries
    rw [hlocs, hrem.entries_eq]
    exact total_erase h.nodup hloc hm
  refine ⟨⟨?_, ?_, ?_⟩, by omega⟩
  · rw [hlocs]
    exact h.nodup
  · intro l hl e he
    rw [hlocs] at hl
    have hsub := (Removals.cons hrem (.nil _)).entries_subset l
    have hdom : t.domids = s.domids := hlive
    rw [hdom]
    exact h.listed l hl e (hsub he)
  · intro ho
    rw [hon] at ho
    have hsup := h.supplied ho
    have hroom' := hsup.room
    exact ⟨hsup.inv.steps hallocs, by omega, hsup.alloc⟩

/-- The common part of both removals, from the state in which the entry is discharged. -/
theorem State.Removable.unlink {m : CacheMode} (h : s.Removable c m) (hloc : loc ∈ s.tiers.locs m)
    (hm : mh ∈ s.entries loc) (id : Domid) :
    ∃ t, Returns (unlinkHashT c loc mh .moveToSsd)
        ((s.dischargeData mh loc.mode).modifyDom id (·.discharge mh)) () t ∧
      s.pool.room ≤ t.pool.room + 1 := by
  generalize hu : (s.dischargeData mh loc.mode).modifyDom id (·.discharge mh) = u
  have hslab : u.slab = s.slab := by
    rw [← hu]
    exact slab_modifyDom (f := (·.discharge mh)) (fun _ => rfl) (fun _ => rfl) id
      (s.dischargeData mh loc.mode)
  have hon : u.outsourcing = s.outsourcing := by rw [← hu]; rfl
  have hdom : u.domids = s.domids := by
    rw [← hu]
    exact domids_modifyDom (f := (·.discharge mh)) (fun _ => rfl) id (s.dischargeData mh loc.mode)
  have hcount := total_erase (m := fun _ => 1) h.nodup hloc (show mh ∈ s.tiers.entries loc from hm)
  have hsup : u.outsourcing = true → u.Supplied c
      (total (Function.update s.tiers.entries loc ((s.tiers.entries loc).erase mh)) (fun _ => 1)
        (s.tiers.locs m) + 1) := by
    intro ho
    rw [hon] at ho
    rw [hcount]
    exact (h.supplied ho).of_slab hslab
  rw [← room_of_slab hslab]
  exact unlinkHashT_returns (by rw [hdom]; exact h.listed loc hloc mh hm) hsup

theorem State.Removable.sRemove {i : Bucket} (h : s.Removable c .shared) (hm : mh ∈ s.shared i) :
    ∃ t, Returns (sRemoveHashT c i mh .moveToSsd) s mh.bytes t ∧ t.Removable c .shared ∧
      t.tiers.numEntries .shared < s.tiers.numEntries .shared := by
  have hloc : Loc.bucket i ∈ s.tiers.locs .shared := mem_locs_iff.mpr ⟨rfl, by simp⟩
  obtain ⟨rec, hrec⟩ := find_of_listed (h.listed _ hloc mh hm)
  have hfind : findMcdDom mh.domain (s.dischargeData mh .shared) = some rec := hrec
  obtain ⟨t, hun, hroom⟩ := h.unlink hloc hm mh.domain
  have hret : Returns (sRemoveHashT c i mh .moveToSsd) s mh.bytes t := by
    simp only [sRemoveHashT, returns_bind, returns_modify, returns_domOf, returns_pure]
    exact ⟨(), _, rfl, rec, _, ⟨hfind, rfl⟩, (), _, rfl, (), t, hun, trivial, rfl⟩
  obtain ⟨-, hrem, -⟩ := sRemoveHashT_spec hret hm
  have hallocs : Allocs s t := reclaimed_allocs.sRemove i mh s _ t hret
  obtain ⟨ht, hlt⟩ := h.removal hloc hm hrem hallocs hroom
  exact ⟨t, hret, ht, hlt⟩

theorem State.Removable.pRemove {id : Domid} (h : s.Removable c .partition) (hid : id ∈ s.domids)
    (hm : mh ∈ s.entries (.dom id)) :
    ∃ t, Returns (pRemoveHashT c id mh .moveToSsd) s mh.bytes t ∧ t.Removable c .partition ∧
      t.tiers.numEntries .partition < s.tiers.numEntries .partition := by
  have hloc : Loc.dom id ∈ s.tiers.locs .partition :=
    mem_locs_iff.mpr ⟨rfl, fun d hd => (Loc.dom.inj hd) ▸ hid⟩
  obtain ⟨rec, hrec⟩ := find_of_listed hid
  have hfind : findMcdDom id (s.dischargeData mh .partition) = some rec := hrec
  obtain ⟨u, hun, hroom⟩ := h.unlink hloc hm id
  obtain ⟨_, t, husage⟩ := halts_domUsageUpdate (c := c) id u
  have hslab : t.slab = u.slab := ofSlab_eq.passive.domUsageUpdate id u _ t husage
  have hret : Returns (pRemoveHashT c id mh .moveToSsd) s mh.bytes t := by
    simp only [pRemoveHashT, returns_bind, returns_modify, returns_domOf, returns_pure]
    exact ⟨(), _, rfl, rec, _, ⟨hfind, rfl⟩, (), _, rfl, (), u, hun, (), t, husage, trivial, rfl⟩
  obtain ⟨-, hrem, -⟩ := pRemoveHashT_spec hret hm
  have hallocs : Allocs s t := reclaimed_allocs.pRemove id mh s _ t hret
  rw [← room_of_slab hslab] at hroom
  obtain ⟨ht, hlt⟩ := h.removal hloc hm hrem hallocs hroom
  exact ⟨t, hret, ht, hlt⟩

end

end UniCache.Mcd
