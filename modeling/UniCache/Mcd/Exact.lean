import UniCache.Mcd.Ideal

/-! While memory suffices the cache is the ideal map: every call returns, and returns what the map
says. -/
namespace UniCache.Mcd
open Base Base.Exec

/-! ### Allocation with room -/

section
variable {c : Ctx} {s : State} {size : UInt64}

theorem getTotMemSize_eq (c : Ctx) (s : State) :
    Returns (getTotMemSize c) s (s.tiers.totMemSize (c.availDomheapPages s.tick)) s.bump := by
  simp only [getTotMemSize, getFreeSysMem, returns_bind, returns_reading, returns_get, returns_pure,
    and_assoc, exists_and_left, exists_eq_left, and_true]
  rfl

/-- Best effort frees nothing and reports success. -/
theorem cacheFree_best (h : s.tiers.BestEffort) (amount : UInt64) (id : Domid) :
    Returns (cacheFree c amount id) s .errNo s := by
  have hm : s.cacheMode = .partition := h.1
  have hp : s.partitionMode = .be := h.2
  refine returns_get_bind.mpr ?_
  rw [hm]
  refine returns_get_bind.mpr ?_
  rw [hp]
  exact returns_pure.mpr ⟨rfl, rfl⟩

theorem firstTrial_room (hroom : s.tiers.Room c.toEnv size) (n : Nat) (id : Domid) :
    Returns (firstTrial c size (s.tiers.totMemSize (c.availDomheapPages n)) id) s .errNo s := by
  refine returns_get_bind.mpr ?_
  by_cases hfull : s.totUsedBytes + size + safetyBytes ≥ s.tiers.totMemSize (c.availDomheapPages n)
  · rw [if_pos hfull]
    rcases hroom.fits with hbest | hfits
    · exact cacheFree_best hbest _ id
    · exact absurd (hfits n) (UInt64.not_lt.mpr hfull)
  · rw [if_neg hfull]
    exact returns_pure.mpr ⟨rfl, rfl⟩

theorem mcdMalloc_room (hroom : s.tiers.Room c.toEnv size) (hpos : size ≠ 0) (id : Domid) :
    ∃ addr t, Returns (mcdMalloc c size id) s (some addr) t ∧ t.tiers = s.tiers := by
  have hfirst := firstTrial_room (s := s.bump) hroom s.tick id
  have halloc : Returns (allocateIf c .errNo) s.bump (some s.nextAddr)
      { s.bump.bump with nextAddr := s.nextAddr + 1 } := by
    rw [allocateIf, if_pos rfl]
    refine returns_bind.mpr ⟨true, s.bump.bump, returns_reading.mpr ⟨?_, rfl⟩, returns_get_bind.mpr
      (returns_bind.mpr ⟨(), _, returns_set.mpr rfl, returns_pure.mpr ⟨rfl, rfl⟩⟩)⟩
    exact (hroom.granted _).symm
  have hmalloc : Returns (mcdMalloc c size id) s (some s.nextAddr)
      { s.bump.bump with nextAddr := s.nextAddr + 1 } := by
    refine returns_bind.mpr ⟨_, _, getTotMemSize_eq c s, ?_⟩
    rw [if_neg hpos]
    exact returns_bind.mpr ⟨_, _, hfirst,
      returns_bind.mpr ⟨_, _, halloc, returns_pure.mpr ⟨rfl, rfl⟩⟩⟩
  exact ⟨_, _, hmalloc, rfl⟩

theorem entrySize_ne_zero (ks vs : UInt32) : entrySize ks vs ≠ 0 := by
  have hk : ks.toUInt64.toNat = ks.toNat := by simp
  have hv : vs.toUInt64.toNat = vs.toNat := by simp
  have hks := ks.toNat_lt
  have hvs := vs.toNat_lt
  have h72 : sizeofMcdHashT.toNat = 72 := rfl
  unfold entrySize roundSize
  generalize hsize : sizeofMcdHashT + ks.toUInt64 + vs.toUInt64 = n
  have hn : 0 < n.toNat ∧ n.toNat < 2 ^ 34 := by
    rw [← hsize, UInt64.toNat_add, UInt64.toNat_add, hk, hv, h72]
    omega
  -- a size below `2 ^ 34` does not wrap when it is rounded up
  have hround : ∀ m : UInt64, m.toNat ≤ 4096 → n + m ≠ 0 := by
    intro m hm hzero
    have hsum := congrArg UInt64.toNat hzero
    rw [UInt64.toNat_add] at hsum
    have hz : (0 : UInt64).toNat = 0 := rfl
    omega
  have hpage : pageSize.toNat = 4096 := rfl
  have halign : memAlign.toNat = 16 := rfl
  split_ifs with hbig hodd
  · apply hround
    rw [UInt64.toNat_sub_of_le _ _ (by rw [UInt64.le_iff_toNat_le, UInt64.toNat_mod, hpage]; omega)]
    omega
  · apply hround
    rw [UInt64.toNat_sub_of_le _ _ (by rw [UInt64.le_iff_toNat_le, UInt64.toNat_mod, halign]; omega)]
    omega
  · intro hzero
    rw [hzero] at hn
    exact absurd hn.1 (by decide)

end

/-! ### The relation to the map -/

/-- The tiers hold in memory exactly what the map holds, each hash once, and nothing outside. -/
structure Tiers.Mirrors (t : Tiers) (i : Ideal) : Prop where
  live : t.live = i.live
  nodup : t.live.Nodup
  mode : t.cfg.cacheMode = i.mode
  attached : t.cfg.mcdctlEnabled = i.attached
  headers : ∀ loc, t.headers loc = []
  once : ∀ loc, ((t.entries loc).map (·.hash)).Nodup
  owned : ∀ b, ∀ mh ∈ t.entries (.bucket b), mh.domain ∈ t.live
  held : ∀ loc, lookup McdHashT.hash McdHashT.value (t.entries loc) = i.held loc

section
variable {t u : Tiers} {i : Ideal} {loc : Loc} {mh : McdHashT} {d : Domid} {k : GuestKey}

theorem Tiers.Mirrors.drop (h : t.Mirrors i) (hmem : mh ∈ t.entries loc) :
    (t.drop loc mh).Mirrors (i.set loc mh.hash none) where
  live := h.live
  nodup := h.nodup
  mode := h.mode
  attached := h.attached
  headers := h.headers
  once l := by
    have hsub := update_erase_sublist t.entries loc mh l
    exact (h.once l).sublist (hsub.map _)
  owned b m hm := h.owned b m ((update_erase_sublist t.entries loc mh (.bucket b)).subset hm)
  held l := by
    simp only [Tiers.drop, Ideal.set]
    by_cases hl : l = loc
    · rw [hl, Function.update_self, Function.update_self, lookup_erase (h.once loc) hmem, h.held]
    · rw [Function.update_of_ne hl, Function.update_of_ne hl, h.held]

theorem Tiers.Mirrors.link (h : t.Mirrors i) (hnew : mh.hash ∉ (t.entries loc).map (·.hash))
    (hlisted : mh.domain ∈ t.live) : (t.link loc mh).Mirrors (i.set loc mh.hash (some mh.value)) where
  live := h.live
  nodup := h.nodup
  mode := h.mode
  attached := h.attached
  headers := h.headers
  once l := by
    simp only [Tiers.link]
    by_cases hl : l = loc
    · rw [hl, Function.update_self]
      exact nodup_concat (h.once loc) hnew
    · rw [Function.update_of_ne hl]
      exact h.once l
  owned b m hm := by
    rcases mem_of_update_append hm with hold | ⟨-, rfl⟩
    · exact h.owned b m hold
    · exact hlisted
  held l := by
    simp only [Tiers.link, Ideal.set]
    by_cases hl : l = loc
    · rw [hl, Function.update_self, Function.update_self, lookup_concat hnew, h.held]
    · rw [Function.update_of_ne hl, Function.update_of_ne hl, h.held]

/-- Counters, clocks and files do not show. -/
theorem Tiers.Mirrors.congr (h : t.Mirrors i) (hlive : u.live = t.live)
    (hmode : u.cfg.cacheMode = t.cfg.cacheMode) (hon : u.cfg.mcdctlEnabled = t.cfg.mcdctlEnabled)
    (hheads : u.headers = t.headers) (hent : u.entries = t.entries) : u.Mirrors i where
  live := hlive.trans h.live
  nodup := hlive ▸ h.nodup
  mode := hmode.trans h.mode
  attached := hon.trans h.attached
  headers := hheads ▸ h.headers
  once := hent ▸ h.once
  owned := by
    rw [hlive, hent]
    exact h.owned
  held := hent ▸ h.held

theorem Tiers.Mirrors.touch (h : t.Mirrors i) (loc : Loc) (mh : McdHashT) (now : Int) :
    (t.touch loc mh now).Mirrors i where
  live := h.live
  nodup := h.nodup
  mode := h.mode
  attached := h.attached
  headers := h.headers
  once l := by
    rw [map_entries_touch rfl]
    exact h.once l
  owned b := by
    have hdoms : ((t.touch loc mh now).entries (.bucket b)).map (·.domain) =
        (t.entries (.bucket b)).map (·.domain) := map_entries_touch rfl t loc _
    intro m hm
    have hmem : m.domain ∈ (t.entries (.bucket b)).map (·.domain) := by
      rw [← hdoms]
      exact List.mem_map_of_mem hm
    obtain ⟨m', hm', heq⟩ := List.mem_map.mp hmem
    exact heq ▸ h.owned b m' hm'
  held l := by
    rw [← h.held l]
    exact lookup_congr (map_entries_touch rfl t loc l)

end

/-! ### Operations on keys -/

theorem ofNat_length_value (mh : McdHashT) : UInt32.ofNat mh.value.length = mh.valSize := by
  rw [McdHashT.value, List.length_drop, mh.keyVal_length, Nat.add_sub_cancel_left,
    UInt32.ofNat_toNat]

section
variable {c : Ctx} {s t : State} {i : Ideal} {loc : Loc} {d : Domid} {k : GuestKey} {hash : UInt32}

theorem Tiers.Mirrors.home_eq (h : s.tiers.Mirrors i) : i.home d k = s.home d k := by
  rw [Ideal.home, State.home, ← h.mode]
  rfl

theorem Tiers.Mirrors.find_eq (h : s.tiers.Mirrors i) :
    i.find d k = (findMcdHashT (getHash k.bytes) (s.entries (s.home d k))).map (·.value) := by
  rw [Ideal.find, h.home_eq, ← h.held]
  rfl

theorem Tiers.Mirrors.headers_nil (h : s.tiers.Mirrors i) (loc : Loc) : s.headers loc = [] :=
  h.headers loc

theorem Tiers.Mirrors.navigable (h : s.tiers.Mirrors i) : s.Navigable := by
  refine ⟨fun loc => ?_, h.owned⟩
  rw [intact_iff, h.headers_nil]
  intro mch hmch
  cases hmch

theorem findMcdctlHashT_nil (h : s.headers loc = []) :
    Returns (findMcdctlHashT loc hash) s none s := by
  refine returns_findMcdctlHashT.mpr ⟨?_, ?_, rfl⟩
  · rw [State.intact, h]
    rfl
  · rw [h]
    rfl

theorem dropOutsourced_nil (h : s.headers loc = []) : Returns (dropOutsourced c loc hash) s () s :=
  returns_bind.mpr ⟨none, s, findMcdctlHashT_nil h, returns_pure.mpr ⟨rfl, rfl⟩⟩

theorem get_exact (h : s.tiers.Mirrors i) (hd : d ∈ s.tiers.live) (cap : UInt32) :
    ∃ t, Returns (mcdOp c (.get d k cap)) s (getReply cap (i.find d k)) t ∧ t.tiers.Mirrors i := by
  obtain ⟨r, t, hret⟩ := get_returns (c := c) (k := k) h.navigable hd cap fun mch hmch => by
    rw [h.headers_nil] at hmch
    cases hmch
  have howned : s.cacheMode = .partition → s.tiers.HeadersOwned := by
    intro _ e mch hmch
    rw [h.headers] at hmch
    cases hmch
  have hnone : (s.headers (s.home d k)).find? (·.hash = getHash k.bytes) = none := by
    rw [h.headers_nil]
    rfl
  rw [h.find_eq]
  cases get_path howned hret with
  | hit mh now find reply after =>
    have hreply : r = getReply cap (some mh.value) := by
      rw [getReply, ofNat_length_value]
      rcases reply with ⟨hbig, hr⟩ | ⟨hfits, hr⟩
      · rw [if_pos hbig]
        exact hr
      · rw [if_neg hfits]
        exact hr
    rw [find]
    refine ⟨t, hreply ▸ hret, ?_⟩
    rw [after]
    exact h.touch _ _ _
  | absent absent find reply after =>
    rw [absent]
    rw [reply] at hret
    refine ⟨t, hret, ?_⟩
    rw [after]
    exact h
  | refused mch absent find => exact absurd (hnone.symm.trans find) (by simp)
  | load mch mh u now absent find => exact absurd (hnone.symm.trans find) (by simp)

/-- To give a hash what it has changes nothing. -/
theorem Ideal.assign_find (i : Ideal) (d : Domid) (k : GuestKey) : i.assign d k (i.find d k) = i := by
  unfold Ideal.assign Ideal.set Ideal.find
  rw [Function.update_eq_self, Function.update_eq_self]

theorem Tiers.Mirrors.forgets {t u : Tiers} (h : t.Mirrors i) (hf : Forgets t loc hash u) : u = t := by
  rcases hf with ⟨-, heq⟩ | ⟨mch, hfind, -⟩
  · exact heq
  · rw [h.headers] at hfind
    cases hfind

theorem remove_exact (h : s.tiers.Mirrors i) (hd : d ∈ s.tiers.live) :
    ∃ t, Returns (mcdOp c (.remove d k)) s (.code .errNo) t ∧
      t.tiers.Mirrors (i.assign d k none) := by
  obtain ⟨r, t, hret⟩ := remove_returns (c := c) (k := k) h.navigable hd
  obtain ⟨rfl, hdis⟩ := remove_discards hret
  refine ⟨t, hret, ?_⟩
  rcases hdis with ⟨mh, hfind, ht⟩ | ⟨hnone, hforget⟩
  · obtain ⟨hmem, hhash⟩ := findMcdHashT_mem hfind
    rw [ht, Ideal.assign, h.home_eq, ← hhash]
    exact h.drop hmem
  · have hfind : i.find d k = none := by
      rw [h.find_eq]
      exact Option.map_eq_none_iff.mpr hnone
    rw [h.forgets hforget, ← hfind, Ideal.assign_find]
    exact h

/-- An entry that is not to be paged out, or cannot be, is dropped. -/
theorem unlinkHashT_stays (loc : Loc) {mh : McdHashT}
    (hstay : ¬ (mh.flags = mcdHashTNormal ∧ s.outsourcing)) :
    ∃ u t, Returns (unlinkHashT c loc mh .moveToSsd) s u t := by
  unfold unlinkHashT
  by_cases hnormal : mh.flags = mcdHashTNormal
  · rw [if_pos ⟨rfl, hnormal⟩]
    have hoff : ¬ (s.listDel loc mh).outsourcing := by
      have hsame : (s.listDel loc mh).outsourcing = s.outsourcing := by cases loc <;> rfl
      rw [hsame]
      exact fun hon => hstay ⟨hnormal, hon⟩
    apply returns_bind_of (a := ()) (returns_modify.mpr rfl)
    refine ⟨(), s.listDel loc mh, returns_get_bind.mpr ?_⟩
    rw [if_pos hoff]
    exact returns_pure.mpr ⟨rfl, rfl⟩
  · rw [if_neg fun hmove => hnormal hmove.2]
    exact Halts.modify _ s

theorem pRemoveHashT_stays {mh : McdHashT} (hd : d ∈ s.domids)
    (hstay : ¬ (mh.flags = mcdHashTNormal ∧ s.outsourcing)) :
    ∃ b t, Returns (pRemoveHashT c d mh .moveToSsd) s b t ∧ t.tiers = s.tiers.drop (.dom d) mh := by
  have hreturns : ∃ b t, Returns (pRemoveHashT c d mh .moveToSsd) s b t := by
    obtain ⟨rec, hrec⟩ := find_of_listed hd
    have hfind : findMcdDom d (s.dischargeData mh .partition) = some rec := hrec
    apply returns_bind_of (a := ()) (returns_modify.mpr rfl)
    apply returns_bind_of (returns_domOf.mpr ⟨hfind, rfl⟩)
    apply returns_bind_of (a := ()) (returns_modify.mpr rfl)
    obtain ⟨u, t, hunlink⟩ := unlinkHashT_stays (c := c) (.dom d)
      (s := (s.dischargeData mh .partition).modifyDom d (·.discharge mh)) hstay
    exact returns_bind_of hunlink ((halts_domUsageUpdate d).bind (fun _ => .pure _) t)
  obtain ⟨b, t, hret⟩ := hreturns
  refine ⟨b, t, hret, ?_⟩
  obtain ⟨-, hunlinks⟩ := pRemoveHashT_unlinks hret
  cases hunlinks with
  | drop why after => exact after
  | evict asked normal on n page slot accepted after => exact absurd ⟨normal, on⟩ hstay

theorem vacated_some {t : Tiers} {mh : McdHashT} (h : t.present d k = some mh) :
    t.vacated d k = t.drop (t.cfg.cacheMode.home d (getHash k.bytes)) mh := by
  rw [Tiers.vacated, h]
  rfl

theorem vacated_none {t : Tiers} (h : t.present d k = none) : t.vacated d k = t := by
  rw [Tiers.vacated, h]
  rfl

theorem present_shared (hm : s.cacheMode = .shared) : s.tiers.present d k =
    findMcdHashT (getHash k.bytes) (s.shared (bucketOf (getHash k.bytes))) := by
  have hhome := home_shared (d := d) (k := k) hm
  exact congrArg (fun loc => findMcdHashT (getHash k.bytes) (s.entries loc)) hhome

theorem present_partition (hm : s.cacheMode = .partition) : s.tiers.present d k =
    findMcdHashT (getHash k.bytes) (s.entries (.dom d)) := by
  have hhome := home_partition (d := d) (k := k) hm
  exact congrArg (fun loc => findMcdHashT (getHash k.bytes) (s.entries loc)) hhome

theorem sMcdReplace_vacates (h : s.tiers.Mirrors i) (hm : s.cacheMode = .shared) :
    ∃ ms u, Returns (sMcdReplace c (getHash k.bytes)) s ms u ∧ u.tiers = s.tiers.vacated d k := by
  have hpresent := present_shared (d := d) (k := k) hm
  cases hf : findMcdHashT (getHash k.bytes) (s.shared (bucketOf (getHash k.bytes))) with
  | none =>
    refine ⟨0, s, ?_, (vacated_none (hpresent.trans hf)).symm⟩
    apply returns_get_bind.mpr
    rw [hf]
    exact returns_bind.mpr ⟨(), s, dropOutsourced_nil (h.headers_nil _), returns_pure.mpr ⟨rfl, rfl⟩⟩
  | some mh =>
    have hreturns : ∃ ms u, Returns (sMcdReplace c (getHash k.bytes)) s ms u := by
      apply returns_bind_of (returns_get.mpr ⟨rfl, rfl⟩)
      rw [hf]
      apply returns_bind_of (returns_reading.mpr ⟨rfl, rfl⟩)
      apply returns_bind_of (a := ()) (returns_modify.mpr rfl)
      obtain ⟨b, t, hrem⟩ := sRemoveHashT_returns (c := c) (i := bucketOf (getHash k.bytes))
        (s := { s.bump with hist := s.bump.hist.noteQuery (c.now s.tick - mh.putTime) })
        (h.owned _ mh (findMcdHashT_mem hf).1)
      exact returns_bind_of hrem (Halts.pure _ t)
    obtain ⟨ms, u, hret⟩ := hreturns
    refine ⟨ms, u, hret, ?_⟩
    have hhome : s.tiers.cfg.cacheMode.home d (getHash k.bytes) =
        .bucket (bucketOf (getHash k.bytes)) := home_shared (d := d) (k := k) hm
    rw [vacated_some (hpresent.trans hf), hhome]
    exact (sMcdReplace_spec hret).2 mh hf

theorem pMcdReplace_vacates (h : s.tiers.Mirrors i) (hm : s.cacheMode = .partition)
    (hd : d ∈ s.domids) (hstay : ¬ s.tiers.Displaces d k) :
    ∃ ms u, Returns (pMcdReplace c d (getHash k.bytes)) s ms u ∧ u.tiers = s.tiers.vacated d k := by
  obtain ⟨rec, hrec⟩ := find_of_listed hd
  have hpresent := present_partition (d := d) (k := k) hm
  rw [entries_of_find hrec] at hpresent
  cases hf : findMcdHashT (getHash k.bytes) rec.hashList with
  | none =>
    refine ⟨0, s, ?_, (vacated_none (hpresent.trans hf)).symm⟩
    refine returns_bind.mpr ⟨rec, s, returns_domOf.mpr ⟨hrec, rfl⟩, ?_⟩
    rw [hf]
    exact returns_bind.mpr ⟨(), s, dropOutsourced_nil (h.headers_nil _), returns_pure.mpr ⟨rfl, rfl⟩⟩
  | some mh =>
    have hkeep : ¬ (mh.flags = mcdHashTNormal ∧ s.bump.outsourcing) :=
      fun hmoves => hstay ⟨hm, hmoves.2, mh, hpresent.trans hf, hmoves.1⟩
    obtain ⟨b, u, hrem, hu⟩ := pRemoveHashT_stays (c := c) (s := s.bump) hd hkeep
    refine ⟨nsToMs (c.now s.tick - mh.putTime), u, ?_, ?_⟩
    · refine returns_bind.mpr ⟨rec, s, returns_domOf.mpr ⟨hrec, rfl⟩, ?_⟩
      rw [hf]
      refine returns_bind.mpr ⟨_, s.bump, returns_reading.mpr ⟨rfl, rfl⟩, ?_⟩
      exact returns_bind.mpr ⟨b, u, hrem, returns_pure.mpr ⟨rfl, rfl⟩⟩
    · have hhome : s.tiers.cfg.cacheMode.home d (getHash k.bytes) = .dom d :=
        home_partition (d := d) (k := k) hm
      rw [vacated_some (hpresent.trans hf), hhome]
      exact hu

theorem Ideal.set_set (i : Ideal) (loc : Loc) (hash : UInt32) (x y : Option (List UInt8)) :
    (i.set loc hash x).set loc hash y = i.set loc hash y := by
  simp only [Ideal.set, Function.update_self, Function.update_idem]

/-- The place for a `put` is free: its hash is in no entry of its list. -/
theorem Tiers.Mirrors.vacated (h : s.tiers.Mirrors i) (d : Domid) (k : GuestKey) :
    (s.tiers.vacated d k).Mirrors (i.assign d k none) ∧
      getHash k.bytes ∉ ((s.tiers.vacated d k).entries (s.home d k)).map (·.hash) := by
  have hmirrors : (s.tiers.vacated d k).Mirrors (i.assign d k none) := by
    cases hp : s.tiers.present d k with
    | none =>
      have hfind : i.find d k = none := by
        rw [h.find_eq]
        exact Option.map_eq_none_iff.mpr hp
      rw [vacated_none hp, ← hfind, Ideal.assign_find]
      exact h
    | some mh =>
      obtain ⟨hmem, hhash⟩ := findMcdHashT_mem hp
      have hdrop := h.drop hmem
      rw [hhash] at hdrop
      rw [vacated_some hp, Ideal.assign, h.home_eq]
      exact hdrop
  refine ⟨hmirrors, ?_⟩
  have hnone : lookup McdHashT.hash McdHashT.value ((s.tiers.vacated d k).entries (s.home d k))
      (getHash k.bytes) = none := by
    rw [hmirrors.held, ← h.home_eq]
    simp only [Ideal.assign, Ideal.set, Function.update_self]
  exact lookup_eq_none.mp hnone

/-- What a `put` that has memory reports. -/
theorem putEntry_reply {v : GuestVal} {ms : UInt32} {addr : Nat} {s₁ : State} {r : Reply}
    (hmalloc : Returns (mcdMalloc c (entrySize k.size v.size) d) s (some addr) s₁)
    (h : Returns (putEntry c d k loc v ms) s r t) :
    r = { rc := .errNo, rValSize := some v.size, val := none } := by
  obtain ⟨o, s₂, hcreate, h⟩ := returns_bind.mp h
  obtain ⟨o', s₃, hraw, hfill⟩ := returns_bind.mp hcreate
  obtain ⟨-, mh, -, rfl, -⟩ := (returns_createMcdHashT hmalloc).mp hraw
  obtain ⟨rfl, -⟩ := returns_pure.mp hfill
  obtain ⟨m, s₄, hset, h⟩ := returns_bind.mp h
  obtain ⟨rfl, -, -⟩ := setQueryTime_spec hset
  obtain ⟨_, s₅, -, h⟩ := returns_bind.mp h
  exact (returns_pure.mp h).1

theorem Holds.value_eq {v : GuestVal} {mh : McdHashT} (h : Holds d k v mh) : mh.value = v.bytes := by
  rw [McdHashT.value, h.keyVal, h.keySize, ← k.again_length, List.drop_left]

theorem put_exact {v : GuestVal} (h : s.tiers.Mirrors i)
    (hfree : (Cmd.put d k v).Unhindered s.tiers c.toEnv) :
    ∃ t, Returns (mcdOp c (.put d k v)) s { rc := .errNo, rValSize := some v.size, val := none } t ∧
      t.tiers.Mirrors (i.assign d k (some v.bytes)) := by
  obtain ⟨hd, hstable, hstay, hroom⟩ := hfree
  obtain ⟨hvacated, hnew⟩ := h.vacated d k
  -- the second half, from any state in which the place is free
  have hput : ∀ ms u, u.tiers = s.tiers.vacated d k →
      ∃ t, Returns (putEntry c d k (s.home d k) v ms) u
          { rc := .errNo, rValSize := some v.size, val := none } t ∧
        t.tiers.Mirrors (i.assign d k (some v.bytes)) := by
    intro ms u hu
    rw [← hu] at hroom hvacated hnew
    have hlive : d ∈ u.tiers.live := by
      rw [hvacated.live]
      exact h.live ▸ hd
    have hloc : (s.home d k).For u.tiers d :=
      home_for (hvacated.mode.trans h.mode.symm) d (getHash k.bytes)
    obtain ⟨addr, s₁, hmalloc, hsame⟩ := mcdMalloc_room hroom (entrySize_ne_zero _ _) d
    obtain ⟨r, t, mh, hret, hholds, ht⟩ := putEntry_links ms hmalloc hsame hloc hlive
    obtain rfl := putEntry_reply hmalloc hret
    refine ⟨t, hret, ?_⟩
    have hhash : mh.hash = getHash k.bytes := by rw [hholds.hash, hstable]
    have hnew : mh.hash ∉ (u.tiers.entries (s.home d k)).map (·.hash) := by rwa [hhash]
    have hlink := hvacated.link hnew (hholds.domain ▸ hlive)
    rw [hhash, hholds.value_eq, ← h.home_eq, Ideal.assign, Ideal.set_set] at hlink
    rw [ht, ← h.home_eq]
    exact hlink
  cases hm : s.cacheMode with
  | shared =>
    obtain ⟨ms, u, hrep, hu⟩ := sMcdReplace_vacates (c := c) (d := d) (k := k) h hm
    obtain ⟨t, hret, ht⟩ := hput ms u hu
    rw [home_shared hm] at hret
    refine ⟨t, returns_get_bind.mpr ?_, ht⟩
    rw [hm]
    exact returns_bind.mpr ⟨ms, u, hrep, hret⟩
  | partition =>
    obtain ⟨ms, u, hrep, hu⟩ := pMcdReplace_vacates (c := c) h hm hd hstay
    obtain ⟨t, hret, ht⟩ := hput ms u hu
    rw [home_partition hm] at hret
    refine ⟨t, returns_get_bind.mpr ?_, ht⟩
    rw [hm]
    exact returns_bind.mpr ⟨ms, u, hrep, hret⟩

/-- With room a lookup links its header-only entry and does nothing else. -/
theorem addMeasurement_links (hroom : s.tiers.Room c.toEnv (entrySize k.size 0))
    (hloc : loc.For s.tiers d) (hlive : d ∈ s.tiers.live) :
    ∃ t mh, Returns (addMeasurement c d loc k) s () t ∧ mh.domain = d ∧
      mh.hash = getHash k.bytes ∧ mh.value = [] ∧ t.tiers = s.tiers.link loc mh := by
  obtain ⟨addr, s₁, hmalloc, hsame⟩ := mcdMalloc_room hroom (entrySize_ne_zero _ _) d
  obtain ⟨m, s₂, hcreate, ⟨now, stale, hfresh⟩, hsome, hcharge⟩ :=
    createMcdHashT_charges hmalloc hsame hlive
  have hdom : m.domain = d := by
    rw [hfresh]
    rfl
  refine ⟨_, { m.fill k emptyVal with hash := getHash k.bytes },
    returns_bind.mpr ⟨some m, s₂, hcreate, returns_modify.mpr rfl⟩, hdom, rfl, ?_, ?_⟩
  · have hval : ({ m.fill k emptyVal with hash := getHash k.bytes } : McdHashT).value =
        (k.again ++ []).drop k.size.toNat := rfl
    rw [hval, ← k.again_length, List.drop_left]
  · refine tiers_listAddTail (m := m) (hloc.has hsome) ?_ rfl rfl
    rw [hcharge, hloc.payer_eq, hloc.1]
    exact hdom

theorem check_exact (h : s.tiers.Mirrors i) (hd : d ∈ s.tiers.live)
    (hroom : s.tiers.present d k = none → s.tiers.Room c.toEnv (entrySize k.size 0)) :
    ∃ t, Returns (mcdOp c (.check d k)) s (checkReply i.mode (i.find d k)) t ∧
      t.tiers.Mirrors (i.measure d k) := by
  have hadds : s.tiers.present d k = none → ∃ t, Returns (addMeasurement c d (s.home d k) k) s () t ∧
      t.tiers.Mirrors (i.assign d k (some [])) := by
    intro hnone
    obtain ⟨t, mh, hret, hdom, hhash, hval, ht⟩ := addMeasurement_links (c := c) (hroom hnone)
      (for_home s d k) hd
    refine ⟨t, hret, ?_⟩
    have hnew : mh.hash ∉ (s.entries (s.home d k)).map (·.hash) := by
      rw [hhash]
      exact find_eq_none.mp hnone
    have hlink := h.link hnew (hdom ▸ hd)
    rw [hhash, hval, ← h.home_eq] at hlink
    rw [ht, ← h.home_eq]
    exact hlink
  have hreturns : ∃ r t, Returns (mcdOp c (.check d k)) s r t := by
    apply mcdSubCall_returns
    · intro hm
      obtain ⟨rec, hrec⟩ := find_of_listed hd
      have hpresent := present_partition (d := d) (k := k) hm
      rw [entries_of_find hrec] at hpresent
      apply returns_bind_of (returns_domOf.mpr ⟨hrec, rfl⟩)
      cases hf : findMcdHashT (getHash k.bytes) rec.hashList with
      | some mh => exact Halts.pure _ s
      | none =>
        obtain ⟨t, hret, -⟩ := hadds (hpresent.trans hf)
        rw [home_partition hm] at hret
        apply returns_bind_of (findMcdctlHashT_nil (h.headers_nil _))
        exact returns_bind_of hret (Halts.pure _ t)
    · intro hm
      have hpresent := present_shared (d := d) (k := k) hm
      apply returns_bind_of (returns_get.mpr ⟨rfl, rfl⟩)
      cases hf : findMcdHashT (getHash k.bytes) (s.entries (.bucket (bucketOf (getHash k.bytes)))) with
      | some mh => exact Halts.pure _ s
      | none =>
        obtain ⟨t, hret, -⟩ := hadds (hpresent.trans hf)
        rw [home_shared hm] at hret
        apply returns_bind_of (findMcdctlHashT_nil (h.headers_nil _))
        exact returns_bind_of hret (Halts.pure _ t)
  obtain ⟨r, t, hret⟩ := hreturns
  have hmode : i.mode = s.cacheMode := h.mode.symm
  cases check_path hret with
  | found mh find reply after =>
    have hfind : i.find d k = some mh.value := by rw [h.find_eq, find]; rfl
    refine ⟨t, ?_, ?_⟩
    · rw [hfind, checkReply, ofNat_length_value, hmode, ← reply]
      exact hret
    · rw [Ideal.measure, hfind, after]
      exact h
  | absent absent mch find adds reply =>
    have hfind : i.find d k = none := by rw [h.find_eq, absent]; rfl
    have hmch : mch = none := by rw [find, h.headers_nil]; rfl
    obtain ⟨t', hadd, ht'⟩ := hadds absent
    obtain ⟨-, rfl⟩ := returns_unique adds hadd
    refine ⟨t, ?_, ?_⟩
    · rw [reply, hmch] at hret
      rw [hfind, hmode]
      exact hret
    · rw [Ideal.measure, hfind]
      exact ht'

end

end UniCache.Mcd
