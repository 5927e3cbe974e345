import Mathlib.Tactic.Linarith
import UniCache.Mcd.Accounting

/-! The memory limit: what `set_memsize` enforces and what the guest operations keep. -/
namespace UniCache.Mcd
open Base Base.Exec

/-- The bytes of all entries in memory, as a number without a width. -/
def Tiers.heldBytes (t : Tiers) : Nat :=
  total t.entries (fun mh => mh.nrBytes.toNat) (t.locs .shared ++ t.locs .partition)

/-- The counters are exact, and the entries stay within a limit that is set. -/
structure Tiers.Capped (t : Tiers) : Prop where
  counted : t.Counted
  limited : t.cfg.maxMemBytes ≠ 0
  held_le : t.heldBytes ≤ t.cfg.maxMemBytes.toNat

/-- The entries lie in a 64-bit address space and leave room for one more. -/
def Tiers.Fits (t : Tiers) : Prop := t.heldBytes + 2 ^ 34 ≤ 2 ^ 64

section
variable {c : Ctx} {s t u : Tiers} {loc : Loc} {mh : McdHashT}

theorem toNat_sum_bytes (l : List McdHashT) :
    (l.map fun mh : McdHashT => mh.bytes).sum.toNat = (l.map fun mh => mh.nrBytes.toNat).sum % 2 ^ 64 := by
  have hb : UInt64.toNat ∘ (fun mh : McdHashT => mh.bytes) = fun mh => mh.nrBytes.toNat := by
    funext mh
    simp [McdHashT.bytes]
  rw [value_sum (v := UInt64.toNat) rfl UInt64.toNat_add, List.map_map, hb]

/-- The byte counters of both modes show the bytes held, modulo their width. -/
theorem Tiers.Counted.totUsedBytes_eq (hc : t.Counted) :
    t.totUsedBytes.toNat = t.heldBytes % 2 ^ 64 := by
  have hbytes : ∀ m, (t.data.counters m).1.toNat =
      total t.entries (fun mh => mh.nrBytes.toNat) (t.locs m) % 2 ^ 64 := by
    intro m
    rw [hc.counters, total_eq_flatMap, sum_weight, total_eq_flatMap, toNat_sum_bytes]
  have hpri : t.data.priNrBytes.toNat = _ := hbytes .partition
  have hshr : t.data.shrNrBytes.toNat = _ := hbytes .shared
  unfold Tiers.totUsedBytes Tiers.heldBytes
  rw [UInt64.toNat_add, hpri, hshr, total_append, ← Nat.add_mod, Nat.add_comm]

theorem Tiers.Counted.totUsedBytes_of_lt (hc : t.Counted) (hlt : t.heldBytes < 2 ^ 64) :
    t.totUsedBytes.toNat = t.heldBytes := by
  rw [hc.totUsedBytes_eq, Nat.mod_eq_of_lt hlt]

theorem Tiers.Counted.held_removal (hc : t.Counted) (h : Removal c t loc mh u) :
    u.heldBytes + mh.nrBytes.toNat = t.heldBytes := by
  cases h with
  | drop mem => exact total_erase (nodup_allLocs hc.live) (mem_allLocs (hc.mem_locs mem)) mem
  | evict mem =>
    exact total_erase (nodup_allLocs hc.live) (mem_allLocs (hc.mem_locs mem)) mem

theorem Tiers.Counted.held_removals {l : List (Loc × McdHashT)} (hc : s.Counted)
    (h : Removals c s l t) : t.Counted ∧ t.heldBytes + removedBytes l = s.heldBytes := by
  induction h with
  | nil t => exact ⟨hc, by simp [removedBytes]⟩
  | cons h _ ih =>
    obtain ⟨hcounted, hrest⟩ := ih (hc.removal h)
    have hone := hc.held_removal h
    refine ⟨hcounted, ?_⟩
    simp only [removedBytes, List.map_cons, List.sum_cons] at hrest ⊢
    omega

/-- Removals of `k` bytes lower the bytes held by as much. -/
theorem Tiers.Counted.held_clears {P : Loc → Prop} {k : Nat} (hc : s.Counted)
    (h : Clears c P s t k) : t.Counted ∧ t.heldBytes + k ≤ s.heldBytes := by
  obtain ⟨l, hl, -, hk⟩ := h
  obtain ⟨hcounted, hheld⟩ := hc.held_removals hl
  exact ⟨hcounted, by omega⟩

theorem Tiers.Counted.held_link (hc : t.Counted) (hp : loc.payer mh = mh.domain)
    (hlist : mh.domain ∈ t.live) : (t.link loc mh).heldBytes = t.heldBytes + mh.nrBytes.toNat :=
  total_concat (nodup_allLocs hc.live) (mem_allLocs (mem_locs_of_payer hp hlist)) mh

theorem held_touch (t : Tiers) (loc : Loc) (mh : McdHashT) (now : Int) :
    (t.touch loc mh now).heldBytes = t.heldBytes := by
  have hw : (fun x : McdHashT => x.nrBytes.toNat) { mh with ref := mh.ref + 1, putTime := now } =
      (fun x : McdHashT => x.nrBytes.toNat) mh := rfl
  exact total_replace t.entries (t.locs .shared ++ t.locs .partition) loc hw

/-- A release keeps the settings and the exact counters, and holds no more than before. -/
theorem Tiers.Counted.release (hc : t.Counted) (h : Release c t u) :
    u.Counted ∧ u.cfg = t.cfg ∧ u.heldBytes ≤ t.heldBytes := by
  cases h with
  | removal h =>
    have hheld := hc.held_removal h
    exact ⟨hc.removal h, h.cfg_eq, by omega⟩
  | touch loc mh now => exact ⟨hc.touch loc mh now, rfl, (held_touch t loc mh now).le⟩
  | forget headers store sub => exact ⟨hc.act (c := c) (.forget headers store sub), rfl, le_rfl⟩

theorem Tiers.Counted.releases (hc : s.Counted) (h : Releases c s t) :
    t.Counted ∧ t.cfg = s.cfg ∧ t.heldBytes ≤ s.heldBytes := by
  refine h.induct (I := fun v => v.Counted ∧ v.cfg = s.cfg ∧ v.heldBytes ≤ s.heldBytes) ?_ ⟨hc, rfl, le_rfl⟩
  rintro v w hrel ⟨hv, hcfg, hle⟩
  obtain ⟨hw, hcfg', hle'⟩ := hv.release hrel
  exact ⟨hw, hcfg'.trans hcfg, hle'.trans hle⟩

theorem Tiers.Capped.releases (hc : s.Capped) (h : Releases c s t) :
    t.Capped ∧ t.cfg = s.cfg ∧ t.heldBytes ≤ s.heldBytes := by
  obtain ⟨ht, hcfg, hle⟩ := hc.counted.releases h
  refine ⟨⟨ht, ?_, ?_⟩, hcfg, hle⟩
  · rw [hcfg]
    exact hc.limited
  · rw [hcfg]
    exact hle.trans hc.held_le

/-- An entry takes less than 16 GiB with the safety margin. -/
theorem entrySize_lt (ks vs : UInt32) : (entrySize ks vs).toNat + 4096 < 2 ^ 34 := by
  have hk : ks.toUInt64.toNat = ks.toNat := by simp
  have hv : vs.toUInt64.toNat = vs.toNat := by simp
  have hks := ks.toNat_lt
  have hvs := vs.toNat_lt
  have h72 : sizeofMcdHashT.toNat = 72 := rfl
  have hpage : pageSize.toNat = 4096 := rfl
  have halign : memAlign.toNat = 16 := rfl
  unfold entrySize roundSize
  generalize hsize : sizeofMcdHashT + ks.toUInt64 + vs.toUInt64 = size
  have hle : size.toNat < 2 ^ 33 + 72 := by
    rw [← hsize, UInt64.toNat_add, UInt64.toNat_add, hk, hv, h72]
    omega
  split_ifs
  · have hmod : (size % pageSize).toNat = size.toNat % 4096 := by rw [UInt64.toNat_mod, hpage]
    have hsub : (pageSize - size % pageSize).toNat = 4096 - size.toNat % 4096 := by
      rw [UInt64.toNat_sub_of_le, hmod, hpage]
      rw [UInt64.le_iff_toNat_le, hmod, hpage]
      omega
    rw [UInt64.toNat_add, hsub]
    omega
  · have hmod : (size % memAlign).toNat = size.toNat % 16 := by rw [UInt64.toNat_mod, halign]
    have hsub : (memAlign - size % memAlign).toNat = 16 - size.toNat % 16 := by
      rw [UInt64.toNat_sub_of_le, hmod, halign]
      rw [UInt64.le_iff_toNat_le, hmod, halign]
      omega
    rw [UInt64.toNat_add, hsub]
    omega
  · omega

/-- Outside best effort an entry that is admitted leaves the total within the limit: either the
total had room for it, or that much was removed first. -/
theorem Tiers.Capped.admits (hc : s.Capped) (hbe : ¬ s.BestEffort) (hfit : s.Fits)
    (h : Admits c s loc mh u t) : t.Capped ∧ t.cfg = s.cfg := by
  obtain ⟨hu, hheld⟩ := hc.counted.held_clears h.clears
  have hcfg : u.cfg = s.cfg := h.clears.cfg_eq
  have hlisted : mh.domain ∈ u.live := by
    rw [h.clears.live_eq]
    exact h.listed
  have hsize := entrySize_lt mh.keySize mh.valSize
  have hbytes : mh.nrBytes.toNat ≤ (entrySize mh.keySize mh.valSize).toNat := by
    rw [h.nrBytes, UInt64.toNat_toUInt32]
    exact Nat.mod_le _ _
  have hsafety : safetyBytes.toNat = 4096 := rfl
  generalize hz : entrySize mh.keySize mh.valSize = size at *
  have hroom : u.heldBytes + mh.nrBytes.toNat ≤ s.cfg.maxMemBytes.toNat := by
    have hle := hc.held_le
    unfold Tiers.Fits at hfit
    rcases h.granted with hb | hlim | hclears
    · exact (hbe hb).elim
    · have hlt := UInt64.lt_iff_toNat_lt.mp (hlim hc.limited)
      have htot := hc.counted.totUsedBytes_of_lt (by omega)
      rw [hz, UInt64.toNat_add, UInt64.toNat_add, htot, hsafety] at hlt
      omega
    · have hcut := (hc.counted.held_clears hclears).2
      rw [hz, UInt64.toNat_add, hsafety] at hcut
      omega
  rw [h.after]
  refine ⟨⟨hu.link h.payer hlisted, ?_, ?_⟩, hcfg⟩
  · show u.cfg.maxMemBytes ≠ 0
    rw [hcfg]
    exact hc.limited
  · rw [hu.held_link h.payer hlisted]
    show _ ≤ u.cfg.maxMemBytes.toNat
    rw [hcfg]
    exact hroom

theorem Tiers.Fits.of_le (h : s.Fits) (hle : t.heldBytes ≤ s.heldBytes) : t.Fits := by
  unfold Tiers.Fits at *
  omega

/-- A guest operation keeps the limit. -/
theorem Tiers.Capped.op (hc : s.Capped) (hbe : ¬ s.BestEffort) (hfit : s.Fits)
    (h : GuestOp c s t) : t.Capped ∧ t.cfg = s.cfg := by
  rcases h with hrel | ⟨a, b, w, loc, mh, hrel, hadm, hend⟩
  · obtain ⟨ht, hcfg, -⟩ := hc.releases hrel
    exact ⟨ht, hcfg⟩
  · obtain ⟨ha, hcfg, hle⟩ := hc.releases hrel
    have hbe' : ¬ a.BestEffort := by
      unfold Tiers.BestEffort
      rw [hcfg]
      exact hbe
    obtain ⟨hb, hcfg'⟩ := ha.admits hbe' (hfit.of_le hle) hadm
    obtain ⟨ht, hcfg'', -⟩ := hb.releases hend
    exact ⟨ht, hcfg''.trans (hcfg'.trans hcfg)⟩

end

theorem cap_of_capped {s : State} (h : s.tiers.Capped) : s.totUsedBytes ≤ s.maxMemBytes := by
  have hle : s.tiers.heldBytes ≤ s.maxMemBytes.toNat := h.held_le
  have hlt := s.maxMemBytes.toNat_lt
  have htot : s.totUsedBytes.toNat = s.tiers.heldBytes := h.counted.totUsedBytes_of_lt (by omega)
  rw [UInt64.le_iff_toNat_le, htot]
  exact hle

theorem held_eq_zero {t : Tiers} (h : ∀ loc, t.entries loc = []) : t.heldBytes = 0 :=
  total_eq_zero fun loc _ mh hmh => by simp [h loc] at hmh

section
variable {c : Ctx} {amount : UInt64} {rc : Rc} {s t : State}

theorem Freed.entries_nil {P : Loc → Prop} {n : UInt64} {loc : Loc} (h : Freed c P s t n)
    (hs : s.tiers.entries loc = []) : t.tiers.entries loc = [] := by
  have hsub : t.tiers.entries loc ⊆ s.tiers.entries loc := h.entries_subset loc
  rw [hs] at hsub
  exact List.subset_nil.mp hsub

/-- A reclaim in shared mode removes the amount, or all there is. -/
theorem cacheFree_shared (hm : s.cacheMode = .shared)
    (hnone : ∀ d, s.tiers.entries (.dom d) = []) (h : Returns (cacheFree c amount 0) s rc t) :
    Clears c s.tiers.Current s.tiers t.tiers amount.toNat ∨ t.tiers.heldBytes = 0 := by
  simp only [cacheFree, returns_bind, returns_get, and_assoc, exists_and_left, exists_eq_left] at h
  rw [hm] at h
  obtain ⟨n, hf, ⟨-, hle⟩ | ⟨-, -, hempty⟩⟩ := sharedCacheFree_spec h
  · have hcl := hf.clears.mono (UInt64.le_iff_toNat_le.mp hle)
    exact .inl (hcl.imp fun loc hloc => hloc.trans hm.symm)
  · refine .inr (held_eq_zero fun loc => ?_)
    cases loc with
    | bucket i => exact hempty i
    | dom d => exact hf.entries_nil (hnone d)

/-- So does the weight-based reclaim, when it is called for dom0. -/
theorem cacheFree_weightBased (hm : s.cacheMode = .partition) (hp : s.partitionMode = .wb)
    (hc : s.tiers.Counted) (hnone : ∀ i, s.tiers.entries (.bucket i) = [])
    (h : Returns (cacheFree c amount 0) s rc t) :
    Clears c s.tiers.Current s.tiers t.tiers amount.toNat ∨ t.tiers.heldBytes = 0 := by
  simp only [cacheFree, partitionCacheFree, returns_bind, returns_get, and_assoc, exists_and_left,
    exists_eq_left] at h
  rw [hm] at h
  simp only [returns_bind, returns_get, and_assoc, exists_and_left, exists_eq_left] at h
  rw [hp] at h
  obtain ⟨n, hf, -, hend⟩ := partitionCfWeightBased_spec h
  rcases hend rfl with hle | hempty
  · have hcl := hf.clears.mono (UInt64.le_iff_toNat_le.mp hle)
    exact .inl (hcl.imp fun loc hloc => hloc.trans hm.symm)
  · refine .inr (held_eq_zero fun loc => ?_)
    cases loc with
    | bucket i => exact hf.entries_nil (hnone i)
    | dom d =>
      by_cases hd : d ∈ s.tiers.live
      · exact hempty d hd
      · exact hf.entries_nil (hc.unlisted d hd)

/-- The reclaim of `set_memsize` brings the total below the limit, if what it calls removes the
excess or all there is. -/
theorem freeExcess_capped (hc : s.tiers.Counted) (hlim : s.maxMemBytes ≠ 0)
    (hlt : s.tiers.heldBytes < 2 ^ 64)
    (hfree : ∀ amount, Returns (cacheFree c amount 0) s rc t →
      Clears c s.tiers.Current s.tiers t.tiers amount.toNat ∨ t.tiers.heldBytes = 0)
    (h : Returns (freeExcess c) s rc t) : t.tiers.Capped ∧ t.tiers.cfg = s.tiers.cfg := by
  have htot : s.totUsedBytes.toNat = s.tiers.heldBytes := hc.totUsedBytes_of_lt hlt
  rcases freeExcess_spec h with ⟨-, hover, hcall⟩ | ⟨hunder, rfl⟩
  · have hgt := UInt64.lt_iff_toNat_lt.mp hover
    have hle : s.maxMemBytes ≤ s.totUsedBytes := UInt64.le_of_lt hover
    obtain ⟨hcl, -⟩ := cacheFree_clears hcall
    have hcfg := hcl.cfg_eq
    have hheld : t.tiers.heldBytes ≤ s.maxMemBytes.toNat := by
      rcases hfree _ hcall with henough | hzero
      · have hcut := (hc.held_clears henough).2
        rw [UInt64.toNat_sub_of_le _ _ hle] at hcut
        omega
      · omega
    refine ⟨⟨(hc.held_clears hcl).1, ?_, ?_⟩, hcfg⟩
    · rw [hcfg]
      exact hlim
    · rw [hcfg]
      exact hheld
  · have hle : t.totUsedBytes ≤ t.maxMemBytes :=
      UInt64.not_lt.mp fun hover => hunder ⟨hlim, hover⟩
    rw [UInt64.le_iff_toNat_le, htot] at hle
    exact ⟨⟨hc, hlim, hle⟩, rfl⟩

-- for any limit: the product in `memsizeBytes` must not be unfolded
theorem limit_capped {bytes : UInt64} (hc : s.tiers.Counted) (hlim : bytes ≠ 0)
    (hfit : s.tiers.Fits)
    (hfree : ∀ w amount, w = { s with maxMemBytes := bytes } →
      Returns (cacheFree c amount 0) w rc t →
      Clears c w.tiers.Current w.tiers t.tiers amount.toNat ∨ t.tiers.heldBytes = 0)
    (h : Returns (freeExcess c) { s with maxMemBytes := bytes } rc t) :
    t.tiers.Capped ∧ t.tiers.cfg = { s.tiers.cfg with maxMemBytes := bytes } := by
  generalize hw : ({ s with maxMemBytes := bytes } : State) = w at h
  have hwc : w.tiers.Counted := by
    rw [← hw]
    exact hc.acts (upkeeps_maxMemBytes (c := c) bytes).acts
  have hheld : w.tiers.heldBytes = s.tiers.heldBytes := by rw [← hw]; rfl
  have hmax : w.maxMemBytes ≠ 0 := by rw [← hw]; exact hlim
  have hlt : w.tiers.heldBytes < 2 ^ 64 := by
    unfold Tiers.Fits at hfit
    omega
  obtain ⟨hcap, hcfg⟩ := freeExcess_capped hwc hmax hlt (fun amount => hfree w amount hw.symm) h
  refine ⟨hcap, ?_⟩
  rw [hcfg, ← hw]
  rfl

end

theorem toNat_memsizeBytes (m : Int32) :
    ((memsizeBytes m).toNat : Int) = m.toInt * 1000000 % 2 ^ 64 := by
  have hsign : m.toInt64.toUInt64.toNat = (m.toInt % 2 ^ 64).toNat := by
    have hbits : m.toInt64.toUInt64.toNat = (m.toBitVec.signExtend 64).toNat := rfl
    rw [hbits, BitVec.signExtend, BitVec.toNat_ofInt]
    rfl
  have hmega : (1000000 : UInt64).toNat = 1000000 := by decide
  unfold memsizeBytes
  rw [UInt64.toNat_mul, hsign, hmega]
  have hlt := m.toInt_lt
  have hle := m.le_toInt
  omega

/-- No multiple of a megabyte in the range of an `int` vanishes modulo 2^64. -/
theorem eq_zero_of_mega {x : Int} (h : x * 1000000 % 2 ^ 64 = 0) (hlt : x < 2 ^ 31)
    (hle : -2 ^ 31 ≤ x) : x = 0 := by
  obtain ⟨k, hk⟩ := Int.dvd_of_emod_eq_zero h
  have hlow : 0 ≤ k := Int.add_one_le_iff.mpr (by linarith : -1 < k)
  have hhigh : k ≤ 0 := Int.le_of_lt_add_one (by linarith : k < 0 + 1)
  rw [le_antisymm hhigh hlow] at hk
  linarith

theorem memsizeBytes_ne_zero {m : Int32} (hm : m ≠ 0) : memsizeBytes m ≠ 0 := by
  intro h
  have hbytes := toNat_memsizeBytes m
  generalize memsizeBytes m = bytes at *
  rw [h] at hbytes
  have hzero := eq_zero_of_mega hbytes.symm m.toInt_lt m.le_toInt
  exact hm (Int32.toInt_inj.mp hzero)

theorem memsizeBytes_lt {m : Int32} (hm : 0 < m) : (memsizeBytes m).toNat < 2 ^ 51 := by
  have hbytes := toNat_memsizeBytes m
  generalize memsizeBytes m = bytes at *
  have hpos : 0 < m.toInt := Int32.lt_iff_toInt_lt.mp hm
  have hlt := m.toInt_lt
  rw [Int.emod_eq_of_lt (by linarith) (by linarith)] at hbytes
  omega

section
variable {y y₁ z : System} {env : Env} {m : Int32} {r : Reply} {l l₀ : List (Call × Reply)}

theorem call_memsize (h : y.call ⟨env, .memsize m⟩ = .ok (r, z)) :
    ∃ rc u, Returns (freeExcess (y.ctx env)) { y.mcd with maxMemBytes := memsizeBytes m } rc u ∧
      z.mcd.tiers = u.tiers := by
  obtain ⟨t, hop, hz, -⟩ := call_spec h
  obtain ⟨rc, u, hfree, ht⟩ := setMemsize_spec hop
  exact ⟨rc, u, hfree, hz.trans ht⟩

/-- The guest operations after a `set_memsize(m)`. Only a negative `m`, whose limit is near the
end of the address space, asks for the address space to be looked at. -/
def Call.Within (m : Int32) (y : System) (a : Call) : Prop :=
  a.cmd.ByGuest ∧ (m < 0 → y.mcd.tiers.Fits)

instance (t : Tiers) : Decidable t.Fits := inferInstanceAs (Decidable (_ ≤ _))

instance (m : Int32) (y : System) (a : Call) : Decidable (Call.Within m y a) :=
  inferInstanceAs (Decidable (_ ∧ (_ → _)))

theorem fits_of_capped {t : Tiers} (hm : m ≠ 0) (hmax : t.cfg.maxMemBytes = memsizeBytes m)
    (ht : t.Capped) (hneg : m < 0 → t.Fits) : t.Fits := by
  by_cases h : m < 0
  · exact hneg h
  · have hpos : 0 < m := Int32.lt_of_le_of_ne (Int32.not_lt.mp h) (Ne.symm hm)
    have hlt := memsizeBytes_lt hpos
    have hle := ht.held_le
    rw [hmax] at hle
    unfold Tiers.Fits
    omega

/-- The limit is kept by every run of guest operations. -/
theorem run_capped (hm : m ≠ 0) (hmax : y.mcd.tiers.cfg.maxMemBytes = memsizeBytes m)
    (hbe : ¬ y.mcd.tiers.BestEffort) (hy : y.mcd.tiers.Capped) (h : Run (Call.Within m) y l z) :
    z.mcd.tiers.Capped ∧ z.mcd.tiers.cfg = y.mcd.tiers.cfg := by
  refine h.invariant (I := fun x => x.mcd.tiers.Capped ∧ x.mcd.tiers.cfg = y.mcd.tiers.cfg) ?_
    ⟨hy, rfl⟩
  rintro x ⟨a, r⟩ x' ⟨hx, hcfg⟩ ⟨⟨hguest, hneg⟩, hcall⟩
  obtain ⟨t, hop, ht, -⟩ := call_spec hcall
  have hbe' : ¬ x.mcd.tiers.BestEffort := by
    unfold Tiers.BestEffort
    rw [hcfg]
    exact hbe
  have hfit : x.mcd.tiers.Fits := fits_of_capped hm (by rw [hcfg]; exact hmax) hx hneg
  have hkeep := hx.op hbe' hfit (guest_op hx.counted.headersOwned hguest hop)
  rw [ht]
  exact ⟨hkeep.1, hkeep.2.trans hcfg⟩

theorem run_cap (hm : m ≠ 0) (hmax : y.mcd.tiers.cfg.maxMemBytes = memsizeBytes m)
    (hbe : ¬ y.mcd.tiers.BestEffort) (hy : y.mcd.tiers.Capped) (h : Run (Call.Within m) y l z) :
    z.mcd.totUsedBytes ≤ z.mcd.maxMemBytes ∧ z.mcd.maxMemBytes = memsizeBytes m := by
  obtain ⟨hz, hcfg⟩ := run_capped hm hmax hbe hy h
  have hend : z.mcd.tiers.cfg.maxMemBytes = memsizeBytes m := by rw [hcfg]; exact hmax
  exact ⟨cap_of_capped hz, hend⟩

theorem entries_dom_of_none {s : State} (h : s.privateEntries = []) (d : Domid) :
    s.tiers.entries (.dom d) = [] := by
  show s.entries (.dom d) = []
  cases hd : findMcdDom d s with
  | none => simp [State.entries, hd]
  | some r =>
    rw [entries_of_find hd]
    exact List.flatMap_eq_nil_iff.mp h r (List.mem_of_find?_eq_some hd)

theorem entries_bucket_of_none {s : State} (h : s.sharedEntries = []) (i : Bucket) :
    s.tiers.entries (.bucket i) = [] :=
  List.flatMap_eq_nil_iff.mp h i (List.mem_finRange i)

/-- What `set_memsize` establishes, if its reclaim does its work. -/
theorem memsize_capped (hc : y.mcd.tiers.Counted) (hm : m ≠ 0) (hfit : y.mcd.tiers.Fits)
    (hfree : ∀ bytes w rc t amount, bytes = memsizeBytes m →
      w = { y.mcd with maxMemBytes := bytes } → Returns (freeExcess (y.ctx env)) w rc t →
      Returns (cacheFree (y.ctx env) amount 0) w rc t →
      Clears (y.ctx env) w.tiers.Current w.tiers t.tiers amount.toNat ∨ t.tiers.heldBytes = 0)
    (h : y.call ⟨env, .memsize m⟩ = .ok (r, z)) :
    z.mcd.tiers.Capped ∧
      z.mcd.tiers.cfg = { y.mcd.tiers.cfg with maxMemBytes := memsizeBytes m } := by
  obtain ⟨rc, u, hrun, hz⟩ := call_memsize h
  rw [hz]
  exact limit_capped hc (memsizeBytes_ne_zero hm) hfit
    (fun w amount hw hcall => hfree _ w rc u amount rfl hw (by rw [hw]; exact hrun) hcall) hrun

/-- In shared mode without private entries the limit holds from `set_memsize` on. -/
theorem shared_cap (hreach : Run Call.Fresh .start l₀ y) (hmode : y.mcd.cacheMode = .shared)
    (hnone : y.mcd.privateEntries = []) (hm : m ≠ 0) (hfit : y.mcd.tiers.Fits)
    (hset : y.call ⟨env, .memsize m⟩ = .ok (r, y₁)) (hrun : Run (Call.Within m) y₁ l z) :
    z.mcd.totUsedBytes ≤ z.mcd.maxMemBytes ∧ z.mcd.maxMemBytes = memsizeBytes m := by
  have hc := run_counted hreach
  obtain ⟨hcap, hcfg⟩ := memsize_capped hc hm hfit (fun bytes w rc t amount _ hw _ hcall => by
    refine cacheFree_shared ?_ ?_ hcall
    · rw [hw]
      exact hmode
    · intro d
      rw [hw]
      exact entries_dom_of_none hnone d) hset
  have hmax : y₁.mcd.tiers.cfg.maxMemBytes = memsizeBytes m := by rw [hcfg]
  have hbe : ¬ y₁.mcd.tiers.BestEffort := by
    rintro ⟨hpart, -⟩
    rw [hcfg] at hpart
    exact CacheMode.noConfusion (hmode.symm.trans hpart)
  exact run_cap hm hmax hbe hcap hrun

/-- Guest operations that fill the cache and empty it again. -/
def cappedCalls : List Call :=
  [⟨.calm, .put 1 (.single 1) (.single 7)⟩, ⟨.calm, .check 1 (.single 2)⟩,
    ⟨.calm, .get 1 (.single 1) 8⟩, ⟨.calm, .remove 1 (.single 1)⟩, ⟨.calm, .flush 1⟩]

theorem shared_cap_five : ∃ r y₁ l z, System.oneGuest.call ⟨.calm, .memsize 5⟩ = .ok (r, y₁) ∧
    Run (Call.Within 5) y₁ l z ∧ l.map (·.1) = cappedCalls ∧
    z.mcd.totUsedBytes ≤ z.mcd.maxMemBytes ∧ z.mcd.maxMemBytes = memsizeBytes 5 := by
  have hstart : System.start.runs Call.Fresh [⟨.calm, .create 1⟩, ⟨.calm, .enable⟩] := by
    decide +kernel
  have hstate : System.oneGuest.mcd.cacheMode = .shared ∧ System.oneGuest.mcd.privateEntries = [] ∧
      System.oneGuest.mcd.tiers.Fits := by decide +kernel
  have hcalls : (System.oneGuest.replies [⟨.calm, .memsize 5⟩]).isSome ∧
      (System.oneGuest.after [⟨.calm, .memsize 5⟩]).runs (Call.Within 5) cappedCalls := by
    decide +kernel
  have hreach : ∃ l₀, l₀.map (·.1) = _ ∧ Run Call.Fresh .start l₀ System.oneGuest :=
    run_of_runs hstart
  obtain ⟨l₀, -, hreach⟩ := hreach
  obtain ⟨r, hset⟩ := call_after hcalls.1
  obtain ⟨l, hl, hrun⟩ := run_of_runs hcalls.2
  exact ⟨r, _, l, _, hset, hrun, hl,
    shared_cap hreach hstate.1 hstate.2.1 (by decide) hstate.2.2 hset hrun⟩

/-- The reclaim inside a `set_memsize` reports success. -/
def System.Reclaims (y : System) (env : Env) (m : Int32) : Prop :=
  ∀ rc t, Returns (freeExcess (y.ctx env)) { y.mcd with maxMemBytes := memsizeBytes m } rc t →
    rc = .errNo

end

/-- A partition of the given kind, with dom0's record first as it is at boot. -/
def partitionCalls (mode : UInt32) : List Call :=
  [⟨.calm, .create 0⟩, ⟨.calm, .create 1⟩, ⟨.calm, .cacheMode 2 mode⟩]

def GuestVal.zeros (n : UInt32) : GuestVal := ⟨n, List.replicate n.toNat 0, List.length_replicate⟩

/-- A value of a megabyte, put in partition mode: under best effort, and under the adaptive
routine with dom0 first in the list. -/
def overfullCalls : List (List Call) :=
  [[⟨.calm, .create 1⟩, ⟨.calm, .cacheMode 0 1⟩, ⟨.calm, .put 1 (.single 1) (.zeros 1000000)⟩],
    partitionCalls 2 ++ [⟨.calm, .put 1 (.single 1) (.zeros 1000000)⟩]]

end UniCache.Mcd
