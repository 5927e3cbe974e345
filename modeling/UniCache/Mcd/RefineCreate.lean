import UniCache.Mcd.RefinePartition

/-! Allocation and page-in over the tiers: removals to make room, then a charge. -/
namespace UniCache.Mcd
open Base.Exec

/-- The bytes of a list of removed entries. -/
def removedBytes (l : List (Loc × McdHashT)) : Nat := (l.map fun x => x.2.nrBytes.toNat).sum

/-- From `s` to `t` entries of the lists in `P` were removed, at least `k` bytes in all. -/
def Clears (c : Ctx) (P : Loc → Prop) (s t : Tiers) (k : Nat) : Prop :=
  ∃ l, Removals c s l t ∧ (∀ x ∈ l, P x.1) ∧ k ≤ removedBytes l

theorem sum_bytes_toNat_le (l : List (Loc × McdHashT)) :
    (l.map fun x : Loc × McdHashT => x.2.bytes).sum.toNat ≤ removedBytes l := by
  induction l with
  | nil => simp [removedBytes]
  | cons x l ih =>
    have hx : x.2.bytes.toNat = x.2.nrBytes.toNat := by simp [McdHashT.bytes]
    simp only [removedBytes, List.map_cons, List.sum_cons, UInt64.toNat_add] at ih ⊢
    have hmod := Nat.mod_le
      (x.2.bytes.toNat + (l.map fun x : Loc × McdHashT => x.2.bytes).sum.toNat) (2 ^ 64)
    omega

theorem Freed.clears {c : Ctx} {P : Loc → Prop} {s t : State} {n : UInt64}
    (h : Freed c P s t n) : Clears c P s.tiers t.tiers n.toNat := by
  obtain ⟨l, hl, hP, rfl⟩ := h
  exact ⟨l, hl, hP, sum_bytes_toNat_le l⟩

section
variable {c : Ctx} {P : Loc → Prop} {s t u : Tiers} {j k : Nat}

theorem Clears.mono (h : Clears c P s t k) (hjk : j ≤ k) : Clears c P s t j := by
  obtain ⟨l, hl, hP, hk⟩ := h
  exact ⟨l, hl, hP, hjk.trans hk⟩

theorem Clears.trans (h₁ : Clears c P s t j) (h₂ : Clears c P t u k) :
    Clears c P s u (j + k) := by
  obtain ⟨l, hl, hPl, hj⟩ := h₁
  obtain ⟨m, hm, hPm, hk⟩ := h₂
  refine ⟨l ++ m, hl.append hm, ?_, ?_⟩
  · intro x hx
    rcases List.mem_append.mp hx with hx | hx
    · exact hPl x hx
    · exact hPm x hx
  · have hsum : removedBytes (l ++ m) = removedBytes l + removedBytes m := by
      simp [removedBytes]
    omega

theorem Clears.imp {Q : Loc → Prop} (h : Clears c P s t k) (hPQ : ∀ loc, P loc → Q loc) :
    Clears c Q s t k := by
  obtain ⟨l, hl, hP, hk⟩ := h
  exact ⟨l, hl, fun x hx => hPQ x.1 (hP x hx), hk⟩

theorem clears_refl (t : Tiers) : Clears c P t t 0 := ⟨[], .nil t, by simp, Nat.zero_le _⟩

end

theorem quiet_allocateIf (c : Ctx) (rc : Rc) : Quiet (allocateIf c rc) :=
  quiet_ite (quiet_xmalloc c) (quiet_pure _)

theorem Removals.cfg_eq {c : Ctx} {t u : Tiers} {l : List (Loc × McdHashT)}
    (h : Removals c t l u) : u.cfg = t.cfg :=
  h.induct (I := fun v => v.cfg = t.cfg) (fun hr hv => hr.cfg_eq.trans hv) rfl

theorem Removals.live_eq {c : Ctx} {t u : Tiers} {l : List (Loc × McdHashT)}
    (h : Removals c t l u) : u.live = t.live :=
  h.induct (I := fun v => v.live = t.live) (fun hr hv => by cases hr <;> exact hv) rfl

theorem Clears.cfg_eq {c : Ctx} {P : Loc → Prop} {s t : Tiers} {k : Nat}
    (h : Clears c P s t k) : t.cfg = s.cfg := by
  obtain ⟨l, hl, -, -⟩ := h
  exact hl.cfg_eq

theorem Clears.live_eq {c : Ctx} {P : Loc → Prop} {s t : Tiers} {k : Nat}
    (h : Clears c P s t k) : t.live = s.live := by
  obtain ⟨l, hl, -, -⟩ := h
  exact hl.live_eq

/-- The lists of the current mode. -/
def Tiers.Current (t : Tiers) (loc : Loc) : Prop := loc.mode = t.cfg.cacheMode

/-- A reclaim that reports success has removed the amount, best effort apart. -/
theorem cacheFree_clears {c : Ctx} {amount : UInt64} {id : Domid} {rc : Rc} {s t : State}
    (h : Returns (cacheFree c amount id) s rc t) :
    Clears c s.tiers.Current s.tiers t.tiers 0 ∧
      (rc = .errNo → s.tiers.BestEffort ∨
        Clears c s.tiers.Current s.tiers t.tiers amount.toNat) := by
  obtain ⟨n, hf, hrep⟩ := cacheFree_spec h
  refine ⟨hf.clears.mono (Nat.zero_le _), fun hrc => ?_⟩
  rcases hrep with ⟨hm, hp, -, -⟩ | ⟨-, hle⟩ | ⟨hno, -⟩
  · exact .inl ⟨hm, hp⟩
  · exact .inr (hf.clears.mono (UInt64.le_iff_toNat_le.mp hle))
  · rw [hrc] at hno
    exact Rc.noConfusion hno

theorem ite_le_cap (x m : UInt64) : (if x ≤ m then x else m) ≤ m := by
  by_cases h : x ≤ m
  · rw [if_pos h]; exact h
  · rw [if_neg h]; exact UInt64.le_refl m

/-- `getTotMemSize` never exceeds a limit that is set. -/
theorem getTotMemSize_spec {c : Ctx} {s t : State} {m : UInt64}
    (h : Returns (getTotMemSize c) s m t) :
    t.tiers = s.tiers ∧ (s.tiers.cfg.maxMemBytes ≠ 0 → m ≤ s.tiers.cfg.maxMemBytes) := by
  have hq := quiet_getTotMemSize c s m t h
  refine ⟨hq, fun hmax => ?_⟩
  simp only [getTotMemSize, getFreeSysMem, returns_bind, returns_reading, returns_get, returns_pure,
    and_assoc, exists_and_left, exists_eq_left] at h
  obtain ⟨rfl, -⟩ := h
  have hcap : s.tiers.cfg.maxMemBytes = s.bump.maxMemBytes := rfl
  rw [hcap] at hmax ⊢
  rw [if_neg hmax]
  exact ite_le_cap _ _

/-- Why an allocation of `size` bytes was granted: best effort, a total that stays below the
limit, or enough bytes removed. -/
def Granted (c : Ctx) (s t : Tiers) (size : UInt64) : Prop :=
  s.BestEffort ∨
    (s.cfg.maxMemBytes ≠ 0 → s.totUsedBytes + size + safetyBytes < s.cfg.maxMemBytes) ∨
    Clears c s.Current s t (size + safetyBytes).toNat

theorem firstTrial_spec {c : Ctx} {size m : UInt64} {id : Domid} {rc : Rc} {s t : State}
    (h : Returns (firstTrial c size m id) s rc t)
    (hm : s.tiers.cfg.maxMemBytes ≠ 0 → m ≤ s.tiers.cfg.maxMemBytes) :
    Clears c s.tiers.Current s.tiers t.tiers 0 ∧
      (rc = .errNo → Granted c s.tiers t.tiers size) := by
  simp only [firstTrial, returns_bind, returns_get, and_assoc, exists_and_left,
    exists_eq_left] at h
  by_cases hfull : s.totUsedBytes + size + safetyBytes ≥ m
  · rw [if_pos hfull] at h
    obtain ⟨hcl, hok⟩ := cacheFree_clears h
    refine ⟨hcl, fun hrc => ?_⟩
    rcases hok hrc with hbe | henough
    · exact .inl hbe
    · exact .inr (.inr henough)
  · rw [if_neg hfull] at h
    obtain ⟨rfl, rfl⟩ := returns_pure.mp h
    refine ⟨clears_refl _, fun _ => .inr (.inl fun hmax => ?_)⟩
    exact UInt64.lt_of_lt_of_le (UInt64.not_le.mp hfull) (hm hmax)

/-- `mcd_malloc` removes entries of the current mode, and grants a request only with reason. -/
theorem mcdMalloc_spec {c : Ctx} {size : UInt64} {id : Domid} {r : Option Nat} {s t : State}
    (h : Returns (mcdMalloc c size id) s r t) :
    Clears c s.tiers.Current s.tiers t.tiers 0 ∧
      (r.isSome → Granted c s.tiers t.tiers size) := by
  obtain ⟨m, s₁, hsize, h⟩ := returns_bind.mp h
  obtain ⟨hq, hm⟩ := getTotMemSize_spec hsize
  rw [← hq] at hm ⊢
  by_cases hz : size = 0
  · rw [if_pos hz] at h
    obtain ⟨rfl, rfl⟩ := returns_pure.mp h
    exact ⟨clears_refl _, fun h => by simp at h⟩
  · rw [if_neg hz] at h
    obtain ⟨rc, s₂, hfirst, h⟩ := returns_bind.mp h
    obtain ⟨val, s₃, halloc, h⟩ := returns_bind.mp h
    obtain ⟨hcl, hgrant⟩ := firstTrial_spec hfirst hm
    have hq₃ := quiet_allocateIf c rc s₂ val s₃ halloc
    rw [← hq₃] at hcl hgrant
    cases val with
    | some p =>
      obtain ⟨rfl, rfl⟩ := returns_pure.mp h
      refine ⟨hcl, fun _ => hgrant ?_⟩
      -- a pointer comes only from a first trial that succeeded
      by_contra hrc
      rw [allocateIf, if_neg hrc] at halloc
      have hnone := (returns_pure.mp halloc).1
      simp at hnone
    | none =>
      obtain ⟨rc₂, s₄, hfree, halloc₂⟩ := returns_bind.mp h
      have hq₄ := quiet_allocateIf c rc₂ s₄ r t halloc₂
      obtain ⟨hcl₂, hok⟩ := cacheFree_clears hfree
      have hcur : s₃.tiers.Current = s₁.tiers.Current := by
        unfold Tiers.Current
        rw [hcl.cfg_eq]
      rw [hcur, ← hq₄] at hcl₂ hok
      refine ⟨hcl.trans hcl₂, fun hr => ?_⟩
      have hrc : rc₂ = .errNo := by
        by_contra hrc
        rw [allocateIf, if_neg hrc] at halloc₂
        rw [(returns_pure.mp halloc₂).1] at hr
        simp at hr
      rcases hok hrc with hbe | henough
      · refine .inl ?_
        unfold Tiers.BestEffort at hbe ⊢
        rwa [hcl.cfg_eq] at hbe
      · exact .inr (.inr (by simpa using hcl.trans henough))

/-- The steps that account for a new entry. -/
theorem tiers_charge {s : State} {id : Domid} {m : CacheMode} {mh : McdHashT}
    (hp : (findMcdDom id s).isSome) :
    ((s.chargeData mh m).modifyDom id (·.charge mh)).tiers = s.tiers.charge id m mh := by
  have hp' : (findMcdDom id (s.chargeData mh m)).isSome := hp
  have h := tiers_modifyDom (fieldMap_charge mh) hp'
  simp only [id_eq, Function.update_eq_self] at h
  exact h

/-- What `create_mcd_hashT` leaves when it has memory for the entry: two readings, and the entry
accounted for. -/
def State.accounted (s : State) (id : Domid) (mh : McdHashT) : State :=
  ({ s.bump.bump with sd := s.sd.noteVal mh.valSize }.chargeData mh s.cacheMode).modifyDom id
    (·.charge mh)

section
variable {c : Ctx} {id : Domid} {ks vs : UInt32} {s s₁ t : State}

/-- The part of `create_mcd_hashT` after its allocation. -/
theorem returns_createMcdHashT {addr : Nat} {r : Option McdHashT}
    (hmalloc : Returns (mcdMalloc c (entrySize ks vs) id) s (some addr) s₁) :
    Returns (createMcdHashT c id ks vs) s r t ↔ (findMcdDom id s₁).isSome ∧
      ∃ mh, mh = freshHashT addr id ks vs (c.now s₁.tick) (c.stale (s₁.tick + 1)) ∧
        r = some mh ∧ t = s₁.accounted id mh := by
  constructor
  · intro h
    obtain ⟨val, s₂, hval, h⟩ := returns_bind.mp h
    obtain ⟨rfl, rfl⟩ := returns_unique hval hmalloc
    simp only [readNow, returns_bind, returns_reading, returns_modify, returns_domOf, returns_pure,
      and_assoc, exists_and_left, exists_eq_left, exists_const] at h
    obtain ⟨d, hd, rfl, rfl⟩ := h
    have hfind : findMcdDom id s₂ = some d := hd
    exact ⟨by rw [hfind]; rfl, _, rfl, rfl, rfl⟩
  · rintro ⟨hsome, mh, rfl, rfl, rfl⟩
    obtain ⟨d, hd⟩ := Option.isSome_iff_exists.mp hsome
    refine returns_bind.mpr ⟨some addr, s₁, hmalloc, ?_⟩
    simp only [readNow, returns_bind, returns_reading, returns_modify, returns_domOf, returns_pure,
      and_assoc, exists_and_left, exists_eq_left, exists_const]
    exact ⟨d, hd, rfl, rfl⟩

theorem tiers_accounted {mh : McdHashT} (hsome : (findMcdDom id s).isSome) :
    (s.accounted id mh).tiers = s.tiers.charge id s.cacheMode mh :=
  tiers_charge (s := { s.bump.bump with sd := s.sd.noteVal mh.valSize }) hsome

theorem isSome_accounted {mh : McdHashT} (hsome : (findMcdDom id s).isSome) :
    (findMcdDom id (s.accounted id mh)).isSome := by
  have hhas : s.Has (.dom id) := hsome
  exact has_modifyDom (fieldMap_charge mh).domid id hhas

end

/-- `create_mcd_hashT`: entries may be removed, and on success the new one is accounted for. -/
theorem createMcdHashT_spec {c : Ctx} {id : Domid} {ks vs : UInt32} {r : Option McdHashT}
    {s t : State} (h : Returns (createMcdHashT c id ks vs) s r t) :
    (r = none ∧ Clears c s.tiers.Current s.tiers t.tiers 0) ∨
      ∃ u addr now stale, r = some (freshHashT addr id ks vs now stale) ∧
        Clears c s.tiers.Current s.tiers u 0 ∧ Granted c s.tiers u (entrySize ks vs) ∧
        id ∈ s.tiers.live ∧ (findMcdDom id t).isSome ∧
        t.tiers = u.charge id s.tiers.cfg.cacheMode (freshHashT addr id ks vs now stale) := by
  obtain ⟨val, s₁, hmalloc, hrest⟩ := returns_bind.mp h
  obtain ⟨hcl, hgrant⟩ := mcdMalloc_spec hmalloc
  cases val with
  | none =>
    obtain ⟨rfl, rfl⟩ := returns_pure.mp hrest
    exact .inl ⟨rfl, hcl⟩
  | some addr =>
    obtain ⟨hsome, mh, rfl, rfl, rfl⟩ := (returns_createMcdHashT hmalloc).mp h
    have hmode : s₁.cacheMode = s.tiers.cfg.cacheMode := congrArg Config.cacheMode hcl.cfg_eq
    refine .inr ⟨s₁.tiers, addr, _, _, rfl, hcl, hgrant rfl, ?_, isSome_accounted hsome, ?_⟩
    · rw [← hcl.live_eq]
      exact isSome_findMcdDom.mp hsome
    · rw [← hmode]
      exact tiers_accounted hsome

end UniCache.Mcd
