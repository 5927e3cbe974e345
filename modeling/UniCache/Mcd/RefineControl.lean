import UniCache.Mcd.RefineFlush
import UniCache.Mcd.RefineGuest

/-! The control operations over the tiers, and what a hypercall leaves there. -/
namespace UniCache.Mcd
open Base.Exec

/-- A pass over the records that leaves a field alone. -/
theorem map_find_mapDomains {f : McdDomain → McdDomain} (hf : ∀ d, (f d).domid = d.domid) {β : Type}
    {g : McdDomain → β} (hg : ∀ d, g (f d) = g d) (s : State) (d : Domid) :
    (findMcdDom d { s with domains := s.domains.map f }).map g = (findMcdDom d s).map g := by
  have hp : ((fun x : McdDomain => decide (x.domid = d)) ∘ f) = fun x => decide (x.domid = d) := by
    funext x
    simp [hf]
  have hfg : g ∘ f = g := funext hg
  unfold findMcdDom
  rw [List.find?_map, hp, Option.map_map, hfg]

theorem tiers_mapDomains_soft {f : McdDomain → McdDomain} (hf : Soft f) (s : State) :
    ({ s with domains := s.domains.map f } : State).tiers = s.tiers := by
  have hmap : ∀ {β : Type} {g : McdDomain → β}, (∀ d, g (f d) = g d) → ∀ d,
      (findMcdDom d { s with domains := s.domains.map f }).map g = (findMcdDom d s).map g :=
    fun hg => map_find_mapDomains hf.domid hg s
  ext1
  case live =>
    show (s.domains.map f).map (·.domid) = s.domains.map (·.domid)
    rw [List.map_map]
    exact List.map_congr_left fun d _ => hf.domid d
  case entries =>
    funext loc
    cases loc with
    | bucket i => rfl
    | dom d => simp only [State.tiers, entries_dom, hmap hf.hashList]
  case headers =>
    funext loc
    cases loc with
    | bucket i => rfl
    | dom d => simp only [State.tiers, headers_dom, hmap hf.mcdctlList]
  case usedPages =>
    funext d
    simp only [State.tiers, hmap hf.nrUsedPages]
  case usedBytes =>
    funext d
    simp only [State.tiers, hmap hf.nrUsedBytes]
  all_goals rfl

theorem soft_ratio (g : McdDomain → UInt32) : Soft fun d => { d with ratio := g d } :=
  ⟨fun _ => rfl, fun _ => rfl, fun _ => rfl, fun _ => rfl, fun _ => rfl⟩

theorem soft_weight (w : UInt32) : Soft fun d => { d with weight := w } :=
  ⟨fun _ => rfl, fun _ => rfl, fun _ => rfl, fun _ => rfl, fun _ => rfl⟩

theorem tiers_domWeightUpdate (s : State) : s.domWeightUpdate.tiers = s.tiers := by
  unfold State.domWeightUpdate
  by_cases hw : s.totalWeight ≤ 0
  · rw [if_pos hw]
    rfl
  · rw [if_neg hw]
    exact tiers_mapDomains_soft (soft_ratio _) s

theorem tiers_ite_domWeightUpdate (p : Prop) [Decidable p] (s : State) :
    (if p then s.domWeightUpdate else s).tiers = s.tiers := by
  by_cases hp : p
  · rw [if_pos hp, tiers_domWeightUpdate]
  · rw [if_neg hp]

theorem setWeight_spec {id : Domid} {w : UInt32} {r : Reply} {s t : State}
    (h : Returns (setWeight id w) s r t) : t.tiers = s.tiers := by
  simp only [setWeight, returns_bind, returns_domOf, returns_modify, returns_pure, and_assoc,
    exists_and_left, exists_eq_left, exists_const] at h
  obtain ⟨d, -, -, rfl⟩ := h
  rw [tiers_domWeightUpdate]
  exact tiers_modifyDom_soft (soft_weight w) id _

/-- `set_memsize` sets the limit and reclaims; the rest does not show. -/
theorem setMemsize_spec {c : Ctx} {m : Int32} {r : Reply} {s t : State}
    (h : Returns (setMemsize c m) s r t) :
    ∃ rc u, Returns (freeExcess c) { s with maxMemBytes := memsizeBytes m } rc u ∧
      t.tiers = u.tiers := by
  simp only [setMemsize, returns_bind, returns_modify, returns_get, returns_pure, and_assoc,
    exists_and_left, exists_eq_left, exists_const] at h
  obtain ⟨rc, u, hfree, _, s₂, husage, -, rfl⟩ := h
  exact ⟨rc, u, hfree, quiet_domUsageUpdateAll c u.domains _ _ _ husage⟩

/-- The reclaim of `set_memsize`, if the total is above the limit. -/
theorem freeExcess_spec {c : Ctx} {rc : Rc} {s t : State} (h : Returns (freeExcess c) s rc t) :
    (s.maxMemBytes ≠ 0 ∧ s.totUsedBytes > s.maxMemBytes ∧
      Returns (cacheFree c (s.totUsedBytes - s.maxMemBytes) 0) s rc t) ∨
    (¬ (s.maxMemBytes ≠ 0 ∧ s.totUsedBytes > s.maxMemBytes) ∧ t = s) := by
  simp only [freeExcess, returns_bind, returns_get, and_assoc, exists_and_left,
    exists_eq_left] at h
  by_cases hover : s.maxMemBytes ≠ 0 ∧ s.totUsedBytes > s.maxMemBytes
  · rw [if_pos hover] at h
    exact .inl ⟨hover.1, hover.2, h⟩
  · rw [if_neg hover] at h
    exact .inr ⟨hover, (returns_pure.mp h).2⟩

/-- The flush of a cache mode, as `set_cache_mode` and `set_param` make it. -/
def Flushes (c : Ctx) (s t : State) : CacheMode → Prop
  | .shared => ∃ r, Returns (sMcdFlush c) s r t
  | .partition => Returns (pMcdFlushAll c s.domids) s () t

/-- The lists that the flush of a mode leaves alone. -/
def CacheMode.Spares : CacheMode → Loc → Prop
  | .shared, .bucket _ => False
  | .shared, .dom _ => True
  | .partition, .bucket _ => True
  | .partition, .dom d => d = 0

/-- A domain without a record has no lists. -/
theorem lists_of_unlisted {s : State} {d : Domid} (hd : d ∉ s.domids) :
    s.entries (.dom d) = [] ∧ s.headers (.dom d) = [] := by
  have hno : ¬ (findMcdDom d s).isSome := fun hsome => hd (isSome_findMcdDom.mp hsome)
  have hnone : findMcdDom d s = none := by simpa using hno
  rw [entries_dom, headers_dom, hnone]
  exact ⟨rfl, rfl⟩

/-- What a flush does not leave alone is empty after it. -/
theorem Flushes.emptied {c : Ctx} {s t : State} {m : CacheMode} (h : Flushes c s t m) {loc : Loc}
    (hloc : ¬ m.Spares loc) : t.entries loc = [] ∧ t.headers loc = [] := by
  cases m with
  | shared =>
    cases loc with
    | bucket i =>
      obtain ⟨r, h⟩ := h
      obtain ⟨-, u, st, -, hall, -, ht⟩ := sMcdFlush_spec h
      have hent : t.entries (.bucket i) = u.entries (.bucket i) :=
        congrFun (congrArg Tiers.entries ht) (.bucket i)
      have hhead : t.headers (.bucket i) = [] := congrFun (congrArg Tiers.headers ht) (.bucket i)
      exact ⟨hent.trans (hall i), hhead⟩
    | dom d => exact absurd trivial hloc
  | partition =>
    cases loc with
    | bucket i => exact absurd trivial hloc
    | dom d =>
      obtain ⟨hgone, hkept⟩ := pMcdFlushAll_emptied h (.dom d)
      by_cases hd : d ∈ s.domids
      · exact hgone ⟨d, hd, hloc, rfl⟩
      · have hnot : ¬ (Loc.dom d).GuestIn s.domids := by
          rintro ⟨e, he, -, hde⟩
          exact hd (Loc.dom.inj hde ▸ he)
        obtain ⟨hent, hhead⟩ := hkept hnot
        rw [hent, hhead]
        exact lists_of_unlisted hd

/-- The mode `set_cache_mode` sets. -/
def State.targetMode (s : State) (which mode : UInt32) : CacheMode :=
  if which = 0 then if mode = 1 then .partition else .shared
  else if which = 2 then if mode = 1 ∨ mode = 2 then .partition else .shared
  else s.cacheMode

theorem CacheMode.eq_partition {m : CacheMode} (h : m ≠ .shared) : m = .partition := by
  cases m with
  | shared => exact absurd rfl h
  | partition => rfl

theorem CacheMode.eq_shared {m : CacheMode} (h : m ≠ .partition) : m = .shared := by
  cases m with
  | shared => rfl
  | partition => exact absurd rfl h

theorem switchCacheMode_inv {c : Ctx} {m : CacheMode} {u : Unit} {s t : State}
    (h : Returns (switchCacheMode c m) s u t) :
    (m = s.cacheMode ∧ t = { s with cacheMode := m }) ∨
      (m ≠ s.cacheMode ∧ Flushes c { s with cacheMode := m } t s.cacheMode) := by
  simp only [switchCacheMode, returns_bind, returns_get, returns_set, and_assoc, exists_and_left,
    exists_eq_left, exists_const] at h
  by_cases hsame : s.cacheMode = m
  · rw [if_pos hsame] at h
    exact .inl ⟨hsame.symm, (returns_pure.mp h).2⟩
  · rw [if_neg hsame] at h
    refine .inr ⟨fun hm => hsame hm.symm, ?_⟩
    cases m with
    | shared =>
      rw [CacheMode.eq_partition hsame]
      exact h
    | partition =>
      obtain ⟨r, s₁, hflush, h⟩ := returns_bind.mp h
      rw [CacheMode.eq_shared hsame, (returns_pure.mp h).2]
      exact ⟨r, hflush⟩

/-- `set_cache_mode` changes settings, and when the cache mode is among them it flushes the mode it
leaves. -/
theorem setCacheMode_inv {c : Ctx} {which mode : UInt32} {r : Reply} {s t : State}
    (h : Returns (setCacheMode c which mode) s r t) :
    ∃ rm pm w, w = { s with
        cacheMode := s.targetMode which mode, replacementMode := rm, partitionMode := pm } ∧
      ((s.targetMode which mode = s.cacheMode ∧ t = w) ∨
        (s.targetMode which mode ≠ s.cacheMode ∧ Flushes c w t s.cacheMode)) := by
  obtain ⟨_, s₁, h, hr⟩ := returns_bind.mp h
  obtain ⟨-, rfl⟩ := returns_pure.mp hr
  unfold applyCacheMode at h
  by_cases h₀ : which = 0
  · rw [if_pos h₀] at h
    have htarget : s.targetMode which mode = if mode = 1 then .partition else .shared := if_pos h₀
    rw [← htarget] at h
    exact ⟨s.replacementMode, s.partitionMode, _, rfl, switchCacheMode_inv h⟩
  rw [if_neg h₀] at h
  by_cases h₁ : which = 1
  · rw [if_pos h₁] at h
    have htarget : s.targetMode which mode = s.cacheMode := by
      rw [h₁]
      rfl
    rw [htarget]
    exact ⟨_, s.partitionMode, _, rfl, .inl ⟨rfl, returns_modify.mp h⟩⟩
  rw [if_neg h₁] at h
  by_cases h₂ : which = 2
  · rw [if_pos h₂] at h
    obtain ⟨_, s₂, hpm, h⟩ := returns_bind.mp h
    rw [returns_modify.mp hpm] at h
    have htarget : s.targetMode which mode = if (if mode = 1 then PartitionMode.wb else
        if mode = 2 then .ad else .be) = .be then .shared else .partition := by
      unfold State.targetMode
      rw [if_neg h₀, if_pos h₂]
      by_cases hwb : mode = 1
      · simp [hwb]
      · by_cases had : mode = 2 <;> simp [hwb, had]
    rw [← htarget] at h
    have hswitch := switchCacheMode_inv h
    exact ⟨s.replacementMode, _, _, rfl, hswitch⟩
  · rw [if_neg h₂] at h
    have htarget : s.targetMode which mode = s.cacheMode := by
      unfold State.targetMode
      rw [if_neg h₀, if_neg h₂]
    rw [htarget]
    exact ⟨s.replacementMode, s.partitionMode, _, rfl, .inl ⟨rfl, (returns_pure.mp h).2⟩⟩

theorem flushAll_inv {c : Ctx} {u : Unit} {s t : State} (h : Returns (flushAll c) s u t) :
    Flushes c s t s.cacheMode := by
  simp only [flushAll, returns_bind, returns_get, and_assoc, exists_and_left, exists_eq_left] at h
  cases hm : s.cacheMode with
  | shared =>
    rw [hm] at h
    obtain ⟨r, s₁, hflush, h⟩ := returns_bind.mp h
    rw [(returns_pure.mp h).2]
    exact ⟨r, hflush⟩
  | partition =>
    rw [hm] at h
    exact h

/-- `set_param` flushes the current mode, or changes a setting. -/
theorem setParam_inv {c : Ctx} {which mode param : UInt32} {r : Reply} {s t : State}
    (h : Returns (setParam c which mode param) s r t) :
    ((which = 25 ∧ param = 1) ∧ Flushes c s t s.cacheMode) ∨
      (¬ (which = 25 ∧ param = 1) ∧ ∃ alpha beta user tick, t = { s with
        sd := { s.sd with alpha := alpha, beta := beta }
        mcdctlUserEnabled := user
        tick := tick }) := by
  unfold setParam at h
  have hzero : ∀ {q : UInt32}, which = 0 ∧ mode = q → ¬ (which = 25 ∧ param = 1) := by
    rintro q ⟨h₀, -⟩ ⟨h₂₅, -⟩
    rw [h₀] at h₂₅
    exact absurd h₂₅ (by decide)
  by_cases halpha : which = 0 ∧ mode = 0
  · rw [if_pos halpha] at h
    obtain ⟨_, s₁, hset, h⟩ := returns_bind.mp h
    rw [(returns_pure.mp h).2, returns_modify.mp hset]
    exact .inr ⟨hzero halpha, _, _, _, _, rfl⟩
  rw [if_neg halpha] at h
  by_cases hbeta : which = 0 ∧ mode = 1
  · rw [if_pos hbeta] at h
    obtain ⟨_, s₁, hset, h⟩ := returns_bind.mp h
    rw [(returns_pure.mp h).2, returns_modify.mp hset]
    exact .inr ⟨hzero hbeta, _, _, _, _, rfl⟩
  rw [if_neg hbeta] at h
  by_cases hflush : which = 25 ∧ param = 1
  · rw [if_pos hflush] at h
    obtain ⟨_, s₁, hall, h⟩ := returns_bind.mp h
    rw [(returns_pure.mp h).2]
    exact .inl ⟨hflush, flushAll_inv hall⟩
  rw [if_neg hflush] at h
  refine .inr ⟨hflush, ?_⟩
  by_cases huser : which = 25 ∧ param = 2
  · rw [if_pos huser] at h
    obtain ⟨_, s₁, hset, h⟩ := returns_bind.mp h
    rw [(returns_pure.mp h).2, returns_modify.mp hset]
    exact ⟨_, _, _, _, rfl⟩
  rw [if_neg huser] at h
  by_cases hpage : which = 25 ∧ param = 3
  · rw [if_pos hpage] at h
    obtain ⟨rc, s₁, hinc, h⟩ := returns_bind.mp h
    rw [(returns_pure.mp h).2]
    simp only [increaseSharedPage, returns_bind, returns_get, and_assoc, exists_and_left,
      exists_eq_left] at hinc
    by_cases hon : s.mcdctlEnabled = true
    · rw [if_pos hon] at hinc
      obtain ⟨ok, s₂, hread, hinc⟩ := returns_bind.mp hinc
      rw [(returns_pure.mp hinc).2, (returns_reading.mp hread).2]
      exact ⟨_, _, _, _, rfl⟩
    · rw [if_neg hon] at hinc
      rw [(returns_pure.mp hinc).2]
      exact ⟨_, _, _, _, rfl⟩
  · rw [if_neg hpage] at h
    rw [(returns_pure.mp h).2]
    exact ⟨_, _, _, _, rfl⟩

theorem findMcdDom_enrol {s s' : State} {d : Domid} (hd : d ∉ s.tiers.live)
    (hs' : s'.domains = s.domains ++ [freshDomain d]) (e : Domid) :
    findMcdDom e s' = if e = d then some (freshDomain d) else findMcdDom e s := by
  have hnone : s.domains.find? (·.domid = d) = none := by
    rw [← isSome_findMcdDom] at hd
    simpa [findMcdDom] using hd
  unfold findMcdDom
  rw [hs', List.find?_append]
  by_cases he : e = d
  · rw [if_pos he, he, hnone]
    simp [freshDomain]
  · have hne : d ≠ e := fun h => he h.symm
    rw [if_neg he]
    simp [freshDomain, hne]

/-- A new record shows as one more id. -/
theorem tiers_enrol {s : State} {d : Domid} {w : UInt32} (hd : d ∉ s.tiers.live) :
    ({ s with totalWeight := w, domains := s.domains ++ [freshDomain d] } : State).tiers =
      { s.tiers with live := s.tiers.live ++ [d] } := by
  -- what the new record holds is what a missing one stands for
  have hget : ∀ {β : Type} {g : McdDomain → β} {z : β}, g (freshDomain d) = z → ∀ e,
      ((findMcdDom e { s with totalWeight := w, domains := s.domains ++ [freshDomain d] }).map
        g).getD z = ((findMcdDom e s).map g).getD z := by
    intro β g z hz e
    rw [findMcdDom_enrol hd rfl]
    by_cases he : e = d
    · have hnone : findMcdDom d s = none := by
        rw [← isSome_findMcdDom] at hd
        simpa using hd
      rw [if_pos he, he, hnone]
      exact hz
    · rw [if_neg he]
  ext1
  case live => simp [State.tiers, State.domids, freshDomain]
  case entries =>
    funext loc
    cases loc with
    | bucket i => rfl
    | dom e =>
      simp only [State.tiers, entries_dom]
      exact hget rfl e
  case headers =>
    funext loc
    cases loc with
    | bucket i => rfl
    | dom e =>
      simp only [State.tiers, headers_dom]
      exact hget rfl e
  case usedPages => exact funext (hget rfl)
  case usedBytes => exact funext (hget rfl)
  all_goals rfl

/-- A record goes that holds nothing. -/
def Tiers.retire (t : Tiers) (d : Domid) : Tiers :=
  { t with
    live := t.live.erase d
    usedPages := Function.update t.usedPages d 0
    usedBytes := Function.update t.usedBytes d 0 }

theorem find_eraseP_of_ne {d e : Domid} (he : e ≠ d) (l : List McdDomain) :
    (l.eraseP (·.domid = d)).find? (·.domid = e) = l.find? (·.domid = e) := by
  induction l with
  | nil => rfl
  | cons x l ih =>
    by_cases hx : x.domid = d
    · have hxe : ¬ x.domid = e := fun h => he (h.symm.trans hx)
      rw [List.eraseP_cons_of_pos (by simpa using hx), List.find?_cons_of_neg (by simpa using hxe)]
    · rw [List.eraseP_cons_of_neg (by simpa using hx), List.find?_cons, List.find?_cons, ih]

theorem map_domid_eraseP (d : Domid) (l : List McdDomain) :
    (l.eraseP (·.domid = d)).map (·.domid) = (l.map (·.domid)).erase d := by
  induction l with
  | nil => rfl
  | cons x l ih =>
    by_cases hx : x.domid = d
    · rw [List.eraseP_cons_of_pos (by simpa using hx), List.map_cons, hx, List.erase_cons_head]
    · have hne : ¬ (x.domid == d) = true := by simpa using hx
      rw [List.eraseP_cons_of_neg (by simpa using hx), List.map_cons, List.map_cons,
        List.erase_cons_tail hne, ih]

theorem findMcdDom_retire {s s' : State} {d : Domid} (hnd : s.tiers.live.Nodup)
    (hs' : s'.domains = s.domains.eraseP (·.domid = d)) (e : Domid) :
    findMcdDom e s' = if e = d then none else findMcdDom e s := by
  by_cases he : e = d
  · have hids : s'.tiers.live = s.tiers.live.erase d := by
      show s'.domains.map (·.domid) = _
      rw [hs']
      exact map_domid_eraseP d s.domains
    have hgone : ¬ (findMcdDom d s').isSome := by
      rw [isSome_findMcdDom, hids]
      exact hnd.not_mem_erase
    rw [if_pos he, he]
    simpa using hgone
  · rw [if_neg he]
    unfold findMcdDom
    rw [hs']
    exact find_eraseP_of_ne he s.domains

theorem tiers_retire {s s' : State} {d : Domid} (hnd : s.tiers.live.Nodup)
    (hent : s.tiers.entries (.dom d) = []) (hhead : s.tiers.headers (.dom d) = [])
    (hs' : s' = { s with domains := s.domains.eraseP (·.domid = d) }) :
    s'.tiers = s.tiers.retire d := by
  have hids : s'.tiers.live = s.tiers.live.erase d := by
    rw [hs']
    exact map_domid_eraseP d s.domains
  have hget : ∀ {β : Type} {g : McdDomain → β} {z : β} (e : Domid),
      ((findMcdDom e s').map g).getD z = if e = d then z else ((findMcdDom e s).map g).getD z := by
    intro β g z e
    rw [findMcdDom_retire hnd (by rw [hs'])]
    by_cases he : e = d
    · rw [if_pos he, if_pos he]
      rfl
    · rw [if_neg he, if_neg he]
  ext1
  case live => exact hids
  case entries =>
    funext loc
    cases loc with
    | bucket i => rw [hs']; rfl
    | dom e =>
      have he : s'.tiers.entries (.dom e) = if e = d then [] else s.tiers.entries (.dom e) := by
        simp only [State.tiers, entries_dom, hget]
      rw [he]
      by_cases hed : e = d
      · rw [if_pos hed, hed]
        exact hent.symm
      · rw [if_neg hed]
        rfl
  case headers =>
    funext loc
    cases loc with
    | bucket i => rw [hs']; rfl
    | dom e =>
      have he : s'.tiers.headers (.dom e) = if e = d then [] else s.tiers.headers (.dom e) := by
        simp only [State.tiers, headers_dom, hget]
      rw [he]
      by_cases hed : e = d
      · rw [if_pos hed, hed]
        exact hhead.symm
      · rw [if_neg hed]
        rfl
  case usedPages =>
    funext e
    simp only [State.tiers, Tiers.retire, hget, Function.update_apply]
  case usedBytes =>
    funext e
    simp only [State.tiers, Tiers.retire, hget, Function.update_apply]
  all_goals rw [hs']; rfl

/-- What a daemon that attaches finds. -/
def State.attached (s : State) : State :=
  { s.exitMcdctl with
    mcdctlShared := fun _ => []
    store := fun _ _ => none
    mcdctlEnabled := true }

theorem mcdEventEnable_eq {r : Reply} {s t : State} (h : Returns mcdEventEnable s r t) :
    t = if s.mcdctlEnabled then s else s.attached := by
  simp only [mcdEventEnable, returns_bind, returns_get, and_assoc, exists_and_left,
    exists_eq_left] at h
  by_cases hon : s.mcdctlEnabled = true
  · rw [if_pos hon] at h ⊢
    exact (returns_pure.mp h).2
  · rw [if_neg hon] at h ⊢
    simp only [returns_bind, returns_set, returns_pure, exists_and_left, exists_eq_left,
      exists_const] at h
    exact h.2

theorem quiet_updateUsage (c : Ctx) (cmd : Cmd) : Quiet (updateUsage c cmd) := by
  refine quiet_bind quiet_get fun s => ?_
  by_cases hu : cmd.updatesUsage = true
  · rw [if_pos hu]
    exact quiet_domUsageUpdateAll c s.domains
  · rw [if_neg hu]
    exact quiet_pure _

theorem quiet_findCaller (cmd : Cmd) : Quiet (findCaller cmd) := by
  unfold findCaller
  cases cmd.countsFor with
  | none => exact quiet_pure _
  | some id => exact quiet_bind (quiet_domOf id) fun _ => quiet_pure _

/-- A hypercall that returns, by its three parts. -/
theorem call_returns {y z : System} {a : Call} {r : Reply} (h : y.call a = .ok (r, z)) :
    ∃ s s₁ s₂, Returns (mcdOp (y.ctx a.env) a.cmd) y.mcd r s ∧
      Returns (updateUsage (y.ctx a.env) a.cmd) s () s₁ ∧ Returns (findCaller a.cmd) s₁ () s₂ ∧
      z = { mcd := { s₂ with tick := 0 }, hits := y.hitsAfter a.cmd r } := by
  unfold System.call at h
  cases hrun : (doMcdOp (y.ctx a.env) a.cmd).run y.mcd with
  | error e =>
    rw [hrun] at h
    cases h
  | ok p =>
    rw [hrun] at h
    cases h
    have hdo : Returns (doMcdOp (y.ctx a.env) a.cmd) y.mcd p.1 p.2 := hrun
    obtain ⟨r, s, hop, hrest⟩ := returns_bind.mp hdo
    obtain ⟨_, s₁, husage, hrest⟩ := returns_bind.mp hrest
    obtain ⟨_, s₂, hcaller, hrest⟩ := returns_bind.mp hrest
    obtain ⟨hr, hs⟩ := returns_pure.mp hrest
    exact ⟨s, s₁, s₂, by rw [hr]; exact hop, husage, hcaller, by rw [hs]⟩

/-- After its operation a hypercall only brings shares and hit counters up to date. -/
theorem call_spec {y z : System} {a : Call} {r : Reply} (h : y.call a = .ok (r, z)) :
    ∃ t, Returns (mcdOp (y.ctx a.env) a.cmd) y.mcd r t ∧ z.mcd.tiers = t.tiers ∧
      z.hits = y.hitsAfter a.cmd r := by
  obtain ⟨s, s₁, s₂, hop, husage, hcaller, rfl⟩ := call_returns h
  have hq₁ := quiet_updateUsage _ _ _ _ _ husage
  have hq₂ := quiet_findCaller _ _ _ _ hcaller
  refine ⟨s, hop, ?_, rfl⟩
  rw [← hq₁, ← hq₂]
  rfl

/-- Between hypercalls no reading is pending. -/
theorem run_tick {P : System → Call → Prop} {y : System} {hist : List (Call × Reply)}
    (h : Run P System.start hist y) : y.mcd.tick = 0 := by
  refine h.invariant (I := fun y => y.mcd.tick = 0) ?_ rfl
  rintro y x z - ⟨-, hcall⟩
  obtain ⟨_, _, _, -, -, -, rfl⟩ := call_returns hcall
  rfl

end UniCache.Mcd
