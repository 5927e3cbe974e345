import UniCache.Base.Ledger
import UniCache.Mcd.RefineCreate

/-! The guest operations over the tiers. -/
namespace UniCache.Mcd
open Base.Exec

theorem has_of_mem_headers {s : State} {loc : Loc} {mch : McdctlHashT} (h : mch ∈ s.headers loc) :
    s.Has loc := by
  cases loc with
  | bucket i => trivial
  | dom d =>
    show (findMcdDom d s).isSome
    cases hd : findMcdDom d s with
    | none => simp [State.headers, hd] at h
    | some r => rfl

/-- Which lists exist is decided by the ids of the listed domains. -/
theorem has_of_live {s t : State} {loc : Loc} (h : t.tiers.live = s.tiers.live) (hs : s.Has loc) :
    t.Has loc := by
  cases loc with
  | bucket i => trivial
  | dom d =>
    have hs' : (findMcdDom d s).isSome := hs
    show (findMcdDom d t).isSome
    rw [isSome_findMcdDom] at hs' ⊢
    rw [h]
    exact hs'

@[simp] theorem returns_findMcdctlHashT {loc : Loc} {hash : UInt32} {s t : State}
    {r : Option McdctlHashT} :
    Returns (findMcdctlHashT loc hash) s r t ↔
      s.intact loc ∧ r = (s.headers loc).find? (·.hash = hash) ∧ t = s := by
  simp only [findMcdctlHashT, returns_bind, returns_checkIntact, returns_get, returns_pure,
    and_assoc, exists_and_left, exists_eq_left, exists_const]

/-- `mcdctl_free` unlinks the header while outsourcing is on, and does nothing otherwise. -/
theorem mcdctlFree_spec {loc : Loc} {mch : McdctlHashT} {s t : State} {u : Unit}
    (h : Returns (mcdctlFree loc mch) s u t) (hs : s.Has loc) :
    t.tiers = if s.tiers.outsourcing then
        s.tiers.setHeaders loc ((s.tiers.headers loc).erase mch) else s.tiers := by
  rw [(returns_mcdctlFree.mp h).2]
  by_cases ho : s.outsourcing
  · have ho' : s.tiers.outsourcing := ho
    rw [if_pos ho, if_pos ho']
    exact tiers_setHeaders hs _
  · have ho' : ¬ s.tiers.outsourcing := ho
    rw [if_neg ho, if_neg ho']

theorem mcdctlFree_returns_iff {loc : Loc} {mch : McdctlHashT} {s : State} :
    (∃ t, Returns (mcdctlFree loc mch) s () t) ↔ s.intact loc = true := by
  simp only [returns_mcdctlFree, exists_and_left, exists_eq, and_true]

/-- A one-way request changes the files or is lost. -/
theorem minfRequest_spec {c : Ctx} {f : Store → Store} {s t : State} {u : Unit}
    (h : Returns (minfRequest c f) s u t) :
    t.tiers = s.tiers ∨ t.tiers = { s.tiers with store := f s.tiers.store } := by
  simp only [minfRequest, returns_bind, returns_get, and_assoc, exists_and_left,
    exists_eq_left] at h
  by_cases he : s.mcdctlEnabled = true
  · rw [if_pos he] at h
    obtain ⟨ok, s₁, hr, h⟩ := returns_bind.mp h
    obtain ⟨-, rfl⟩ := returns_reading.mp hr
    by_cases hok : ok = true
    · rw [if_pos hok] at h
      rw [returns_modify.mp h]
      exact .inr rfl
    · rw [if_neg hok] at h
      rw [(returns_pure.mp h).2]
      exact .inl rfl
  · rw [if_neg he] at h
    rw [(returns_pure.mp h).2]
    exact .inl rfl

/-- The outsourced copy of a hash is forgotten: nothing was there, or its header is freed and
its file deleted unless the request is lost. -/
def Forgets (s : Tiers) (loc : Loc) (hash : UInt32) (t : Tiers) : Prop :=
  ((s.headers loc).find? (·.hash = hash) = none ∧ t = s) ∨
    ∃ mch, (s.headers loc).find? (·.hash = hash) = some mch ∧
      ∃ st, (st = s.store ∨ st = s.store.set mch.domain mch.hash none) ∧
        t = if s.outsourcing then { s.setHeaders loc ((s.headers loc).erase mch) with store := st }
          else { s with store := st }

theorem Forgets.cfg_eq {s t : Tiers} {loc : Loc} {hash : UInt32} (h : Forgets s loc hash t) :
    t.cfg = s.cfg := by
  rcases h with ⟨-, rfl⟩ | ⟨mch, -, st, -, rfl⟩
  · rfl
  · by_cases ho : s.outsourcing
    · rw [if_pos ho]
      rfl
    · rw [if_neg ho]

theorem dropOutsourced_spec {c : Ctx} {loc : Loc} {hash : UInt32} {s t : State} {u : Unit}
    (h : Returns (dropOutsourced c loc hash) s u t) : Forgets s.tiers loc hash t.tiers := by
  simp only [dropOutsourced, returns_bind, returns_findMcdctlHashT, and_assoc, exists_and_left,
    exists_eq_left] at h
  obtain ⟨-, h⟩ := h
  cases hf : (s.headers loc).find? (·.hash = hash) with
  | none =>
    rw [hf] at h
    exact .inl ⟨hf, by rw [(returns_pure.mp h).2]⟩
  | some mch =>
    rw [hf] at h
    obtain ⟨_, s₁, hdel, hfree⟩ := returns_bind.mp h
    have hreq := minfRequest_spec hdel
    have hmem : mch ∈ s₁.headers loc := by
      have hh : s₁.headers = s.headers := by
        rcases hreq with h | h
        · exact congrArg Tiers.headers h
        · exact congrArg Tiers.headers h
      rw [hh]
      exact List.mem_of_find?_eq_some hf
    have hfreed := mcdctlFree_spec hfree (has_of_mem_headers hmem)
    refine .inr ⟨mch, hf, ?_⟩
    rcases hreq with h | h
    · exact ⟨s.store, .inl rfl, by rw [hfreed, h]; rfl⟩
    · exact ⟨s.store.set mch.domain mch.hash none, .inr rfl, by rw [hfreed, h]; rfl⟩

/-- Linking an entry that has been accounted for. -/
theorem tiers_listAddTail {s : State} {u : Tiers} {loc : Loc} {mh m : McdHashT} (hs : s.Has loc)
    (hcharge : s.tiers = u.charge (loc.payer mh) loc.mode m) (hpages : mh.nrPages = m.nrPages)
    (hbytes : mh.nrBytes = m.nrBytes) : (s.listAddTail loc mh).tiers = u.link loc mh := by
  have he : s.entries = u.entries := congrArg Tiers.entries hcharge
  have hb : mh.bytes = m.bytes := congrArg UInt32.toUInt64 hbytes
  have hc : u.charge (loc.payer mh) loc.mode mh = u.charge (loc.payer mh) loc.mode m := by
    have hd : u.data.charge mh loc.mode = u.data.charge m loc.mode := by
      cases loc.mode <;> simp [McdData.charge, hpages, hb]
    simp only [Tiers.charge, hpages, hb, hd]
  unfold State.listAddTail Tiers.link
  rw [tiers_setEntries hs, hcharge, hc, he]

theorem soft_noteCost (ms : UInt32) : Soft (McdDomain.noteCost ms) where
  domid _ := rfl
  hashList _ := rfl
  mcdctlList _ := rfl
  nrUsedPages _ := rfl
  nrUsedBytes _ := rfl

theorem setQueryTime_spec {id : Domid} {mh r : McdHashT} {ms : UInt32} {s t : State}
    (h : Returns (setQueryTime id mh ms) s r t) :
    r = { mh with queryTimeMs := ms } ∧ t.tiers = s.tiers ∧ (∀ loc, s.Has loc → t.Has loc) := by
  simp only [setQueryTime, returns_bind, returns_modify, returns_pure, exists_and_left,
    exists_eq_left, exists_const] at h
  obtain ⟨rfl, rfl⟩ := h
  refine ⟨rfl, tiers_modifyDom_soft (soft_noteCost ms) id _, fun loc hl => ?_⟩
  refine has_modifyDom (soft_noteCost ms).domid id ?_
  cases loc <;> exact hl

/-- The entry a `put` makes of a key, as read the second time, and a value. -/
structure Holds (id : Domid) (k : GuestKey) (v : GuestVal) (mh : McdHashT) : Prop where
  domain : mh.domain = id
  flags : mh.flags = if v.size = 0 then mcdHashTMeasurement else mcdHashTNormal
  hash : mh.hash = getHash k.again
  keySize : mh.keySize = k.size
  valSize : mh.valSize = v.size
  keyVal : mh.keyVal = k.again ++ v.bytes
  nrBytes : mh.nrBytes = (entrySize k.size v.size).toUInt32

/-- Room was made and an entry linked. -/
def Adds (c : Ctx) (s : Tiers) (loc : Loc) (mh : McdHashT) (t : Tiers) : Prop :=
  mh.domain ∈ s.live ∧ ∃ u, Clears c s.Current s u 0 ∧
    Granted c s u (entrySize mh.keySize mh.valSize) ∧ t = u.link loc mh

/-- A list the current mode uses for the entries of domain `id`. -/
def Loc.For (s : Tiers) (id : Domid) (loc : Loc) : Prop :=
  loc.mode = s.cfg.cacheMode ∧ (loc = .dom id ∨ loc.mode = .shared)

theorem for_bucket {s : Tiers} (hm : s.cfg.cacheMode = .shared) (i : Bucket) (id : Domid) :
    (Loc.bucket i).For s id := ⟨hm.symm, .inr rfl⟩

theorem Loc.For.payer_eq {s : Tiers} {id : Domid} {loc : Loc} (h : loc.For s id) {mh : McdHashT}
    (hd : mh.domain = id) : loc.payer mh = id := by
  rcases h.2 with rfl | hm
  · rfl
  · cases loc with
    | bucket i => exact hd
    | dom d => exact CacheMode.noConfusion hm

theorem Loc.For.has {s : Tiers} {id : Domid} {loc : Loc} (h : loc.For s id) {t : State}
    (ht : (findMcdDom id t).isSome) : t.Has loc := by
  rcases h.2 with rfl | hm
  · exact ht
  · cases loc with
    | bucket i => trivial
    | dom d => exact CacheMode.noConfusion hm

theorem putEntry_spec {c : Ctx} {id : Domid} {k : GuestKey} {loc : Loc} {v : GuestVal}
    {ms : UInt32} {r : Reply} {s t : State} (h : Returns (putEntry c id k loc v ms) s r t)
    (hloc : loc.For s.tiers id) :
    (r = .code .errMcdFault ∧ Clears c s.tiers.Current s.tiers t.tiers 0) ∨
      ∃ mh, r.rc = .errNo ∧ Holds id k v mh ∧ Adds c s.tiers loc mh t.tiers := by
  obtain ⟨o, s₁, hcreate, h⟩ := returns_bind.mp h
  obtain ⟨o', s₂, hraw, hfill⟩ := returns_bind.mp hcreate
  rcases createMcdHashT_spec hraw with
    ⟨rfl, hcl⟩ | ⟨u, addr, now, stale, rfl, hcl, hg, hlive, hsome, ht⟩
  · obtain ⟨rfl, rfl⟩ := returns_pure.mp hfill
    obtain ⟨rfl, rfl⟩ := returns_pure.mp h
    exact .inl ⟨rfl, hcl⟩
  · obtain ⟨rfl, rfl⟩ := returns_pure.mp hfill
    obtain ⟨mh, s₃, hset, h⟩ := returns_bind.mp h
    obtain ⟨rfl, hq, hhas⟩ := setQueryTime_spec hset
    simp only [returns_bind, returns_modify, returns_pure, exists_and_left, exists_eq_left,
      exists_const] at h
    obtain ⟨rfl, rfl⟩ := h
    generalize hfresh : freshHashT addr id k.size v.size now stale = m at *
    have hdom : m.domain = id := by rw [← hfresh]; rfl
    refine .inr ⟨{ m.fill k v with queryTimeMs := ms }, rfl,
      ⟨hdom, ?_, rfl, rfl, rfl, rfl, ?_⟩, hdom ▸ hlive, u, hcl, ?_, ?_⟩
    · rw [← hfresh]; rfl
    · rw [← hfresh]; rfl
    · exact hg
    · refine tiers_listAddTail (m := m) (hhas loc (hloc.has hsome)) ?_ rfl rfl
      rw [hq, ht, hloc.payer_eq, hloc.1]
      exact hdom

theorem findMcdHashT_mem {hash : UInt32} {l : List McdHashT} {mh : McdHashT}
    (h : findMcdHashT hash l = some mh) : mh ∈ l ∧ mh.hash = hash := by
  refine ⟨List.mem_of_find?_eq_some h, ?_⟩
  have hp := List.find?_some h
  simpa using hp

/-- How a `put` or `remove` clears the way for its hash. -/
inductive Evacuates (c : Ctx) (s : Tiers) (loc : Loc) (hash : UInt32) (t : Tiers) : Prop
  | entry (mh : McdHashT) (find : findMcdHashT hash (s.entries loc) = some mh)
      (rem : Removal c s loc mh t)
  | header (find : findMcdHashT hash (s.entries loc) = none) (forget : Forgets s loc hash t)

theorem Evacuates.cfg_eq {c : Ctx} {s t : Tiers} {loc : Loc} {hash : UInt32}
    (h : Evacuates c s loc hash t) : t.cfg = s.cfg := by
  cases h with
  | entry _ _ rem => exact rem.cfg_eq
  | header _ forget => exact forget.cfg_eq

theorem sMcdReplace_spec {c : Ctx} {hash ms : UInt32} {s t : State}
    (h : Returns (sMcdReplace c hash) s ms t) :
    Evacuates c s.tiers (.bucket (bucketOf hash)) hash t.tiers ∧
      ∀ mh, findMcdHashT hash (s.shared (bucketOf hash)) = some mh →
        t.tiers = s.tiers.drop (.bucket (bucketOf hash)) mh := by
  simp only [sMcdReplace, returns_bind, returns_get, and_assoc, exists_and_left,
    exists_eq_left] at h
  cases hf : findMcdHashT hash (s.shared (bucketOf hash)) with
  | none =>
    rw [hf] at h
    obtain ⟨_, s₁, hdrop, h⟩ := returns_bind.mp h
    rw [(returns_pure.mp h).2]
    exact ⟨.header hf (dropOutsourced_spec hdrop), fun mh hmh => by simp at hmh⟩
  | some mh =>
    rw [hf] at h
    simp only [readNow, returns_bind, returns_reading, returns_modify, returns_pure, and_assoc,
      exists_and_left, exists_eq_left, exists_const] at h
    obtain ⟨b, s₁, hrem, -, rfl⟩ := h
    obtain ⟨-, hr, hdrop⟩ := sRemoveHashT_spec hrem (findMcdHashT_mem hf).1
    refine ⟨.entry mh hf hr, fun m hm => ?_⟩
    obtain rfl := Option.some.inj hm
    exact hdrop rfl

theorem pMcdReplace_spec {c : Ctx} {id : Domid} {hash ms : UInt32} {s t : State}
    (h : Returns (pMcdReplace c id hash) s ms t) :
    Evacuates c s.tiers (.dom id) hash t.tiers := by
  simp only [pMcdReplace, returns_bind, returns_domOf, and_assoc, exists_and_left,
    exists_eq_left] at h
  obtain ⟨d, hd, h⟩ := h
  have he : s.tiers.entries (.dom id) = d.hashList := entries_of_find hd
  cases hf : findMcdHashT hash d.hashList with
  | none =>
    rw [hf] at h
    obtain ⟨_, s₁, hdrop, h⟩ := returns_bind.mp h
    rw [(returns_pure.mp h).2]
    exact .header (by rw [he]; exact hf) (dropOutsourced_spec hdrop)
  | some mh =>
    rw [hf] at h
    simp only [readNow, returns_bind, returns_reading, returns_pure, and_assoc, exists_and_left,
      exists_eq_left] at h
    obtain ⟨b, s₁, hrem, -, rfl⟩ := h
    have hmem : mh ∈ s.bump.entries (.dom id) := by
      have h : s.bump.entries (.dom id) = d.hashList := entries_of_find (s := s.bump) hd
      rw [h]
      exact (findMcdHashT_mem hf).1
    obtain ⟨-, hr, -⟩ := pRemoveHashT_spec hrem hmem
    exact .entry mh (by rw [he]; exact hf) hr

/-- A `remove` discards the entry it finds in memory; both modes agree here. -/
def Discards (s : Tiers) (loc : Loc) (hash : UInt32) (t : Tiers) : Prop :=
  (∃ mh, findMcdHashT hash (s.entries loc) = some mh ∧ t = s.drop loc mh) ∨
    (findMcdHashT hash (s.entries loc) = none ∧ Forgets s loc hash t)

theorem Discards.cfg_eq {s t : Tiers} {loc : Loc} {hash : UInt32} (h : Discards s loc hash t) :
    t.cfg = s.cfg := by
  rcases h with ⟨mh, -, rfl⟩ | ⟨-, hf⟩
  · rfl
  · exact hf.cfg_eq

theorem sMcdRemove_spec {c : Ctx} {k : GuestKey} {r : Reply} {s t : State}
    (h : Returns (sMcdRemove c k) s r t) :
    r = .code .errNo ∧
      Discards s.tiers (.bucket (bucketOf (getHash k.bytes))) (getHash k.bytes) t.tiers := by
  simp only [sMcdRemove, returns_bind, returns_get, and_assoc, exists_and_left,
    exists_eq_left] at h
  cases hf : findMcdHashT (getHash k.bytes) (s.shared (bucketOf (getHash k.bytes))) with
  | none =>
    rw [hf] at h
    obtain ⟨_, s₁, hdrop, h⟩ := returns_bind.mp h
    obtain ⟨rfl, rfl⟩ := returns_pure.mp h
    exact ⟨rfl, .inr ⟨hf, dropOutsourced_spec hdrop⟩⟩
  | some mh =>
    rw [hf] at h
    obtain ⟨b, s₁, hrem, h⟩ := returns_bind.mp h
    obtain ⟨rfl, rfl⟩ := returns_pure.mp h
    obtain ⟨-, -, hdrop⟩ := sRemoveHashT_spec hrem (findMcdHashT_mem hf).1
    exact ⟨rfl, .inl ⟨mh, hf, hdrop rfl⟩⟩

theorem pMcdRemove_spec {c : Ctx} {id : Domid} {k : GuestKey} {r : Reply} {s t : State}
    (h : Returns (pMcdRemove c id k) s r t) :
    r = .code .errNo ∧ Discards s.tiers (.dom id) (getHash k.bytes) t.tiers := by
  simp only [pMcdRemove, returns_bind, returns_domOf, and_assoc, exists_and_left,
    exists_eq_left] at h
  obtain ⟨d, hd, h⟩ := h
  have he : s.tiers.entries (.dom id) = d.hashList := entries_of_find hd
  cases hf : findMcdHashT (getHash k.bytes) d.hashList with
  | none =>
    rw [hf] at h
    obtain ⟨_, s₁, hdrop, h⟩ := returns_bind.mp h
    obtain ⟨rfl, rfl⟩ := returns_pure.mp h
    exact ⟨rfl, .inr ⟨by rw [he]; exact hf, dropOutsourced_spec hdrop⟩⟩
  | some mh =>
    rw [hf] at h
    obtain ⟨b, s₁, hrem, h⟩ := returns_bind.mp h
    obtain ⟨rfl, rfl⟩ := returns_pure.mp h
    have hmem : mh ∈ s.entries (.dom id) := by
      rw [entries_of_find hd]
      exact (findMcdHashT_mem hf).1
    obtain ⟨-, -, hdrop⟩ := pRemoveHashT_spec hrem hmem
    exact ⟨rfl, .inl ⟨mh, by rw [he]; exact hf, hdrop rfl⟩⟩

/-- An access changes an entry's use count and time, nothing else. -/
def Tiers.touch (t : Tiers) (loc : Loc) (mh : McdHashT) (now : Int) : Tiers :=
  { t with
    entries := Function.update t.entries loc
      ((t.entries loc).replace mh { mh with ref := mh.ref + 1, putTime := now }) }

/-- Nothing but the use count and the time of an entry shows a touch. -/
theorem map_entries_touch {β : Type} {f : McdHashT → β} {mh : McdHashT} {now : Int}
    (hf : f { mh with ref := mh.ref + 1, putTime := now } = f mh) (t : Tiers) (loc l : Loc) :
    ((t.touch loc mh now).entries l).map f = (t.entries l).map f := by
  change (Function.update t.entries loc _ l).map f = _
  by_cases h : l = loc
  · rw [h, Function.update_self]
    exact Base.map_replace_of_eq hf _
  · rw [Function.update_of_ne h]

/-- What a `get` that has its entry reports. -/
def Delivers (mh : McdHashT) (cap : UInt32) (rc : Rc) (r : Reply) : Prop :=
  (mh.valSize > cap ∧ r = .code .errMcdFault) ∨
    (¬ mh.valSize > cap ∧ r = { rc, rValSize := some mh.valSize, val := some mh.value })

/-- The state with the access to an entry recorded. -/
def State.accessed (s : State) (loc : Loc) (mh : McdHashT) (now : Int) : State :=
  s.bump.setEntries ((s.bump.entries loc).replace mh
    { mh with ref := mh.ref + 1, putTime := now }) loc

theorem deliver_eq {c : Ctx} {loc : Loc} {mh : McdHashT} {cap : UInt32} {rc : Rc} {r : Reply}
    {s t : State} (h : Returns (deliver c loc mh cap rc) s r t) :
    Delivers mh cap rc r ∧ t = s.accessed loc mh (c.now s.tick) := by
  simp only [deliver, readNow, returns_bind, returns_reading, returns_modify, and_assoc,
    exists_and_left, exists_eq_left, exists_const] at h
  by_cases hbig : mh.valSize > cap
  · rw [if_pos hbig] at h
    obtain ⟨rfl, rfl⟩ := returns_pure.mp h
    exact ⟨.inl ⟨hbig, rfl⟩, rfl⟩
  · rw [if_neg hbig] at h
    obtain ⟨rfl, rfl⟩ := returns_pure.mp h
    exact ⟨.inr ⟨hbig, rfl⟩, rfl⟩

theorem deliver_spec {c : Ctx} {loc : Loc} {mh : McdHashT} {cap : UInt32} {rc : Rc} {r : Reply}
    {s t : State} (h : Returns (deliver c loc mh cap rc) s r t) (hs : s.Has loc) :
    Delivers mh cap rc r ∧ ∃ now, t.tiers = s.tiers.touch loc mh now := by
  obtain ⟨hdel, rfl⟩ := deliver_eq h
  have hs' : s.bump.Has loc := by cases loc <;> exact hs
  exact ⟨hdel, c.now s.tick, tiers_setEntries hs' _⟩

/-- The entry a page-in makes of a header, and the files it leaves behind. -/
structure Fetched (c : Ctx) (before : Store) (mch : McdctlHashT) (mh : McdHashT) (after : Store) :
    Prop where
  domain : mh.domain = mch.domain
  hash : mh.hash = mch.hash
  keySize : mh.keySize = mch.keySize
  valSize : mh.valSize = mch.valSize
  flags : mh.flags = if mch.valSize = 0 then mcdHashTMeasurement else mcdHashTNormal
  nrBytes : mh.nrBytes = (entrySize mch.keySize mch.valSize).toUInt32
  transfer : ∃ n stale,
    (c.pageIn n = .done ∧ after = before.set mch.domain mch.hash none ∧
      mh.keyVal = fillBuf (mch.keySize.toNat + mch.valSize.toNat)
        ((before mch.domain mch.hash).getD []) stale) ∨
    ∃ got, c.pageIn n = .failed got ∧ after = before ∧
      mh.keyVal = fillBuf (mch.keySize.toNat + mch.valSize.toNat) got stale

/-- A transfer gives the entry its bytes. One that completes takes the file away. -/
theorem transferIn_cases {c : Ctx} {mch : McdctlHashT} {mh m : McdHashT} {s t : State}
    (h : Returns (transferIn c mch mh) s m t) : ∃ got store, t = { s.bump.bump with store } ∧
      m = mh.receive mch.hash got (c.stale (s.tick + 1)) ∧
      (c.pageIn s.tick = .done ∧ store = s.store.set mch.domain mch.hash none ∧
          got = (s.store mch.domain mch.hash).getD [] ∨
        c.pageIn s.tick = .failed got ∧ store = s.store) := by
  simp only [transferIn, returns_bind, returns_reading, returns_get, and_assoc, exists_and_left,
    exists_eq_left] at h
  cases hout : c.pageIn s.tick with
  | done =>
    rw [hout] at h
    simp only [returns_bind, returns_set, returns_pure, exists_and_left, exists_eq_left,
      exists_const] at h
    exact ⟨_, _, h.2, h.1, .inl ⟨rfl, rfl, rfl⟩⟩
  | failed got =>
    rw [hout] at h
    obtain ⟨hm, ht⟩ := returns_pure.mp h
    exact ⟨got, s.store, ht, hm, .inr ⟨rfl, rfl⟩⟩

theorem transferIn_spec {c : Ctx} {mch : McdctlHashT} {addr : Nat} {now : Int}
    {stale : Nat → UInt8} {mh : McdHashT} {s t : State}
    (h : Returns (transferIn c mch
      (freshHashT addr mch.domain mch.keySize mch.valSize now stale)) s mh t) :
    Fetched c s.store mch mh t.store ∧
      mh.nrPages = (freshHashT addr mch.domain mch.keySize mch.valSize now stale).nrPages ∧
      t.tiers = { s.tiers with store := t.store } ∧ ∀ loc, s.Has loc → t.Has loc := by
  obtain ⟨got, store, rfl, rfl, hend⟩ := transferIn_cases h
  refine ⟨⟨rfl, rfl, rfl, rfl, rfl, rfl, s.tick, c.stale (s.tick + 1), ?_⟩, rfl, rfl, ?_⟩
  · rcases hend with ⟨hdone, rfl, rfl⟩ | ⟨hfailed, rfl⟩
    · exact .inl ⟨hdone, rfl, rfl⟩
    · exact .inr ⟨got, hfailed, rfl, rfl⟩
  · intro loc hl
    cases loc <;> exact hl

/-- A page-in that succeeds: room is made, the header goes, and the entry is linked. -/
def Loads (c : Ctx) (s : Tiers) (loc : Loc) (mch : McdctlHashT) (mh : McdHashT) (t : Tiers) :
    Prop :=
  mch.domain ∈ s.live ∧ ∃ u st, Clears c s.Current s u 0 ∧
    Granted c s u (entrySize mch.keySize mch.valSize) ∧ Fetched c u.store mch mh st ∧
    t = Tiers.link { u.setHeaders loc ((u.headers loc).erase mch) with store := st } loc mh

theorem Removal.headers_subset {c : Ctx} {t u : Tiers} {loc : Loc} {mh : McdHashT}
    (h : Removal c t loc mh u) (l : Loc) : t.headers l ⊆ u.headers l := by
  cases h with
  | drop _ => exact List.Subset.refl _
  | evict _ _ _ _ _ _ page slot => exact Base.subset_update_append t.headers _ _ l

theorem Clears.headers_subset {c : Ctx} {P : Loc → Prop} {s t : Tiers} {k : Nat}
    (h : Clears c P s t k) (l : Loc) : s.headers l ⊆ t.headers l := by
  obtain ⟨_, hl, -, -⟩ := h
  exact hl.induct (I := fun v => s.headers l ⊆ v.headers l)
    (fun hr hv => List.Subset.trans hv (hr.headers_subset l)) (List.Subset.refl _)

/-- `mcd_page_in` followed by the linking of its entry, as both `get`s do it. -/
theorem mcdPageIn_spec {c : Ctx} {loc : Loc} {mch : McdctlHashT} {r : Option McdHashT}
    {s t : State} (h : Returns (mcdPageIn c loc mch) s r t) (hloc : loc.For s.tiers mch.domain) :
    (r = none ∧ Clears c s.tiers.Current s.tiers t.tiers 0) ∨
      ∃ mh, r = some mh ∧ s.tiers.outsourcing ∧ t.Has loc ∧
        Loads c s.tiers loc mch mh (t.listAddTail loc mh).tiers := by
  simp only [mcdPageIn, returns_bind, returns_get, and_assoc, exists_and_left,
    exists_eq_left] at h
  by_cases ho : s.outsourcing
  · rw [if_neg (not_not_intro ho)] at h
    obtain ⟨o, s₁, hcreate, h⟩ := returns_bind.mp h
    rcases createMcdHashT_spec hcreate with
      ⟨rfl, hcl⟩ | ⟨u, addr, now, stale, rfl, hcl, hg, hlive, hsome, ht⟩
    · obtain ⟨rfl, rfl⟩ := returns_pure.mp h
      exact .inl ⟨rfl, hcl⟩
    · obtain ⟨mh, s₂, htr, h⟩ := returns_bind.mp h
      obtain ⟨hfetch, hpages, htier, hhas⟩ := transferIn_spec htr
      by_cases hflag : mh.flags &&& mcdMinfError ≠ 0
      · rw [if_pos hflag] at h
        exact (returns_throw.mp h).elim
      · rw [if_neg hflag] at h
        obtain ⟨_, s₃, hfree, h⟩ := returns_bind.mp h
        obtain ⟨rfl, rfl⟩ := returns_pure.mp h
        have hs₂ : s₂.Has loc := hhas loc (hloc.has hsome)
        have hcfg : s₂.tiers.cfg = s.tiers.cfg := by rw [htier, ht]; exact hcl.cfg_eq
        have ho₂ : s₂.tiers.outsourcing := by
          unfold Tiers.outsourcing
          rw [hcfg]
          exact ho
        have hfreed := mcdctlFree_spec hfree hs₂
        rw [if_pos ho₂, htier, ht] at hfreed
        have hstore : s₁.store = u.store := congrArg Tiers.store ht
        rw [hstore] at hfetch
        have hs₃ : t.Has loc := has_of_live (by rw [hfreed, htier, ht]; rfl) hs₂
        refine .inr ⟨mh, rfl, ho, hs₃, hlive, u, s₂.store, hcl, hg, hfetch, ?_⟩
        refine tiers_listAddTail
          (m := freshHashT addr mch.domain mch.keySize mch.valSize now stale) hs₃ ?_ hpages
          hfetch.nrBytes
        rw [hfreed, hloc.payer_eq hfetch.domain, hloc.1]
        rfl
  · rw [if_pos ho] at h
    obtain ⟨rfl, rfl⟩ := returns_pure.mp h
    exact .inl ⟨rfl, clears_refl _⟩

theorem mcdPageIn_none {c : Ctx} {loc : Loc} {mch : McdctlHashT} {s t : State}
    (h : Returns (mcdPageIn c loc mch) s none t) (hloc : loc.For s.tiers mch.domain) :
    Clears c s.tiers.Current s.tiers t.tiers 0 := by
  rcases mcdPageIn_spec h hloc with ⟨-, hcl⟩ | ⟨_, hnone, -⟩
  · exact hcl
  · exact absurd hnone (by simp)

theorem mcdPageIn_some {c : Ctx} {loc : Loc} {mch : McdctlHashT} {mh : McdHashT} {s t : State}
    (h : Returns (mcdPageIn c loc mch) s (some mh) t) (hloc : loc.For s.tiers mch.domain) :
    s.tiers.outsourcing ∧ Loads c s.tiers loc mch mh (t.listAddTail loc mh).tiers := by
  rcases mcdPageIn_spec h hloc with ⟨hnone, -⟩ | ⟨m, hsome, hon, -, hload⟩
  · exact absurd hnone (by simp)
  · obtain rfl := Option.some.inj hsome
    exact ⟨hon, hload⟩

/-- The outcomes of a `get` on the list at `loc`. -/
inductive Gets (c : Ctx) (s : Tiers) (loc : Loc) (hash cap : UInt32) (r : Reply) (t : Tiers) : Prop
  | hit (mh : McdHashT) (now : Int) (find : findMcdHashT hash (s.entries loc) = some mh)
      (reply : Delivers mh cap .retGetMem r) (after : t = s.touch loc mh now)
  | load (mch : McdctlHashT) (mh : McdHashT) (u : Tiers) (now : Int)
      (absent : findMcdHashT hash (s.entries loc) = none)
      (find : (s.headers loc).find? (·.hash = hash) = some mch) (on : s.outsourcing)
      (loads : Loads c s loc mch mh u) (reply : Delivers mh cap .retGetSsd r)
      (after : t = u.touch loc mh now)
  | miss (absent : findMcdHashT hash (s.entries loc) = none) (reply : r = .code .errMcdFault)
      (clears : Clears c s.Current s t 0)

theorem noteAccess_spec {c : Ctx} {mh : McdHashT} {s t : State} {u : Unit}
    (h : Returns (noteAccess c mh) s u t) : t.tiers = s.tiers := by
  simp only [noteAccess, readNow, returns_bind, returns_reading, returns_modify, and_assoc,
    exists_and_left, exists_eq_left] at h
  rw [h]
  rfl

theorem has_of_tiers_eq {s t : State} {loc : Loc} (h : t.tiers = s.tiers) (hs : s.Has loc) :
    t.Has loc := has_of_live (congrArg Tiers.live h) hs

theorem has_listAddTail {s : State} {loc : Loc} (mh : McdHashT) (hs : s.Has loc) :
    (s.listAddTail loc mh).Has loc := by
  refine has_of_live ?_ hs
  unfold State.listAddTail
  rw [tiers_setEntries hs]

/-- The headers in a domain's list carry its id. -/
def Tiers.HeadersOwned (t : Tiers) : Prop := ∀ d, ∀ mch ∈ t.headers (.dom d), mch.domain = d

/-- The ways through a `get` on the list at `loc`, with the page-in it makes. -/
inductive GetPath (c : Ctx) (s : State) (loc : Loc) (hash cap : UInt32) (r : Reply) (t : State) :
    Prop
  | hit (mh : McdHashT) (now : Int) (find : findMcdHashT hash (s.entries loc) = some mh)
      (reply : Delivers mh cap .retGetMem r) (after : t.tiers = s.tiers.touch loc mh now)
  | absent (absent : findMcdHashT hash (s.entries loc) = none)
      (find : (s.headers loc).find? (·.hash = hash) = none) (reply : r = .code .errMcdFault)
      (after : t = s)
  | refused (mch : McdctlHashT) (absent : findMcdHashT hash (s.entries loc) = none)
      (find : (s.headers loc).find? (·.hash = hash) = some mch)
      (pages : Returns (mcdPageIn c loc mch) s none t) (reply : r = .code .errMcdFault)
  | load (mch : McdctlHashT) (mh : McdHashT) (u : State) (now : Int)
      (absent : findMcdHashT hash (s.entries loc) = none)
      (find : (s.headers loc).find? (·.hash = hash) = some mch)
      (pages : Returns (mcdPageIn c loc mch) s (some mh) u) (reply : Delivers mh cap .retGetSsd r)
      (after : t.tiers = (u.listAddTail loc mh).tiers.touch loc mh now)

theorem GetPath.gets {c : Ctx} {s t : State} {loc : Loc} {hash cap : UInt32} {r : Reply}
    (h : GetPath c s loc hash cap r t)
    (hloc : ∀ mch ∈ s.headers loc, loc.For s.tiers mch.domain) :
    Gets c s.tiers loc hash cap r t.tiers := by
  cases h with
  | hit mh now find reply after => exact .hit mh now find reply after
  | absent absent _ reply after =>
    rw [after]
    exact .miss absent reply (clears_refl _)
  | refused mch absent find pages reply =>
    exact .miss absent reply (mcdPageIn_none pages (hloc mch (List.mem_of_find?_eq_some find)))
  | load mch mh u now absent find pages reply after =>
    obtain ⟨hon, hload⟩ := mcdPageIn_some pages (hloc mch (List.mem_of_find?_eq_some find))
    exact .load mch mh _ now absent find hon hload reply after

theorem for_bucket_headers {s : State} (hm : s.cacheMode = .shared) (i : Bucket) :
    ∀ mch ∈ s.headers (.bucket i), (Loc.bucket i).For s.tiers mch.domain :=
  fun mch _ => for_bucket hm i mch.domain

theorem for_dom_headers {s : State} (hm : s.cacheMode = .partition) (hown : s.tiers.HeadersOwned)
    (id : Domid) : ∀ mch ∈ s.headers (.dom id), (Loc.dom id).For s.tiers mch.domain :=
  fun mch hmem => ⟨hm.symm, .inl (by rw [hown id mch hmem])⟩

/-- The part of both `get`s after a miss in memory. -/
theorem fetch_path {c : Ctx} {loc : Loc} {hash cap : UInt32} {r : Reply} {s t : State}
    {rest : McdHashT → M Reply} (hf : findMcdHashT hash (s.entries loc) = none)
    (hrest : ∀ mch mh u, (s.headers loc).find? (·.hash = hash) = some mch →
      Returns (mcdPageIn c loc mch) s (some mh) u → Returns (rest mh) (u.listAddTail loc mh) r t →
      Delivers mh cap .retGetSsd r ∧
        ∃ now, t.tiers = (u.listAddTail loc mh).tiers.touch loc mh now)
    (h : Returns (do
      match ← findMcdctlHashT loc hash with
      | none => pure (.code .errMcdFault)
      | some mch => do
        match ← mcdPageIn c loc mch with
        | none => pure (.code .errMcdFault)
        | some mh => do
          modify (·.listAddTail loc mh)
          rest mh) s r t) : GetPath c s loc hash cap r t := by
  simp only [returns_bind, returns_findMcdctlHashT, and_assoc, exists_and_left, exists_eq_left] at h
  obtain ⟨-, h⟩ := h
  cases hh : (s.headers loc).find? (·.hash = hash) with
  | none =>
    rw [hh] at h
    obtain ⟨rfl, rfl⟩ := returns_pure.mp h
    exact .absent hf hh rfl rfl
  | some mch =>
    rw [hh] at h
    obtain ⟨o, u, hpi, h⟩ := returns_bind.mp h
    cases o with
    | none =>
      obtain ⟨rfl, rfl⟩ := returns_pure.mp h
      exact .refused mch hf hh hpi rfl
    | some mh =>
      simp only [returns_bind, returns_modify, exists_eq_left, exists_const] at h
      obtain ⟨hrep, now, ht⟩ := hrest mch mh u hh hpi h
      exact .load mch mh u now hf hh hpi hrep ht

theorem pMcdGet_path {c : Ctx} {id : Domid} {k : GuestKey} {cap : UInt32} {r : Reply}
    {s t : State} (h : Returns (pMcdGet c id k cap) s r t) (hm : s.cacheMode = .partition)
    (hown : s.tiers.HeadersOwned) : GetPath c s (.dom id) (getHash k.bytes) cap r t := by
  obtain ⟨d, s₁, hdom, h⟩ := returns_bind.mp h
  obtain ⟨hd, heq⟩ := returns_domOf.mp hdom
  have he : s.entries (.dom id) = d.hashList := entries_of_find hd
  have hs : s.Has (.dom id) := by simp [State.Has, hd]
  rw [← he, heq] at h
  cases hf : findMcdHashT (getHash k.bytes) (s.entries (.dom id)) with
  | some mh =>
    rw [hf] at h
    obtain ⟨hrep, now, ht⟩ := deliver_spec h hs
    exact .hit mh now hf hrep ht
  | none =>
    rw [hf] at h
    refine fetch_path hf (fun mch mh u hh hpi hdel => ?_) h
    have hloc := for_dom_headers hm hown id mch (List.mem_of_find?_eq_some hh)
    rcases mcdPageIn_spec hpi hloc with ⟨hnone, -⟩ | ⟨-, -, -, hu, -⟩
    · cases hnone
    · exact deliver_spec hdel (has_listAddTail mh hu)

theorem sMcdGet_path {c : Ctx} {k : GuestKey} {cap : UInt32} {r : Reply} {s t : State}
    (h : Returns (sMcdGet c k cap) s r t) :
    GetPath c s (.bucket (bucketOf (getHash k.bytes))) (getHash k.bytes) cap r t := by
  have h := returns_get_bind.mp h
  generalize hi : bucketOf (getHash k.bytes) = i at h ⊢
  have hnoted : ∀ {mh : McdHashT} {rc : Rc} {u v : State},
      Returns (do noteAccess c mh; deliver c (.bucket i) mh cap rc) u r v →
        Delivers mh cap rc r ∧ ∃ now, v.tiers = u.tiers.touch (.bucket i) mh now := by
    intro mh rc u v hdel
    obtain ⟨_, u₁, hnote, hdel⟩ := returns_bind.mp hdel
    have hsame := noteAccess_spec hnote
    rw [← hsame]
    exact deliver_spec hdel (show u₁.Has (.bucket i) from trivial)
  cases hf : findMcdHashT (getHash k.bytes) (s.entries (.bucket i)) with
  | some mh =>
    rw [hf] at h
    obtain ⟨hrep, now, ht⟩ := hnoted h
    exact .hit mh now hf hrep ht
  | none =>
    rw [hf] at h
    exact fetch_path hf (fun _ _ _ _ _ hdel => hnoted hdel) h

/-- The header-only entry of a lookup. -/
def emptyVal : GuestVal := ⟨0, [], List.length_nil⟩

theorem addMeasurement_spec {c : Ctx} {id : Domid} {loc : Loc} {k : GuestKey} {s t : State}
    {u : Unit} (h : Returns (addMeasurement c id loc k) s u t) (hloc : loc.For s.tiers id) :
    Clears c s.tiers.Current s.tiers t.tiers 0 ∨
      ∃ mh, mh.domain = id ∧ mh.flags = mcdHashTMeasurement ∧ mh.hash = getHash k.bytes ∧
        mh.keySize = k.size ∧ mh.valSize = 0 ∧ mh.keyVal = k.again ∧
        mh.nrBytes = (entrySize k.size 0).toUInt32 ∧ Adds c s.tiers loc mh t.tiers := by
  obtain ⟨o, s₁, hcreate, h⟩ := returns_bind.mp h
  rcases createMcdHashT_spec hcreate with
    ⟨rfl, hcl⟩ | ⟨w, addr, now, stale, rfl, hcl, hg, hlive, hsome, ht⟩
  · obtain ⟨-, rfl⟩ := returns_pure.mp h
    exact .inl hcl
  · rw [returns_modify.mp h]
    generalize hfresh : freshHashT addr id k.size 0 now stale = m at *
    have hdom : m.domain = id := by rw [← hfresh]; rfl
    refine .inr ⟨{ m.fill k emptyVal with hash := getHash k.bytes }, hdom, ?_, rfl, rfl, rfl, ?_,
      ?_, hdom ▸ hlive, w, hcl, hg, ?_⟩
    · rw [← hfresh]; rfl
    · exact List.append_nil _
    · rw [← hfresh]; rfl
    · refine tiers_listAddTail (m := m) (hloc.has hsome) ?_ rfl rfl
      rw [ht, hloc.payer_eq, hloc.1]
      exact hdom

end UniCache.Mcd
