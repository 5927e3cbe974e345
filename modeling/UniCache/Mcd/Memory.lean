import UniCache.Mcd.Hash

/-! Readings of the environment, memory limits, and the domain table. -/
namespace UniCache.Mcd

def State.bump (s : State) : State := { s with tick := s.tick + 1 }

/-- Takes the next reading of one of the environment's streams. -/
def reading {α : Type} (f : Nat → α) : M α := do
  let s ← get
  set s.bump
  pure (f s.tick)

def readNow (c : Ctx) : M Int := reading c.now

/-- `_xmalloc`; the pointer it returns is the serial number of the allocation. -/
def xmalloc (c : Ctx) : M (Option Nat) := do
  let ok ← reading c.xmalloc
  let s ← get
  if ok then do
    set { s with nextAddr := s.nextAddr + 1 }
    pure (some s.nextAddr)
  else pure none

/-- `TOT_USED_BYTES()`. -/
def State.totUsedBytes (s : State) : UInt64 := s.data.priNrBytes + s.data.shrNrBytes

/-- `RESIDUAL_BYTES`. -/
def residualBytes : UInt64 := pageSize * 1000

/-- `get_free_sys_mem`; the difference is compared as a signed number. -/
def getFreeSysMem (c : Ctx) : M UInt64 := do
  let avail ← reading c.availDomheapPages
  let free := avail * pageSize - residualBytes
  pure (if free < 2 ^ 63 then free else 0)

def getTotMemSize (c : Ctx) : M UInt64 := do
  let free ← getFreeSysMem c
  let s ← get
  let totBytes := s.totUsedBytes + free
  pure (if s.maxMemBytes = 0 then totBytes
    else if totBytes ≤ s.maxMemBytes then totBytes else s.maxMemBytes)

/-- `get_free_mem_size`. -/
def getFreeMemSize (c : Ctx) : M UInt64 := do
  let total ← getTotMemSize c
  let s ← get
  let freeBytes := total - s.totUsedBytes
  pure (if freeBytes.toInt64 ≤ 0 then 0 else freeBytes)

/-- `find_mcd_dom`. Where the C loop runs off the list and returns the list head as if it were
a record, this is `none`. -/
def findMcdDom (domid : Domid) (s : State) : Option McdDomain :=
  s.domains.find? (·.domid = domid)

/-- Changes the first record of a domain. -/
def modifyFirst (domid : Domid) (f : McdDomain → McdDomain) : List McdDomain → List McdDomain
  | [] => []
  | d :: ds => if d.domid = domid then f d :: ds else d :: modifyFirst domid f ds

def State.modifyDom (domid : Domid) (f : McdDomain → McdDomain) (s : State) : State :=
  { s with domains := modifyFirst domid f s.domains }

section
variable {domid : Domid} {f : McdDomain → McdDomain}

theorem find_modifyFirst (hf : ∀ d, (f d).domid = d.domid) (id : Domid) (l : List McdDomain) :
    (modifyFirst domid f l).find? (·.domid = id) =
      if id = domid then (l.find? (·.domid = id)).map f else l.find? (·.domid = id) := by
  induction l with
  | nil => simp [modifyFirst]
  | cons d ds ih =>
    by_cases hd : d.domid = domid
    · by_cases hi : id = domid
      · simp [modifyFirst, hd, hf, hi]
      · have hne : ¬ domid = id := fun h => hi h.symm
        simp [modifyFirst, hd, hf, hi, hne]
    · by_cases hid : d.domid = id
      · have hne : ¬ id = domid := fun h => hd (hid.trans h)
        simp [modifyFirst, hid, hne]
      · simp [modifyFirst, hd, hid, ih]

theorem map_domid_modifyFirst (hf : ∀ d, (f d).domid = d.domid) (l : List McdDomain) :
    (modifyFirst domid f l).map (·.domid) = l.map (·.domid) := by
  induction l with
  | nil => rfl
  | cons d ds ih => by_cases hd : d.domid = domid <;> simp [modifyFirst, hd, hf, ih]

theorem findMcdDom_modifyDom (hf : ∀ d, (f d).domid = d.domid) (id : Domid) (s : State) :
    findMcdDom id (s.modifyDom domid f) =
      if id = domid then (findMcdDom id s).map f else findMcdDom id s :=
  find_modifyFirst hf id s.domains

end

/-- The record a domain pointer refers to. -/
def domOf (domid : Domid) : M McdDomain := do
  match findMcdDom domid (← get) with
  | some d => pure d
  | none => throw .wild

/-- The part of `dom_usage_update` after the reading of the total. -/
def McdDomain.withUsage (total : UInt64) (d : McdDomain) : McdDomain :=
  let ratio := if total = 0 then 0 else (d.nrUsedBytes * 100 / total).toUInt32
  let domRatio := if d.ratio = 0 then 100 else d.ratio
  { d with curr := if d.ratio ≤ 0 then 0 else ratio * 100 / domRatio }

def domUsageUpdate (c : Ctx) (domid : Domid) : M Unit := do
  let total ← getTotMemSize c
  modify (·.modifyDom domid (·.withUsage total))

/-- The loop of `dom_usage_update_all`, which leaves dom0 out. -/
def domUsageUpdateAll (c : Ctx) : List McdDomain → M Unit
  | [] => pure ()
  | d :: ds => do
    if d.domid = 0 then domUsageUpdateAll c ds
    else do
      domUsageUpdate c d.domid
      domUsageUpdateAll c ds

/-- `dom_weight_update`. -/
def State.domWeightUpdate (s : State) : State :=
  if s.totalWeight ≤ 0 then { s with totalWeight := 0 }
  else { s with domains := s.domains.map fun d =>
    { d with ratio := d.weight * 100 / s.totalWeight } }

end UniCache.Mcd
