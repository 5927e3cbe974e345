import UniCache.Mcd.Create

/-! The guest operations: `s_mcd_*` on the shared buckets and `p_mcd_*` on a domain's own list. -/
namespace UniCache.Mcd

/-- What an operation reports to the guest: its code, the size written to `r_val_size`, and the
bytes written to `val`. -/
structure Reply where
  rc : Rc
  rValSize : Option UInt32
  val : Option (List UInt8)
  deriving DecidableEq

def Reply.code (rc : Rc) : Reply := { rc, rValSize := none, val := none }

/-- `find_mcd_hashT`: the key itself is not compared. -/
def findMcdHashT (hash : UInt32) (l : List McdHashT) : Option McdHashT :=
  l.find? (·.hash = hash)

/-- A time difference in nanoseconds, cut to 32-bit milliseconds. -/
def nsToMs (ns : Int) : UInt32 := (UInt64.ofInt ns / 1000000).toUInt32

def nsToSec (ns : Int) : UInt32 := (UInt64.ofInt ns / 1000000000).toUInt32

def countCell (f : Nat → UInt32) (i : Nat) : Nat → UInt32 := Function.update f i (f i + 1)

/-- The histogram update of `s_mcd_put`. -/
def Histograms.noteQuery (ns : Int) (h : Histograms) : Histograms :=
  if nsToMs ns ≥ 1000 then { h with queryTime := countCell h.queryTime 999 }
  else { h with queryTime := countCell h.queryTime (nsToMs ns).toNat }

/-- The histogram update of `s_mcd_get`; a gap below a second is counted by its milliseconds in
the array of seconds. -/
def Histograms.noteReaccess (ns : Int) (h : Histograms) : Histograms :=
  if nsToSec ns = 0 then
    if nsToMs ns ≥ 1000 then { h with reaccessTimeMs := countCell h.reaccessTimeMs 999 }
    else { h with reaccessTime := countCell h.reaccessTime (nsToMs ns).toNat }
  else
    if nsToSec ns ≥ 600 then { h with reaccessTime := countCell h.reaccessTime 599 }
    else { h with reaccessTime := countCell h.reaccessTime (nsToSec ns).toNat }

/-- `P_REC_AVG_CAL`, with `nr_keys` read before it is incremented. -/
def McdDomain.noteCost (ms : UInt32) (d : McdDomain) : McdDomain :=
  { d with
    recCostAvg := (d.recCostAvg * d.nrKeys + ms) / (d.nrKeys + 1)
    nrKeys := d.nrKeys + 1 }

/-- `set_query_time`. -/
def setQueryTime (domid : Domid) (mh : McdHashT) (ms : UInt32) : M McdHashT := do
  modify fun s => { s with
    sd := if ms > s.sd.queryMax then { s.sd with queryMax := ms } else s.sd }
  modify (·.modifyDom domid (·.noteCost ms))
  pure { mh with queryTimeMs := ms }

/-- Deletes the outsourced copy of a hash, as `put` and `remove` do after a miss in memory. -/
def dropOutsourced (c : Ctx) (loc : Loc) (hash : UInt32) : M Unit := do
  match ← findMcdctlHashT loc hash with
  | none => pure ()
  | some mch => do
    minfPageDel c mch.domain mch.hash
    mcdctlFree loc mch

/-- The last part of both `get`s: the access is recorded and the value copied if it fits. -/
def deliver (c : Ctx) (loc : Loc) (mh : McdHashT) (cap : UInt32) (rc : Rc) : M Reply := do
  let now ← readNow c
  let mh' := { mh with ref := mh.ref + 1, putTime := now }
  modify fun s => s.setEntries ((s.entries loc).replace mh mh') loc
  if mh.valSize > cap then pure (.code .errMcdFault)
  else pure { rc, rValSize := some mh.valSize, val := some mh.value }

/-- The header-only entry a lookup leaves behind for a key that is not in memory. -/
def addMeasurement (c : Ctx) (domid : Domid) (loc : Loc) (k : GuestKey) : M Unit := do
  match ← createMcdHashT c domid k.size 0 with
  | none => pure ()
  | some mh =>
    let mh := { mh.fill k ⟨0, [], rfl⟩ with hash := getHash k.bytes }
    modify (·.listAddTail loc mh)

/-- What a lookup writes to `r_val_size`. -/
def checkSize (mh : Option McdHashT) (mch : Option McdctlHashT) : UInt32 :=
  match mh, mch with
  | some mh, _ => mh.valSize
  | none, some mch => mch.valSize
  | none, none => 0 - 2000

section
variable (c : Ctx) (domid : Domid) (k : GuestKey)

/-- `p_mcd_check`. -/
def pMcdCheck : M Reply := do
  let hash := getHash k.bytes
  let d ← domOf domid
  match findMcdHashT hash d.hashList with
  | some mh => pure { rc := .retGetMem, rValSize := some (checkSize (some mh) none), val := none }
  | none => do
    let mch ← findMcdctlHashT (.dom domid) hash
    addMeasurement c domid (.dom domid) k
    pure { rc := if mch.isSome then .retGetSsd else .errNo
           rValSize := some (checkSize none mch), val := none }

/-- `p_mcd_remove`. -/
def pMcdRemove : M Reply := do
  let hash := getHash k.bytes
  let d ← domOf domid
  match findMcdHashT hash d.hashList with
  | some mh => do
    let _ ← pRemoveHashT c domid mh .doNotMoveToSsd
    pure (.code .errNo)
  | none => do
    dropOutsourced c (.dom domid) hash
    pure (.code .errNo)

/-- The first half of `p_mcd_put`, with the query time it computes. The entry that is replaced
is paged out, where `s_mcd_put` discards it. -/
def pMcdReplace (hash : UInt32) : M UInt32 := do
  let d ← domOf domid
  match findMcdHashT hash d.hashList with
  | some mh => do
    let now ← readNow c
    let _ ← pRemoveHashT c domid mh .moveToSsd
    pure (nsToMs (now - mh.putTime))
  | none => do
    dropOutsourced c (.dom domid) hash
    pure 0

/-- The second half of both `put`s. -/
def putEntry (loc : Loc) (v : GuestVal) (ms : UInt32) : M Reply := do
  match ← createHashT c domid k v with
  | none => pure (.code .errMcdFault)
  | some mh => do
    let mh ← setQueryTime domid mh ms
    modify (·.listAddTail loc mh)
    pure { rc := .errNo, rValSize := some mh.valSize, val := none }

/-- `p_mcd_put`. -/
def pMcdPut (v : GuestVal) : M Reply := do
  let ms ← pMcdReplace c domid (getHash k.bytes)
  putEntry c domid k (.dom domid) v ms

/-- `p_mcd_get`. -/
def pMcdGet (cap : UInt32) : M Reply := do
  let hash := getHash k.bytes
  let d ← domOf domid
  match findMcdHashT hash d.hashList with
  | some mh => deliver c (.dom domid) mh cap .retGetMem
  | none => do
    match ← findMcdctlHashT (.dom domid) hash with
    | none => pure (.code .errMcdFault)
    | some mch => do
      match ← mcdPageIn c (.dom domid) mch with
      | none => pure (.code .errMcdFault)
      | some mh => do
        modify (·.listAddTail (.dom domid) mh)
        deliver c (.dom domid) mh cap .retGetSsd

/-- `s_mcd_check`, which drops the code it has computed. -/
def sMcdCheck : M Reply := do
  let hash := getHash k.bytes
  let loc := Loc.bucket (bucketOf hash)
  let s ← get
  match findMcdHashT hash (s.entries loc) with
  | some mh => pure { rc := .errNo, rValSize := some (checkSize (some mh) none), val := none }
  | none => do
    let mch ← findMcdctlHashT loc hash
    addMeasurement c domid loc k
    pure { rc := .errNo, rValSize := some (checkSize none mch), val := none }

/-- The first half of `s_mcd_put`. -/
def sMcdReplace (hash : UInt32) : M UInt32 := do
  let s ← get
  match findMcdHashT hash (s.shared (bucketOf hash)) with
  | some mh => do
    let now ← readNow c
    modify fun s => { s with hist := s.hist.noteQuery (now - mh.putTime) }
    let _ ← sRemoveHashT c (bucketOf hash) mh .doNotMoveToSsd
    pure (nsToMs (now - mh.putTime))
  | none => do
    dropOutsourced c (.bucket (bucketOf hash)) hash
    pure 0

/-- `s_mcd_put`. -/
def sMcdPut (v : GuestVal) : M Reply := do
  let ms ← sMcdReplace c (getHash k.bytes)
  putEntry c domid k (.bucket (bucketOf (getHash k.bytes))) v ms

/-- The statistics block of `s_mcd_get`. -/
def noteAccess (mh : McdHashT) : M Unit := do
  let now ← readNow c
  modify fun s => { s with hist := s.hist.noteReaccess (now - mh.putTime) }

/-- `s_mcd_get`. -/
def sMcdGet (cap : UInt32) : M Reply := do
  let hash := getHash k.bytes
  let loc := Loc.bucket (bucketOf hash)
  let s ← get
  match findMcdHashT hash (s.entries loc) with
  | some mh => do
    noteAccess c mh
    deliver c loc mh cap .retGetMem
  | none => do
    match ← findMcdctlHashT loc hash with
    | none => pure (.code .errMcdFault)
    | some mch => do
      match ← mcdPageIn c loc mch with
      | none => pure (.code .errMcdFault)
      | some mh => do
        modify (·.listAddTail loc mh)
        noteAccess c mh
        deliver c loc mh cap .retGetSsd

/-- `s_mcd_remove`. -/
def sMcdRemove : M Reply := do
  let hash := getHash k.bytes
  let i := bucketOf hash
  let s ← get
  match findMcdHashT hash (s.shared i) with
  | some mh => do
    let _ ← sRemoveHashT c i mh .doNotMoveToSsd
    pure (.code .errNo)
  | none => do
    dropOutsourced c (.bucket i) hash
    pure (.code .errNo)

end

/-- The walk of `p_mcd_flush` over its list, which it initialises at the end. -/
def pFlushEntries (c : Ctx) (domid : Domid) : List McdHashT → M Unit
  | [] => modify (·.setEntries [] (.dom domid))
  | mh :: mhs => do
    let _ ← pRemoveHashT c domid mh .doNotMoveToSsd
    pFlushEntries c domid mhs

/-- `p_mcd_flush`. -/
def pMcdFlush (c : Ctx) (domid : Domid) : M Reply := do
  let d ← domOf domid
  pFlushEntries c domid d.hashList
  mcdctlDomFlush c domid
  pure (.code .errNo)

/-- One bucket of `s_mcd_flush`. -/
def sFlushEntries (c : Ctx) (i : Bucket) : List McdHashT → M Unit
  | [] => modify (·.setEntries [] (.bucket i))
  | mh :: mhs => do
    let _ ← sRemoveHashT c i mh .doNotMoveToSsd
    sFlushEntries c i mhs

def sFlushBuckets (c : Ctx) : List Bucket → M Unit
  | [] => pure ()
  | i :: is => do
    let s ← get
    sFlushEntries c i (s.shared i)
    sFlushBuckets c is

/-- `s_mcd_flush`, for any caller. -/
def sMcdFlush (c : Ctx) : M Reply := do
  sFlushBuckets c (List.finRange 100)
  mcdctlFlush c
  pure (.code .errNo)

/-- `p_mcd_flush_all`, which leaves dom0 out. -/
def pMcdFlushAll (c : Ctx) : List Domid → M Unit
  | [] => modify (·.exitMcdctl)
  | domid :: ids => do
    if domid = 0 then pMcdFlushAll c ids
    else do
      let _ ← pMcdFlush c domid
      pMcdFlushAll c ids

end UniCache.Mcd
