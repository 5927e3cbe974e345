import UniCache.Mcd.PartitionReclaim

/-! Allocation of entries: `mcd_malloc`, `create_mcd_hashT`, `create_hashT`, and `mcd_page_in`. -/
namespace UniCache.Mcd

/-- The reclaim routine of the current cache mode. -/
def cacheFree (c : Ctx) (amount : UInt64) (domid : Domid) : M Rc := do
  let s ← get
  match s.cacheMode with
  | .shared => sharedCacheFree c amount
  | .partition => partitionCacheFree c amount domid

/-- `SAFETY_BYTES`. -/
def safetyBytes : UInt64 := pageSize

/-- The first trial of `mcd_malloc`: room is made when the request would reach the limit. -/
def firstTrial (c : Ctx) (size maxBytes : UInt64) (domid : Domid) : M Rc := do
  let s ← get
  if s.totUsedBytes + size + safetyBytes ≥ maxBytes then cacheFree c (size + safetyBytes) domid
  else pure .errNo

def allocateIf (c : Ctx) (rc : Rc) : M (Option Nat) :=
  if rc = .errNo then xmalloc c else pure none

/-- The second trial, when there is no pointer yet. -/
def secondTrial (c : Ctx) (size : UInt64) (domid : Domid) : M (Option Nat) := do
  let rc ← cacheFree c (size + safetyBytes) domid
  allocateIf c rc

/-- `mcd_malloc`. -/
def mcdMalloc (c : Ctx) (size : UInt64) (domid : Domid) : M (Option Nat) := do
  let maxBytes ← getTotMemSize c
  if size = 0 then pure none
  else do
    let rc ← firstTrial c size maxBytes domid
    let val ← allocateIf c rc
    match val with
    | some p => pure (some p)
    | none => secondTrial c size domid

/-- The rounding in `create_mcd_hashT`. Above a page a multiple of the page size still grows by
a page. -/
def roundSize (size : UInt64) : UInt64 :=
  if size > pageSize then size + (pageSize - size % pageSize)
  else if size % memAlign > 0 then size + (memAlign - size % memAlign)
  else size

def entrySize (keySize valSize : UInt32) : UInt64 :=
  roundSize (sizeofMcdHashT + keySize.toUInt64 + valSize.toUInt64)

/-- A buffer of `n` bytes that holds `got` at its start and is otherwise as it was. -/
def fillBuf (n : Nat) (got : List UInt8) (stale : Nat → UInt8) : List UInt8 :=
  got.take n ++ (List.range' got.length (n - got.length)).map stale

@[simp] theorem fillBuf_length (n : Nat) (got : List UInt8) (stale : Nat → UInt8) :
    (fillBuf n got stale).length = n := by
  simp only [fillBuf, List.length_append, List.length_take, List.length_map, List.length_range']
  omega

theorem fillBuf_full {n : Nat} {got : List UInt8} (stale : Nat → UInt8) (h : got.length = n) :
    fillBuf n got stale = got := by
  subst h
  simp [fillBuf]

/-- `set_val_size`, which raises `query_max` where `val_max` is meant. -/
def ScoreParam.noteVal (v : UInt32) (sd : ScoreParam) : ScoreParam :=
  if v > sd.queryMax then { sd with queryMax := v } else sd

/-- The header `create_mcd_hashT` fills in, over a buffer it does not write. -/
def freshHashT (addr : Nat) (domid : Domid) (keySize valSize : UInt32) (now : Int)
    (stale : Nat → UInt8) : McdHashT where
  addr := addr
  domain := domid
  flags := if valSize = 0 then mcdHashTMeasurement else mcdHashTNormal
  nrPages := (entrySize keySize valSize / pageSize).toUInt32 +
    (if entrySize keySize valSize % pageSize > 0 then 1 else 0)
  nrBytes := (entrySize keySize valSize).toUInt32
  ref := 0
  putTime := now
  queryTimeMs := 0
  hash := 0
  keySize := keySize
  valSize := valSize
  keyVal := fillBuf (keySize.toNat + valSize.toNat) [] stale
  keyVal_length := fillBuf_length _ _ _

def createMcdHashT (c : Ctx) (domid : Domid) (keySize valSize : UInt32) :
    M (Option McdHashT) := do
  match ← mcdMalloc c (entrySize keySize valSize) domid with
  | none => pure none
  | some addr => do
    let now ← readNow c
    let stale ← reading c.stale
    let mh := freshHashT addr domid keySize valSize now stale
    modify fun s => { s with sd := s.sd.noteVal valSize }
    modify fun s => s.chargeData mh s.cacheMode
    let _ ← domOf domid
    modify (·.modifyDom domid (·.charge mh))
    pure (some mh)

/-- The entry with its buffer filled from the guest. -/
def McdHashT.fill (mh : McdHashT) (k : GuestKey) (v : GuestVal) : McdHashT :=
  { mh with
    hash := getHash k.again
    keySize := k.size
    valSize := v.size
    keyVal := k.again ++ v.bytes
    keyVal_length := by rw [List.length_append, k.again_length, v.bytes_length] }

def createHashT (c : Ctx) (domid : Domid) (k : GuestKey) (v : GuestVal) :
    M (Option McdHashT) := do
  match ← createMcdHashT c domid k.size v.size with
  | none => pure none
  | some mh => pure (some (mh.fill k v))

/-- The entry with the bytes a transfer delivered. -/
def McdHashT.receive (mh : McdHashT) (hash : UInt32) (got : List UInt8) (stale : Nat → UInt8) :
    McdHashT :=
  { mh with
    hash := hash
    keyVal := fillBuf (mh.keySize.toNat + mh.valSize.toNat) got stale
    keyVal_length := fillBuf_length _ _ _ }

/-- The transfer of a page-in. What the file does not supply is left from earlier transfers. -/
def transferIn (c : Ctx) (mch : McdctlHashT) (mh : McdHashT) : M McdHashT := do
  let out ← reading c.pageIn
  let stale ← reading c.stale
  let s ← get
  match out with
  | .done => do
    set { s with store := s.store.set mch.domain mch.hash none }
    pure (mh.receive mch.hash ((s.store mch.domain mch.hash).getD []) stale)
  | .failed got => pure (mh.receive mch.hash got stale)

/-- `mcd_page_in` of a header linked at `loc`. A transfer that fails is not noticed. -/
def mcdPageIn (c : Ctx) (loc : Loc) (mch : McdctlHashT) : M (Option McdHashT) := do
  let s ← get
  if ¬ s.outsourcing then pure none
  else do
    match ← createMcdHashT c mch.domain mch.keySize mch.valSize with
    | none => pure none
    | some mh => do
      let mh ← transferIn c mch mh
      -- the error path unlinks an entry that was never linked
      if mh.flags &&& mcdMinfError ≠ 0 then throw .wild
      else do
        mcdctlFree loc mch
        pure (some mh)

end UniCache.Mcd
