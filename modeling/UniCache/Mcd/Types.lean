import Mathlib.Algebra.Ring.Nat
import Mathlib.Data.UInt
import Mathlib.Logic.Function.Basic
import UniCache.Base.Exec

/-! Data model of the hypervisor cache (`xen/include/xen/mcd.h` and the globals of
`xen/common/mcd.c`): entries, mini headers, domains, counters and the global state.
Locks are absent: a hypercall is one step here. -/
namespace UniCache.Mcd

abbrev Domid := UInt16

/-- `MAX_LIST_HEAD`. -/
abbrev Bucket := Fin 100

inductive CacheMode
  | shared | partition
  deriving DecidableEq, Repr

inductive ReplaceMode
  | lfru | fast | score
  deriving DecidableEq, Repr

inductive PartitionMode
  | be | wb | ad
  deriving DecidableEq, Repr

/-- The second argument of the removal routines. -/
inductive Move
  | moveToSsd | doNotMoveToSsd
  deriving DecidableEq, Repr

/-- Return codes of the operations. `errNo` is `-ERR_NO`, the code of success; `zero`,
`minusOne` and `errBusy` (`-EBUSY`) come from `mcdctl.c`. -/
inductive Rc
  | errNo | retGetMem | retGetSsd | errNoExist | errXenFault | errMcdFault | errNotMem
  | zero | minusOne | errBusy
  deriving DecidableEq, Repr

def pageSize : UInt64 := 4096
def memAlign : UInt64 := 16
def sizeofMcdHashT : UInt64 := 72
def sizeofMcdDomain : UInt64 := 136

def mcdHashTNormal : UInt16 := 0
def mcdHashTMeasurement : UInt16 := 1
/-- Shares its bit with `mcdHashTMeasurement`; no code sets it. -/
def mcdMinfError : UInt16 := 1

/-- A cache entry. `addr` is the pointer; the buffer holds the key followed by the value. -/
structure McdHashT where
  addr : Nat
  domain : Domid
  flags : UInt16
  nrPages : UInt32
  nrBytes : UInt32
  ref : UInt32
  putTime : Int
  queryTimeMs : UInt32
  hash : UInt32
  keySize : UInt32
  valSize : UInt32
  keyVal : List UInt8
  keyVal_length : keyVal.length = keySize.toNat + valSize.toNat
  deriving DecidableEq

/-- The bytes `mcd_get` copies to the guest. -/
def McdHashT.value (mh : McdHashT) : List UInt8 := mh.keyVal.drop mh.keySize.toNat

/-- A mini header, kept for an entry whose bytes are outsourced. It lies in slot `slot` of
header page `page`. -/
structure McdctlHashT where
  page : Nat
  slot : Nat
  domain : Domid
  hash : UInt32
  keySize : UInt32
  valSize : UInt32
  deriving DecidableEq, Repr

structure McdDomain where
  domid : Domid
  hashList : List McdHashT
  mcdctlList : List McdctlHashT
  nrKeys : UInt32
  nrUsedPages : UInt32
  nrUsedBytes : UInt64
  weight : UInt32
  ratio : UInt32
  curr : UInt32
  recCostAvg : UInt32

/-- The counters of `g_mcd_data_t`. -/
structure McdData where
  priNrPages : UInt32
  shrNrPages : UInt32
  priNrBytes : UInt64
  shrNrBytes : UInt64
  priNrKeys : UInt32
  shrNrKeys : UInt32

/-- `g_score_param_t`; only the `mem` instance enters a computation. -/
structure ScoreParam where
  alpha : UInt32
  beta : UInt32
  queryMax : UInt32
  valMax : UInt32

/-- Pages of mini headers and the list of free ones. -/
structure HeaderPool where
  pages : List Nat
  freelist : List (Nat × Nat)
  nextPage : Nat

/-- Access histograms. Cells past an array's end stand for the memory behind it. -/
structure Histograms where
  queryTime : Nat → UInt32
  reaccessTimeMs : Nat → UInt32
  reaccessTime : Nat → UInt32

/-- The outsourced bytes of a domain's hash. -/
abbrev Store := Domid → UInt32 → Option (List UInt8)

structure State where
  domains : List McdDomain
  shared : Bucket → List McdHashT
  mcdctlShared : Bucket → List McdctlHashT
  data : McdData
  store : Store
  pool : HeaderPool
  sd : ScoreParam
  maxMemBytes : UInt64
  cacheMode : CacheMode
  replacementMode : ReplaceMode
  partitionMode : PartitionMode
  mcdctlEnabled : Bool
  mcdctlUserEnabled : Bool
  totalWeight : UInt32
  hist : Histograms
  /-- Readings of the environment taken by the current hypercall. -/
  tick : Nat
  /-- Entries and domains allocated since boot. -/
  nextAddr : Nat

/-- How the transfer of a page-out ends: completed, refused by `minf_page_out`, or broken off
after it was accepted, leaving `left` as the file's contents. -/
inductive PageOut
  | done | refused | broken (left : Option (List UInt8))

/-- How the transfer of a page-in ends: completed, or failed with `got` received. -/
inductive PageIn
  | done | failed (got : List UInt8)

/-- What one hypercall reads from outside, indexed by the number of earlier readings. -/
structure Env where
  now : Nat → Int
  availDomheapPages : Nat → UInt64
  xmalloc : Nat → Bool
  /-- Bytes that unwritten memory holds. -/
  stale : Nat → Nat → UInt8
  pageOut : Nat → PageOut
  pageIn : Nat → PageIn
  /-- Whether a one-way request (delete, flush) finds room on the ring. -/
  sent : Nat → Bool
  /-- Turns granted to the one loop that may never end. -/
  patience : Nat

/-- The environment together with the domains' hit rates, which no operation changes before
its hypercall has returned. -/
structure Ctx extends Env where
  hitrate : Domid → UInt32

/-- Why a computation does not return: an access through a pointer that names no object, or a
loop that does not end. -/
inductive Stop
  | wild | spin
  deriving DecidableEq, Repr

abbrev M (α : Type) := Base.Exec State Stop α

/-- A key as the hypervisor reads it: once to look it up, again when it is stored. -/
structure GuestKey where
  size : UInt32
  bytes : List UInt8
  again : List UInt8
  bytes_length : bytes.length = size.toNat
  again_length : again.length = size.toNat

/-- The guest leaves the key alone during the hypercall. -/
def GuestKey.Stable (k : GuestKey) : Prop := k.again = k.bytes

structure GuestVal where
  size : UInt32
  bytes : List UInt8
  bytes_length : bytes.length = size.toNat

end UniCache.Mcd
