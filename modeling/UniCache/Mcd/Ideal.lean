import UniCache.Base.KeyedList
import UniCache.Base.Mealy
import UniCache.Mcd.Returning

/-! The cache as its users may think of it, a map that forgets nothing, and the calls after which
they are right: those that find memory at once. -/
namespace UniCache.Mcd
open Base Base.Exec

/-- The cache without clocks, counters and limits: the bytes held for each hash in each list. -/
structure Ideal where
  live : List Domid
  mode : CacheMode
  attached : Bool
  held : Loc → UInt32 → Option (List UInt8)

instance : (m : CacheMode) → (loc : Loc) → Decidable (m.Spares loc)
  | .shared, .bucket _ => .isFalse not_false
  | .shared, .dom _ => .isTrue trivial
  | .partition, .bucket _ => .isTrue trivial
  | .partition, .dom d => inferInstanceAs (Decidable (d = 0))

/-- The mode `set_cache_mode` sets when `m` is the current one. -/
def CacheMode.switched (which mode : UInt32) (m : CacheMode) : CacheMode :=
  if which = 0 then if mode = 1 then .partition else .shared
  else if which = 2 then if mode = 1 ∨ mode = 2 then .partition else .shared
  else m

/-- The reply to a `get` of what is held. -/
def getReply (cap : UInt32) : Option (List UInt8) → Reply
  | none => .code .errMcdFault
  | some v => if UInt32.ofNat v.length > cap then .code .errMcdFault
    else { rc := .retGetMem, rValSize := some (UInt32.ofNat v.length), val := some v }

/-- The reply to a lookup. -/
def checkReply (m : CacheMode) : Option (List UInt8) → Reply
  | none => { rc := m.checkRc .errNo, rValSize := some (0 - 2000), val := none }
  | some v => { rc := m.checkRc .retGetMem, rValSize := some (UInt32.ofNat v.length), val := none }

namespace Ideal

def home (i : Ideal) (d : Domid) (k : GuestKey) : Loc := i.mode.home d (getHash k.bytes)

def find (i : Ideal) (d : Domid) (k : GuestKey) : Option (List UInt8) :=
  i.held (i.home d k) (getHash k.bytes)

def set (i : Ideal) (loc : Loc) (hash : UInt32) (x : Option (List UInt8)) : Ideal :=
  { i with held := Function.update i.held loc (Function.update (i.held loc) hash x) }

def assign (i : Ideal) (d : Domid) (k : GuestKey) (x : Option (List UInt8)) : Ideal :=
  i.set (i.home d k) (getHash k.bytes) x

/-- Only the lists in `P` keep what they hold. -/
def keep (i : Ideal) (P : Loc → Prop) [DecidablePred P] : Ideal :=
  { i with held := fun loc => if P loc then i.held loc else fun _ => none }

/-- A lookup that finds nothing leaves an entry without a value. -/
def measure (i : Ideal) (d : Domid) (k : GuestKey) : Ideal :=
  if (i.find d k).isSome then i else i.assign d k (some [])

/-- The lists that a guest's own flush leaves alone. -/
def Untouched (d : Domid) (m : CacheMode) (loc : Loc) : Prop :=
  m = .shared ∧ m.Spares loc ∨ m = .partition ∧ loc ≠ .dom d

instance (d : Domid) (m : CacheMode) (loc : Loc) : Decidable (Untouched d m loc) :=
  inferInstanceAs (Decidable (m = .shared ∧ m.Spares loc ∨ m = .partition ∧ loc ≠ .dom d))

/-- The effect of `set_cache_mode`: what the mode that is left held goes, dom0's own list apart. -/
def switch (i : Ideal) (m : CacheMode) : Ideal :=
  if m = i.mode then i else { i.keep i.mode.Spares with mode := m }

/-- The reply to a command and what is held after it. -/
def step (i : Ideal) : Cmd → Reply × Ideal
  | .get d k cap => (getReply cap (i.find d k), i)
  | .put d k v => ({ rc := .errNo, rValSize := some v.size, val := none }, i.assign d k (some v.bytes))
  | .remove d k => (.code .errNo, i.assign d k none)
  | .check d k => (checkReply i.mode (i.find d k), i.measure d k)
  | .getsize d k => (checkReply i.mode (i.find d k), i.measure d k)
  | .flush d => (.code .errNo, i.keep (Untouched d i.mode))
  | .memsize _ => (.code .errNo, i)
  | .weight _ _ => (.code .errNo, i)
  | .cacheMode which mode => (.code .errNo, i.switch (i.mode.switched which mode))
  | .param which _ param =>
    (.code .errNo, if which = 25 ∧ param = 1 then i.keep i.mode.Spares else i)
  | .create d => (.code .errNo, { i with live := i.live ++ [d] })
  | .destroy d => (.code .errNo, { i.keep (· ≠ .dom d) with live := i.live.erase d })
  | .enable => (.code (if i.attached then .errBusy else .zero), { i with attached := true })
  | .disable => (.code .zero, { i with attached := false })

def start : Ideal := { live := [], mode := .shared, attached := false, held := fun _ _ => none }

/-- The replies to commands made in turn. -/
def replies (i : Ideal) (l : List Cmd) : List Reply := outputs step i l

def after (i : Ideal) (l : List Cmd) : Ideal := stateAfter step i l

end Ideal

/-! ### Calls that find memory at once -/

namespace Tiers

/-- The total `get_tot_mem_size` computes from the number of free pages. -/
def totMemSize (t : Tiers) (avail : UInt64) : UInt64 :=
  let free := avail * pageSize - residualBytes
  let totBytes := t.totUsedBytes + if free < 2 ^ 63 then free else 0
  if t.cfg.maxMemBytes = 0 then totBytes
  else if totBytes ≤ t.cfg.maxMemBytes then totBytes else t.cfg.maxMemBytes

/-- The next allocation of `size` bytes is granted and evicts nothing: `_xmalloc` has memory, and
the total stays below the limit or the mode is the one that does not look at it. -/
structure Room (t : Tiers) (e : Env) (size : UInt64) : Prop where
  granted : ∀ n, e.xmalloc n = true
  fits : t.BestEffort ∨ ∀ n,
    t.totUsedBytes + size + safetyBytes < t.totMemSize (e.availDomheapPages n)

/-- The entry of a hash that a `put` takes the place of. -/
def present (t : Tiers) (d : Domid) (k : GuestKey) : Option McdHashT :=
  findMcdHashT (getHash k.bytes) (t.entries (t.cfg.cacheMode.home d (getHash k.bytes)))

/-- What is left when it has gone. -/
def vacated (t : Tiers) (d : Domid) (k : GuestKey) : Tiers :=
  (t.present d k).elim t (t.drop (t.cfg.cacheMode.home d (getHash k.bytes)))

/-- In partition mode a `put` would page out the value it replaces. -/
def Displaces (t : Tiers) (d : Domid) (k : GuestKey) : Prop :=
  t.cfg.cacheMode = .partition ∧ t.outsourcing ∧
    ∃ mh, t.present d k = some mh ∧ mh.flags = mcdHashTNormal

end Tiers

/-- What a command needs to do its work without eviction: callers with a record, memory for what it
adds, a limit above what is used, and no entry of a domain that goes. -/
def Cmd.Unhindered (t : Tiers) (e : Env) : Cmd → Prop
  | .get d _ _ | .remove d _ | .flush d | .weight d _ => d ∈ t.live
  | .put d k v => d ∈ t.live ∧ k.Stable ∧ ¬ t.Displaces d k ∧
      (t.vacated d k).Room e (entrySize k.size v.size)
  | .check d k | .getsize d k => d ∈ t.live ∧
      (t.present d k = none → t.Room e (entrySize k.size 0))
  | .memsize m => t.BestEffort ∨ memsizeBytes m = 0 ∨ t.totUsedBytes ≤ memsizeBytes m
  | .param which _ p => ¬ (which = 25 ∧ p = 3)
  | .create d => d ∉ t.live ∧ t.Room e sizeofMcdDomain
  | .destroy d => d ∈ t.live ∧ ∀ i, ∀ mh ∈ t.entries (.bucket i), mh.domain ≠ d
  | .cacheMode .. | .enable | .disable => True

def Call.Unhindered (y : System) (a : Call) : Prop := a.cmd.Unhindered y.mcd.tiers a.env

/-- Calls made in turn are each allowed in the state they find, as long as they return. -/
def System.Along (P : System → Call → Prop) (y : System) : List Call → Prop
  | [] => True
  | a :: l => P y a ∧ ∀ r z, y.call a = .ok (r, z) → z.Along P l

theorem System.along_cons {P : System → Call → Prop} {y : System} {a : Call} {l : List Call}
    (ha : P y a) (hl : (y.after [a]).Along P l) : y.Along P (a :: l) :=
  ⟨ha, fun _ _ hcall => after_of_call hcall ▸ hl⟩

end UniCache.Mcd
