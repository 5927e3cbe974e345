import UniCache.Base.Buffer
import UniCache.Mcd.Types

/-! The exchange between Xen (`xen/common/mcdctl.c`) and the daemon (`tools/mcd/mcd.c`): requests and
responses on one ring, bytes in the shared pages. The code never looks at a byte, so the type `β` of
bytes is a parameter. -/
namespace UniCache.Transfer
open Base Mcd

/-- `PAGE_SIZE`. -/
def pageBytes : Nat := 4096

inductive Op
  | put | get
  deriving DecidableEq, Repr

/-- The bits of `flags`. -/
structure Flags where
  new : Bool := false
  cont : Bool := false
  final : Bool := false
  ended : Bool := false
  error : Bool := false
  deriving DecidableEq, Repr

/-- `mcd_event_request_t`, which is also the type of a response. No sum of sizes below reaches
`2 ^ 32`, so they are natural numbers. -/
structure Msg where
  op : Op
  domain : Domid
  flags : Flags
  hash : UInt32
  totsize : Nat
  accsize : Nat
  cursize : Nat
  fd : Nat
  mcdData : Nat
  deriving DecidableEq, Repr

/-- What the transfer reads of an `mcd_hashT_t`; its bytes are in `World.keyVal`. -/
structure Entry where
  domain : Domid
  hash : UInt32
  keySize : UInt32
  valSize : UInt32

def Entry.totsize (mh : Entry) : Nat := (mh.keySize + mh.valSize).toNat

/-- What the daemon's file operations see. -/
structure Disk (β : Type) where
  files : Domid → UInt32 → Option (List β)
  /-- Open descriptors: the file and the offset. -/
  fds : Nat → Option ((Domid × UInt32) × Nat)
  nextFd : Nat
  /-- Whether the directory of domain 0 exists; those of other domains are made on demand. -/
  dir0 : Bool

/-- Xen, the daemon, and what they share. -/
structure World (β : Type) where
  entry : Nat → Entry
  keyVal : Nat → Buffer β
  /-- The shared pages, one after the other. -/
  sharedPage : Buffer β
  requests : List Msg
  responses : List Msg
  putLock : Bool
  getLock : Bool
  disk : Disk β

/-- Slots of the ring page. -/
def ringSlots : Nat := 64

section
variable {β : Type}

/-- `mcd_event_check_ring`, with `MCD_EVENT_RING_THRESHOLD` 4. -/
def World.ringFull (x : World β) : Bool :=
  ringSlots - (x.requests.length + x.responses.length) < 4

/-- The loop of `mcdctl_page_out` over the pages that are left. -/
def fillPages (kv : Buffer β) : Nat → Nat → Msg → Buffer β → Msg × Buffer β
  | 0, _, req, shared => (req, shared)
  | left + 1, page, req, shared =>
    if req.totsize - req.accsize > pageBytes then
      let shared := shared.memcpy (pageBytes * page) kv req.accsize pageBytes
      let req := { req with
        cursize := req.cursize + pageBytes
        accsize := req.accsize + pageBytes
        flags := { req.flags with cont := true } }
      if req.totsize - req.accsize ≤ 0 then
        ({ req with flags := { req.flags with final := true } }, shared)
      else fillPages kv left (page + 1) req shared
    else
      let rest := req.totsize - req.accsize
      ({ req with
          cursize := req.cursize + rest
          accsize := req.accsize + rest
          flags := { req.flags with final := true } },
        shared.memcpy (pageBytes * page) kv req.accsize rest)

/-- `mcdctl_page_out`; `none` is the result -1. -/
def mcdctlPageOut (n addr : Nat) (rsp : Option Msg) (x : World β) : Option (World β) :=
  if x.ringFull then none
  else
    let mh := x.entry addr
    let req : Msg :=
      { op := .put, domain := mh.domain, flags := { new := rsp.isNone }, hash := mh.hash
        totsize := mh.totsize, accsize := (rsp.map (·.accsize)).getD 0, cursize := 0
        fd := (rsp.map (·.fd)).getD 0, mcdData := addr }
    let r := fillPages (x.keyVal addr) n 0 req x.sharedPage
    some { x with sharedPage := r.2, requests := x.requests ++ [r.1] }

/-- The loop of `mcdctl_page_in`. After a rest of less than a page it moves the sizes by the size of
the whole response. -/
def takePages (shared : Buffer β) (rspCur : Nat) :
    Nat → Nat → Nat → Nat → Buffer β → (Nat × Nat) × Buffer β
  | 0, _, acc, cur, kv => ((acc, cur), kv)
  | left + 1, page, acc, cur, kv =>
    if cur ≥ pageBytes then
      let kv := kv.memcpy acc shared (pageBytes * page) pageBytes
      if cur - pageBytes ≤ 0 then ((acc + pageBytes, cur - pageBytes), kv)
      else takePages shared rspCur left (page + 1) (acc + pageBytes) (cur - pageBytes) kv
    else
      ((acc + rspCur, (cur + 2 ^ 32 - rspCur) % 2 ^ 32),
        kv.memcpy acc shared (pageBytes * page) cur)

/-- `mcdctl_page_in`: asks for the file, or takes what a response brought and asks for more. -/
def mcdctlPageIn (n addr : Nat) (rsp : Option Msg) (x : World β) : Option (World β) :=
  if x.ringFull then none
  else
    let mh := x.entry addr
    let req : Msg :=
      { op := .get, domain := mh.domain, flags := {}, hash := mh.hash, totsize := mh.totsize
        accsize := 0, cursize := 0, fd := 0, mcdData := addr }
    match rsp with
    | none => some { x with requests := x.requests ++ [{ req with flags := { new := true } }] }
    | some rsp =>
      if rsp.cursize = 0 then none
      else
        let r := takePages x.sharedPage rsp.cursize n 0 rsp.accsize rsp.cursize (x.keyVal addr)
        let x := { x with keyVal := Function.update x.keyVal addr r.2 }
        if rsp.flags.final then some x
        else some { x with requests := x.requests ++
          [{ req with accsize := r.1.1, cursize := r.1.2, fd := rsp.fd }] }

def Disk.setFile (d : Domid) (h : UInt32) (c : Option (List β)) (k : Disk β) : Disk β :=
  { k with files := fun d' h' => if d' = d ∧ h' = h then c else k.files d' h' }

/-- `open` with `O_CREAT | O_TRUNC | O_RDWR`. Descriptor numbers are not used twice here. -/
def Disk.openFile (d : Domid) (h : UInt32) (k : Disk β) : Option (Nat × Disk β) :=
  if d = 0 ∧ ¬ k.dir0 then none
  else some (k.nextFd, { k.setFile d h (some []) with
    fds := Function.update k.fds k.nextFd (some ((d, h), 0))
    nextFd := k.nextFd + 1 })

/-- What a descriptor's file holds. -/
def Disk.content (k : Disk β) (fd : Nat) : List β :=
  match k.fds fd with
  | none => []
  | some ((d, h), _) => (k.files d h).getD []

/-- `my_write` at the descriptor's offset. -/
def Disk.write (fd : Nat) (data : List β) (k : Disk β) : Disk β :=
  match k.fds fd with
  | none => k
  | some ((d, h), off) =>
    let file := (k.files d h).getD []
    { k.setFile d h (some (file.take off ++ data ++ file.drop (off + data.length))) with
      fds := Function.update k.fds fd (some ((d, h), off + data.length)) }

def Disk.close (fd : Nat) (k : Disk β) : Disk β :=
  if fd = 0 then k else { k with fds := Function.update k.fds fd none }

/-- The loop of the `PUT` case, with the `cursize` it leaves. -/
def writePages (fd : Nat) (shared : Buffer β) : Nat → Nat → Nat → Disk β → Nat × Disk β
  | 0, _, cur, k => (cur, k)
  | left + 1, page, cur, k =>
    if cur ≥ pageBytes then
      let k := k.write fd (shared.bytes (pageBytes * page) pageBytes)
      if cur - pageBytes ≤ 0 then (cur - pageBytes, k)
      else writePages fd shared left (page + 1) (cur - pageBytes) k
    else (cur - cur, k.write fd (shared.bytes (pageBytes * page) cur))

/-- The descriptor and disk a request continues with: a new one opens, and truncates, its file. -/
def Disk.fdFor (req : Msg) (k : Disk β) : Option (Nat × Disk β) :=
  if req.flags.new then k.openFile req.domain req.hash else some (req.fd, k)

/-- The `PUT` case: its response and the disk it leaves. -/
def servePut (n : Nat) (req : Msg) (shared : Buffer β) (k : Disk β) : Msg × Disk β :=
  match k.fdFor req with
  | none => ({ req with flags := { req.flags with new := false, error := true } }, k)
  | some (fd, k) =>
    let req := { req with flags := { req.flags with new := false }, fd := fd }
    let r := writePages fd shared n 0 req.cursize k
    let rsp := { req with cursize := r.1 }
    if rsp.flags.final then ({ rsp with fd := 0 }, r.2.close fd) else (rsp, r.2)

/-- The loop of the `GET` case: sizes, flags, and the shared pages. -/
def readPages (file : List β) : Nat → Nat → Nat → Nat → Msg → Buffer β → Msg × Buffer β
  | 0, _, _, _, req, shared => (req, shared)
  | left + 1, page, leftSize, startByte, req, shared =>
    if leftSize ≥ pageBytes then
      let shared := shared.readInto (pageBytes * page) file startByte pageBytes
      let req := { req with
        cursize := req.cursize + pageBytes
        flags := { req.flags with cont := true } }
      if leftSize - pageBytes ≤ 0 then
        ({ req with flags := { req.flags with final := true } }, shared)
      else readPages file left (page + 1) (leftSize - pageBytes) (startByte + pageBytes) req shared
    else
      ({ req with
          cursize := req.cursize + leftSize
          flags := { req.flags with final := true } },
        shared.readInto (pageBytes * page) file startByte leftSize)

/-- The `GET` case, which deletes the file after the last part. The offset of a later part is one
too far. -/
def serveGet (n : Nat) (req : Msg) (shared : Buffer β) (k : Disk β) :
    Msg × Buffer β × Disk β :=
  match k.fdFor req with
  | none => ({ req with flags := { req.flags with new := false, error := true } }, shared, k)
  | some (fd, k) =>
    let req := { req with flags := { req.flags with new := false }, fd := fd }
    let start := if req.accsize = 0 then 0 else req.accsize + 1
    let r := readPages (k.content fd) n 0 (req.totsize - req.accsize) start
      { req with cursize := 0 } shared
    if r.1.flags.final then
      ({ r.1 with fd := 0 }, r.2, (k.close fd).setFile req.domain req.hash none)
    else (r.1, r.2, k)

/-- The `switch` on the type of a request. -/
def World.answer (n : Nat) (req : Msg) (x : World β) : Msg × World β :=
  match req.op with
  | .put =>
    let r := servePut n req x.sharedPage x.disk
    (r.1, { x with disk := r.2 })
  | .get =>
    let r := serveGet n req x.sharedPage x.disk
    (r.1, { x with sharedPage := r.2.1, disk := r.2.2 })

/-- The daemon takes one request and answers it. -/
def World.serve (n : Nat) (x : World β) : Option (World β) :=
  match x.requests with
  | [] => none
  | req :: rest =>
    let r := World.answer n req { x with requests := rest }
    some { r.2 with responses := r.2.responses ++ [r.1] }

/-- The end of an exchange, successful or not. -/
def World.unlock (op : Op) (x : World β) : World β :=
  match op with
  | .put => { x with putLock := false }
  | .get => { x with getLock := false }

/-- The body of `mcd_event_resume`. -/
def mcdEventResume (n : Nat) (rsp : Msg) (x : World β) : World β :=
  if rsp.flags = {} then x.unlock rsp.op
  else if rsp.flags.error then x.unlock rsp.op
  else if rsp.flags.ended then x
  else match rsp.op with
    | .get => match mcdctlPageIn n rsp.mcdData (some rsp) x with
      | none => x.unlock .get
      | some x => if rsp.flags.final then x.unlock .get else x
    | .put =>
      if rsp.flags.final then x.unlock .put
      else match mcdctlPageOut n rsp.mcdData (some rsp) x with
        | none => x.unlock .put
        | some x => x

/-- Xen takes one response. -/
def World.resume (n : Nat) (x : World β) : Option (World β) :=
  match x.responses with
  | [] => none
  | rsp :: rest => some (mcdEventResume n rsp { x with responses := rest })

/-- `minf_page_out` once the lock is free: `none` while it is taken; the second component tells
whether the transfer was accepted. -/
def minfPageOut (n addr : Nat) (x : World β) : Option (World β × Bool) :=
  if x.putLock then none
  else match mcdctlPageOut n addr none { x with putLock := true } with
    | none => some (x, false)
    | some x => some (x, true)

/-- `minf_page_in`. -/
def minfPageIn (n addr : Nat) (x : World β) : Option (World β × Bool) :=
  if x.getLock then none
  else match mcdctlPageIn n addr none { x with getLock := true } with
    | none => some (x, false)
    | some x => some (x, true)

end
end UniCache.Transfer
