import UniCache.Mcd.Memory

/-! Mini headers and the outsourced store: `mcdctl_malloc`, `mcdctl_free`, `mcd_page_out`, the
flushes, and the one-way requests to the daemon. -/
namespace UniCache.Mcd

/-- `MAX_PAGES_FOR_MCDCTL`. -/
def maxPagesForMcdctl : Nat := 40960

/-- `PAGE_SIZE / sizeof(mcdctl_hashT_t)`. -/
def headersPerPage : Nat := 102

def State.outsourcing (s : State) : Bool := s.mcdctlEnabled && s.mcdctlUserEnabled

/-- `mcdctl_new_malloc`. -/
def mcdctlNewMalloc (c : Ctx) : M Unit := do
  let s ← get
  if ¬ s.outsourcing then pure ()
  else if maxPagesForMcdctl ≤ s.pool.pages.length then pure ()
  else do
    let ok ← reading c.xmalloc
    if ok then modify fun s => { s with pool :=
      { pages := s.pool.pages ++ [s.pool.nextPage]
        freelist := (List.range headersPerPage).map fun i => (s.pool.nextPage, i)
        nextPage := s.pool.nextPage + 1 } }
    else pure ()

/-- The part of `mcdctl_malloc` under the lock. -/
def takeFree : M (Option (Nat × Nat)) := do
  let s ← get
  match s.pool.freelist with
  | [] => pure none
  | p :: ps => do
    set { s with pool := { s.pool with freelist := ps } }
    pure (some p)

def mcdctlMalloc (c : Ctx) : M (Option (Nat × Nat)) := do
  let s ← get
  if ¬ s.outsourcing then pure none
  else if s.pool.freelist = [] then do
    mcdctlNewMalloc c
    takeFree
  else takeFree

/-- Where an entry or a header is linked: a shared bucket or a domain's own list. -/
inductive Loc
  | bucket (i : Bucket)
  | dom (domid : Domid)
  deriving DecidableEq

def State.headers (s : State) : Loc → List McdctlHashT
  | .bucket i => s.mcdctlShared i
  | .dom domid => match findMcdDom domid s with
    | some d => d.mcdctlList
    | none => []

def State.setHeaders (s : State) (l : List McdctlHashT) : Loc → State
  | .bucket i => { s with mcdctlShared := Function.update s.mcdctlShared i l }
  | .dom domid => s.modifyDom domid fun d => { d with mcdctlList := l }

/-- A header list may be walked or relinked only while all its headers lie in pages that have
not been released. -/
def State.intact (s : State) (loc : Loc) : Bool :=
  (s.headers loc).all fun mch => s.pool.pages.contains mch.page

def checkIntact (loc : Loc) : M Unit := do
  let s ← get
  if s.intact loc then pure () else throw .wild

/-- `find_mcdctl_hashT` on the list at `loc`. -/
def findMcdctlHashT (loc : Loc) (hash : UInt32) : M (Option McdctlHashT) := do
  checkIntact loc
  let s ← get
  pure ((s.headers loc).find? (·.hash = hash))

/-- `mcdctl_free`: does nothing while outsourcing is off. -/
def mcdctlFree (loc : Loc) (mch : McdctlHashT) : M Unit := do
  checkIntact loc
  let s ← get
  if ¬ s.outsourcing then pure ()
  else
    let s := s.setHeaders ((s.headers loc).erase mch) loc
    set { s with pool := { s.pool with freelist := (mch.page, mch.slot) :: s.pool.freelist } }

def Store.set (st : Store) (d : Domid) (h : UInt32) (x : Option (List UInt8)) : Store :=
  fun d' h' => if d' = d ∧ h' = h then x else st d' h'

/-- A one-way request takes effect when outsourcing is on and the ring has room. -/
def minfRequest (c : Ctx) (f : Store → Store) : M Unit := do
  let s ← get
  if s.mcdctlEnabled then do
    let ok ← reading c.sent
    if ok then modify fun s => { s with store := f s.store } else pure ()
  else pure ()

def minfPageDel (c : Ctx) (d : Domid) (h : UInt32) : M Unit := minfRequest c (·.set d h none)

def minfPageFlush (c : Ctx) : M Unit := minfRequest c fun _ _ _ => none

def minfPageDomFlush (c : Ctx) (domid : Domid) : M Unit :=
  minfRequest c fun st d h => if d = domid then none else st d h

/-- The store after the transfer of an entry was accepted. -/
def PageOut.file (mh : McdHashT) : PageOut → Option (List UInt8)
  | .broken left => left
  | _ => some mh.keyVal

/-- `create_mcdctl_hashT`: the check of the allocation tests the wrong pointer, so a missing
header is written through. -/
def createMcdctlHashT (c : Ctx) (mh : McdHashT) : M McdctlHashT := do
  match ← mcdctlMalloc c with
  | none => throw .wild
  | some (page, slot) =>
    pure { page, slot, domain := mh.domain, hash := mh.hash, keySize := mh.keySize,
           valSize := mh.valSize }

/-- The list `mcd_page_out` links a header into. -/
def State.pageOutLoc (s : State) (mh : McdHashT) : Loc :=
  match s.cacheMode with
  | .shared => .bucket (bucketOf mh.hash)
  | .partition => .dom mh.domain

/-- The end of `mcd_page_out`: the header is made and linked. -/
def linkHeader (c : Ctx) (mh : McdHashT) : M Unit := do
  let mch ← createMcdctlHashT c mh
  let s ← get
  let loc := s.pageOutLoc mh
  checkIntact loc
  match s.cacheMode, findMcdDom mh.domain s with
  | .partition, none => throw .wild
  | _, _ => set (s.setHeaders (s.headers loc ++ [mch]) loc)

/-- `mcd_page_out`. A transfer that breaks off after it was accepted releases the same lock as
one that completes, and `mcdMinfError` is never set, so both are taken for a success. -/
def mcdPageOut (c : Ctx) (mh : McdHashT) : M Unit := do
  let s ← get
  if ¬ s.outsourcing then pure ()
  else do
    match ← reading c.pageOut with
    | .refused => pure ()
    | out => do
      modify fun s => { s with store := s.store.set mh.domain mh.hash (out.file mh) }
      if mh.flags &&& mcdMinfError ≠ 0 then pure () else linkHeader c mh

/-- `mcd_page_out` with its result, which `remove_hashT` drops. -/
def mcdPageOutRc (c : Ctx) (mh : McdHashT) : M Rc := do
  let s ← get
  if ¬ s.outsourcing then pure .minusOne
  else do
    match ← reading c.pageOut with
    | .refused => pure .minusOne
    | out => do
      modify fun s => { s with store := s.store.set mh.domain mh.hash (out.file mh) }
      if mh.flags &&& mcdMinfError ≠ 0 then pure .minusOne
      else do
        linkHeader c mh
        pure .zero

/-- `exit_mcdctl`. -/
def State.exitMcdctl (s : State) : State :=
  { s with pool := { s.pool with pages := [], freelist := [] } }

/-- The loop both flushes share: every header of the list is freed, then the list head is
initialised. -/
def flushHeaders (loc : Loc) : List McdctlHashT → M Unit
  | [] => modify (·.setHeaders [] loc)
  | mch :: mchs => do
    mcdctlFree loc mch
    flushHeaders loc mchs

def flushBuckets : List Bucket → M Unit
  | [] => pure ()
  | i :: is => do
    let s ← get
    flushHeaders (.bucket i) (s.mcdctlShared i)
    flushBuckets is

def mcdctlFlush (c : Ctx) : M Unit := do
  flushBuckets (List.finRange 100)
  minfPageFlush c
  modify (·.exitMcdctl)

def mcdctlDomFlush (c : Ctx) (domid : Domid) : M Unit := do
  let s ← get
  flushHeaders (.dom domid) (s.headers (.dom domid))
  minfPageDomFlush c domid

end UniCache.Mcd
