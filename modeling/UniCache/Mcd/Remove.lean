import UniCache.Mcd.Outsource

/-! Removal of entries: `remove_hashT`, `remove_hashT_wo_page_out`, `p_remove_hashT` and
`s_remove_hashT`. -/
namespace UniCache.Mcd

def State.entries (s : State) : Loc → List McdHashT
  | .bucket i => s.shared i
  | .dom domid => match findMcdDom domid s with
    | some d => d.hashList
    | none => []

def State.setEntries (s : State) (l : List McdHashT) : Loc → State
  | .bucket i => { s with shared := Function.update s.shared i l }
  | .dom domid => s.modifyDom domid fun d => { d with hashList := l }

/-- `list_del`. -/
def State.listDel (s : State) (loc : Loc) (mh : McdHashT) : State :=
  s.setEntries ((s.entries loc).erase mh) loc

/-- `list_add_tail`. -/
def State.listAddTail (s : State) (loc : Loc) (mh : McdHashT) : State :=
  s.setEntries (s.entries loc ++ [mh]) loc

def McdHashT.bytes (mh : McdHashT) : UInt64 := mh.nrBytes.toUInt64

/-- The counters of a cache mode, raised by an entry. -/
def McdData.charge (mh : McdHashT) (t : McdData) : CacheMode → McdData
  | .shared => { t with
      shrNrPages := t.shrNrPages + mh.nrPages
      shrNrBytes := t.shrNrBytes + mh.bytes
      shrNrKeys := t.shrNrKeys + 1 }
  | .partition => { t with
      priNrPages := t.priNrPages + mh.nrPages
      priNrBytes := t.priNrBytes + mh.bytes
      priNrKeys := t.priNrKeys + 1 }

def McdData.discharge (mh : McdHashT) (t : McdData) : CacheMode → McdData
  | .shared => { t with
      shrNrPages := t.shrNrPages - mh.nrPages
      shrNrBytes := t.shrNrBytes - mh.bytes
      shrNrKeys := t.shrNrKeys - 1 }
  | .partition => { t with
      priNrPages := t.priNrPages - mh.nrPages
      priNrBytes := t.priNrBytes - mh.bytes
      priNrKeys := t.priNrKeys - 1 }

def McdDomain.charge (mh : McdHashT) (d : McdDomain) : McdDomain :=
  { d with
    nrUsedPages := d.nrUsedPages + mh.nrPages
    nrUsedBytes := d.nrUsedBytes + mh.bytes
    nrKeys := d.nrKeys + 1 }

def McdDomain.discharge (mh : McdHashT) (d : McdDomain) : McdDomain :=
  { d with
    nrUsedPages := d.nrUsedPages - mh.nrPages
    nrUsedBytes := d.nrUsedBytes - mh.bytes
    nrKeys := d.nrKeys - 1 }

def State.chargeData (s : State) (mh : McdHashT) (m : CacheMode) : State :=
  { s with data := s.data.charge mh m }

def State.dischargeData (s : State) (mh : McdHashT) (m : CacheMode) : State :=
  { s with data := s.data.discharge mh m }

/-- `remove_hashT`; the entry is linked at `loc`. -/
def removeHashT (c : Ctx) (loc : Loc) (mh : McdHashT) : M Unit := do
  modify (·.listDel loc mh)
  mcdPageOut c mh

def removeHashTWoPageOut (loc : Loc) (mh : McdHashT) : M Unit := modify (·.listDel loc mh)

/-- The end of both removal routines. -/
def unlinkHashT (c : Ctx) (loc : Loc) (mh : McdHashT) (flag : Move) : M Unit :=
  if flag = .moveToSsd ∧ mh.flags = mcdHashTNormal then removeHashT c loc mh
  else removeHashTWoPageOut loc mh

/-- `p_remove_hashT` for a record that exists; the entry is in the domain's own list. -/
def pRemoveHashT (c : Ctx) (domid : Domid) (mh : McdHashT) (flag : Move) : M UInt64 := do
  modify (·.dischargeData mh .partition)
  let _ ← domOf domid
  modify (·.modifyDom domid (·.discharge mh))
  unlinkHashT c (.dom domid) mh flag
  domUsageUpdate c domid
  pure mh.bytes

/-- `s_remove_hashT` for an entry of bucket `i`. -/
def sRemoveHashT (c : Ctx) (i : Bucket) (mh : McdHashT) (flag : Move) : M UInt64 := do
  modify (·.dischargeData mh .shared)
  let _ ← domOf mh.domain
  modify (·.modifyDom mh.domain (·.discharge mh))
  unlinkHashT c (.bucket i) mh flag
  pure mh.bytes

end UniCache.Mcd
