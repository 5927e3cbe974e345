import UniCache.Mcd.Control

/-! The two tiers as an abstract machine. `State.tiers` forgets clocks, scores, weights and the
header pool. What is left changes only by the acts below, so an invariant is proved once per act. -/
namespace UniCache.Mcd

/-- The settings that only control operations change. -/
structure Config where
  maxMemBytes : UInt64
  cacheMode : CacheMode
  replacementMode : ReplaceMode
  partitionMode : PartitionMode
  mcdctlEnabled : Bool
  mcdctlUserEnabled : Bool

@[ext] structure Tiers where
  live : List Domid
  entries : Loc → List McdHashT
  headers : Loc → List McdctlHashT
  usedPages : Domid → UInt32
  usedBytes : Domid → UInt64
  data : McdData
  store : Store
  cfg : Config

def State.config (s : State) : Config where
  maxMemBytes := s.maxMemBytes
  cacheMode := s.cacheMode
  replacementMode := s.replacementMode
  partitionMode := s.partitionMode
  mcdctlEnabled := s.mcdctlEnabled
  mcdctlUserEnabled := s.mcdctlUserEnabled

def State.tiers (s : State) : Tiers where
  live := s.domids
  entries := s.entries
  headers := s.headers
  usedPages := fun d => ((findMcdDom d s).map (·.nrUsedPages)).getD 0
  usedBytes := fun d => ((findMcdDom d s).map (·.nrUsedBytes)).getD 0
  data := s.data
  store := s.store
  cfg := s.config

/-- The mode whose counters a list belongs to. -/
def Loc.mode : Loc → CacheMode
  | .bucket _ => .shared
  | .dom _ => .partition

/-- The domain an entry at `loc` is charged to. -/
def Loc.payer (mh : McdHashT) : Loc → Domid
  | .bucket _ => mh.domain
  | .dom domid => domid

/-- The mini header kept for an entry. -/
def McdHashT.header (mh : McdHashT) (page slot : Nat) : McdctlHashT where
  page := page
  slot := slot
  domain := mh.domain
  hash := mh.hash
  keySize := mh.keySize
  valSize := mh.valSize

namespace Tiers

def outsourcing (t : Tiers) : Bool := t.cfg.mcdctlEnabled && t.cfg.mcdctlUserEnabled

/-- `TOT_USED_BYTES()`. -/
def totUsedBytes (t : Tiers) : UInt64 := t.data.priNrBytes + t.data.shrNrBytes

/-- The partition mode that reclaims nothing. -/
def BestEffort (t : Tiers) : Prop := t.cfg.cacheMode = .partition ∧ t.cfg.partitionMode = .be

/-- The list `mcd_page_out` links a header into. -/
def pageOutLoc (t : Tiers) (mh : McdHashT) : Loc :=
  match t.cfg.cacheMode with
  | .shared => .bucket (bucketOf mh.hash)
  | .partition => .dom mh.domain

/-- An entry leaves memory and is no longer accounted for. -/
def drop (t : Tiers) (loc : Loc) (mh : McdHashT) : Tiers :=
  { t with
    entries := Function.update t.entries loc ((t.entries loc).erase mh)
    usedPages := Function.update t.usedPages (loc.payer mh)
      (t.usedPages (loc.payer mh) - mh.nrPages)
    usedBytes := Function.update t.usedBytes (loc.payer mh)
      (t.usedBytes (loc.payer mh) - mh.bytes)
    data := t.data.discharge mh loc.mode }

/-- An entry is accounted for. -/
def charge (t : Tiers) (payer : Domid) (m : CacheMode) (mh : McdHashT) : Tiers :=
  { t with
    usedPages := Function.update t.usedPages payer (t.usedPages payer + mh.nrPages)
    usedBytes := Function.update t.usedBytes payer (t.usedBytes payer + mh.bytes)
    data := t.data.charge mh m }

/-- An entry is accounted for and linked. -/
def link (t : Tiers) (loc : Loc) (mh : McdHashT) : Tiers :=
  { t.charge (loc.payer mh) loc.mode mh with
    entries := Function.update t.entries loc (t.entries loc ++ [mh]) }

def setHeaders (t : Tiers) (loc : Loc) (l : List McdctlHashT) : Tiers :=
  { t with headers := Function.update t.headers loc l }

def setStore (t : Tiers) (d : Domid) (h : UInt32) (x : Option (List UInt8)) : Tiers :=
  { t with store := t.store.set d h x }

/-- The outsourced copy of an entry: its file and its header. -/
def outsource (t : Tiers) (mh : McdHashT) (file : Option (List UInt8)) (page slot : Nat) : Tiers :=
  (t.setStore mh.domain mh.hash file).setHeaders (t.pageOutLoc mh)
    (t.headers (t.pageOutLoc mh) ++ [mh.header page slot])

end Tiers

/-- One removal of an entry of the list at `loc`, by `s_remove_hashT` or `p_remove_hashT`. -/
inductive Removal (c : Ctx) : Tiers → Loc → McdHashT → Tiers → Prop
  | drop {t : Tiers} {loc : Loc} {mh : McdHashT} (mem : mh ∈ t.entries loc) :
      Removal c t loc mh (t.drop loc mh)
  | evict {t : Tiers} {loc : Loc} {mh : McdHashT} (mem : mh ∈ t.entries loc)
      (normal : mh.flags = mcdHashTNormal) (on : t.outsourcing)
      {out : PageOut} (n : Nat) (read : out = c.pageOut n) (accepted : out ≠ .refused)
      (page slot : Nat) :
      Removal c t loc mh ((t.drop loc mh).outsource mh (out.file mh) page slot)

theorem Removal.cfg_eq {c : Ctx} {t u : Tiers} {loc : Loc} {mh : McdHashT}
    (h : Removal c t loc mh u) : u.cfg = t.cfg := by
  cases h <;> rfl

/-- A sequence of removals, with the entries removed. -/
inductive Removals (c : Ctx) : Tiers → List (Loc × McdHashT) → Tiers → Prop
  | nil (t : Tiers) : Removals c t [] t
  | cons {t u v : Tiers} {loc : Loc} {mh : McdHashT} {rest : List (Loc × McdHashT)}
      (h : Removal c t loc mh u) (hs : Removals c u rest v) : Removals c t ((loc, mh) :: rest) v

theorem Removals.append {c : Ctx} {t u v : Tiers} {l m : List (Loc × McdHashT)}
    (h₁ : Removals c t l u) (h₂ : Removals c u m v) : Removals c t (l ++ m) v := by
  induction h₁ with
  | nil t => exact h₂
  | cons h _ ih => exact .cons h (ih h₂)

/-- An invariant of single removals is one of sequences. -/
theorem Removals.induct {c : Ctx} {I : Tiers → Prop}
    (step : ∀ {t loc mh u}, Removal c t loc mh u → I t → I u)
    {t u : Tiers} {l : List (Loc × McdHashT)} (h : Removals c t l u) (hi : I t) : I u := by
  induction h with
  | nil t => exact hi
  | cons h _ ih => exact ih (step h hi)

end UniCache.Mcd
