import Mathlib.Data.List.FinRange
import UniCache.Mcd.Remove

/-! `shared_cache_free`: making room in the shared buckets. -/
namespace UniCache.Mcd

/-- Bytes freed so far, and the `visited` flag of the current round. -/
structure Progress where
  tot : UInt64
  visited : Bool

/-- `(uint32_t)~0ull >> 1`. -/
def maxRef : UInt32 := 0x7fffffff

/-- State of a scan for the oldest and the least used entry of a list. -/
structure LfruScan where
  maxtime : Int
  minref : UInt32
  lru : Option McdHashT
  lfu : Option McdHashT

def LfruScan.step (now : Int) (x : LfruScan) (curr : McdHashT) : LfruScan :=
  if now - curr.putTime > x.maxtime then
    { x with maxtime := now - curr.putTime, lru := some curr }
  else if curr.ref < x.minref then { x with minref := curr.ref, lfu := some curr }
  else x

/-- The scan of a list; `lfu` is what that pointer held before. -/
def lfruScan (now : Int) (lfu : Option McdHashT) (l : List McdHashT) : LfruScan :=
  l.foldl (LfruScan.step now) { maxtime := 0, minref := maxRef, lru := none, lfu }

/-- `SCORE(curr, mem)`. The first term is computed in signed 64 bits, the others in unsigned
32 bits, and the quotient is cut to 32 bits. -/
def score (sd : ScoreParam) (now : Int) (mh : McdHashT) : UInt32 :=
  let loc : Int := sd.alpha.toNat * (mh.putTime * 10).tdiv now
  let qur : UInt32 := sd.beta * (10 - mh.queryTimeMs * 10 / sd.queryMax)
  let val : UInt32 := (100 - sd.alpha - sd.beta) * (mh.valSize * 10 / sd.valMax)
  UInt32.ofInt ((loc + qur.toNat + val.toNat).tdiv 1000)

/-- The entry of least score, among those below `minref`. -/
def minScore (sd : ScoreParam) (now : Int) (l : List McdHashT) : Option McdHashT :=
  (l.foldl (fun (x : UInt32 × Option McdHashT) curr =>
    let sc := score sd now curr
    if sc < x.1 then (sc, some curr) else x) (maxRef, none)).2

section
variable (c : Ctx) (now : Int) (amount : UInt64)

/-- The `sremove` macro under its guard. -/
def sremove (i : Bucket) (mh : Option McdHashT) (p : Progress) : M Progress :=
  match mh with
  | none => pure p
  | some mh => do
    let bytes ← sRemoveHashT c i mh .moveToSsd
    pure { tot := p.tot + bytes, visited := true }

/-- One bucket of an LFRU round. -/
def lfruBucket (i : Bucket) (p : Progress) : M Progress := do
  let s ← get
  let x := lfruScan now none (s.shared i)
  let p ← sremove c i x.lru p
  sremove c i x.lfu p

/-- One bucket of a SCORE round. -/
def scoreBucket (i : Bucket) (p : Progress) : M Progress := do
  let s ← get
  sremove c i (minScore s.sd now (s.shared i)) p

/-- The `for` loop of a round, left once more than `amount` bytes are free. -/
def bucketRound (bucket : Bucket → Progress → M Progress) : List Bucket → Progress → M Progress
  | [], p => pure p
  | i :: is, p => do
    let p ← bucket i p
    if p.tot > amount then pure p else bucketRound bucket is p

/-- The `while` loop with its escape. Every round but the last removes an entry, so one turn
more than there are entries is never used up. -/
def policyLoop (bucket : Bucket → Progress → M Progress) : Nat → UInt64 → M UInt64
  | 0, _ => throw .spin
  | turns + 1, tot =>
    if tot < amount then do
      let p ← bucketRound amount bucket (List.finRange 100) { tot, visited := false }
      if p.visited then policyLoop bucket turns p.tot else pure p.tot
    else pure tot

/-- The forced sweep of one bucket. Each node is removed once the walk has passed it; `latedel`
is the node before `curr` and never equal to it. -/
def sweepBucket (i : Bucket) : List McdHashT → Option McdHashT → UInt64 → M UInt64
  | [], latedel, tot => do
    let p ← sremove c i latedel { tot, visited := false }
    pure p.tot
  | curr :: rest, latedel, tot => do
    let p ← sremove c i latedel { tot, visited := false }
    if p.tot > amount then pure p.tot else sweepBucket i rest (some curr) p.tot

def sweep : List Bucket → UInt64 → M UInt64
  | [], tot => pure tot
  | i :: is, tot => do
    let s ← get
    let tot ← sweepBucket c amount i (s.shared i) none tot
    if tot > amount then pure tot else sweep is tot

end

/-- The number of entries in the shared buckets. -/
def State.sharedCount (s : State) : Nat :=
  ((List.finRange 100).map fun i => (s.shared i).length).sum

/-- The `while` loop of the replacement mode, if it has one; the result is the number of bytes
freed. -/
def replacePolicy (c : Ctx) (now : Int) (amount : UInt64) : M UInt64 := do
  let s ← get
  match s.replacementMode with
  | .lfru => policyLoop amount (lfruBucket c now) (s.sharedCount + 1) 0
  | .fast => pure 0
  | .score => policyLoop amount (scoreBucket c now) (s.sharedCount + 1) 0

/-- The replacement modes; each ends in the same sweep. -/
def sharedReplace (c : Ctx) (now : Int) (amount : UInt64) : M UInt64 := do
  let tot ← replacePolicy c now amount
  if tot < amount then sweep c amount (List.finRange 100) tot else pure tot

def sharedCacheFree (c : Ctx) (amount : UInt64) : M Rc := do
  let now ← readNow c
  let tot ← sharedReplace c now amount
  pure (if tot < amount then .errNotMem else .errNo)

end UniCache.Mcd
