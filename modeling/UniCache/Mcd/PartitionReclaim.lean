import UniCache.Mcd.SharedReclaim

/-! `partition_cache_free` and the routines behind it: making room in the domains' lists. -/
namespace UniCache.Mcd

/-- Progress of a reclaim over domains, with the `lfu` pointer that
`REPLACE_MODE_SUBROUTINE` does not reset. -/
structure Reclaim extends Progress where
  lfu : Option McdHashT

def State.privateCount (s : State) : Nat := (s.domains.map fun d => d.hashList.length).sum

def State.domids (s : State) : List Domid := s.domains.map (·.domid)

section
variable (c : Ctx) (now : Int) (amount : UInt64)

/-- The `premove` macro under its guard. -/
def premove (domid : Domid) (mh : Option McdHashT) (p : Progress) : M Progress :=
  match mh with
  | none => pure p
  | some mh => do
    let bytes ← pRemoveHashT c domid mh .moveToSsd
    pure { tot := p.tot + bytes, visited := true }

/-- A walk that removes each node once it has passed it, left when `stop` holds after a
removal. -/
def walkRemove (domid : Domid) (stop : UInt64 → Bool) :
    List McdHashT → Option McdHashT → Progress → M Progress
  | [], latedel, p => premove c domid latedel p
  | curr :: rest, latedel, p => do
    let p ← premove c domid latedel p
    if latedel.isSome ∧ stop p.tot then pure p else walkRemove domid stop rest (some curr) p

/-- The removals of the LFRU case. -/
def lfruRemove (domid : Domid) (x : LfruScan) (p : Progress) : M Progress :=
  if x.lru ≠ x.lfu then do
    let p ← premove c domid x.lru p
    premove c domid x.lfu p
  else premove c domid x.lfu p

/-- `REPLACE_MODE_SUBROUTINE`. -/
def replaceModeSubroutine (domid : Domid) (r : Reclaim) : M Reclaim := do
  let d ← domOf domid
  let s ← get
  match s.replacementMode with
  | .lfru => do
    let p ← lfruRemove c domid (lfruScan now r.lfu d.hashList) r.toProgress
    pure { p with lfu := none }
  | .fast => do
    let p ← walkRemove c domid (fun _ => false) d.hashList none r.toProgress
    pure { p with lfu := r.lfu }
  | .score => do
    let p ← premove c domid (minScore s.sd now d.hashList) r.toProgress
    pure { p with lfu := r.lfu }

/-- The loop that takes from every domain in turn when `domid` is 0. -/
def brutallyFree : List Domid → Progress → M Progress
  | [], p => pure p
  | domid :: ids, p => do
    let d ← domOf domid
    let p ← walkRemove c domid (fun tot => tot > amount) d.hashList none p
    if p.tot > amount then pure p else brutallyFree ids p

/-- `FAIR_RATE(dom)`. -/
def McdDomain.fairRate (d : McdDomain) : UInt32 := d.curr / (d.ratio + 1)

/-- The body of a phase's loop for one domain. -/
def phaseStep (eligible : McdDomain → Bool) (id : Domid) (r : Reclaim) : M Reclaim := do
  let d ← domOf id
  if eligible d then replaceModeSubroutine c now id r else pure r

/-- One pass of a phase over the domain list. -/
def phaseRound (considered : Domid → Bool) (eligible : McdDomain → Bool) :
    List Domid → Reclaim → M Reclaim
  | [], r => pure r
  | id :: ids, r =>
    if ¬ considered id then phaseRound considered eligible ids r
    else do
      let r ← phaseStep c now eligible id r
      if r.tot > amount then pure r else phaseRound considered eligible ids r

/-- A phase: passes until enough is free or a pass removes nothing. -/
def phaseLoop (considered : Domid → Bool) (eligible : McdDomain → Bool) :
    Nat → Reclaim → M Reclaim
  | 0, _ => throw .spin
  | turns + 1, r =>
    if r.tot < amount then do
      let s ← get
      let r ← phaseRound c now amount considered eligible s.domids { r with visited := false }
      if r.visited then phaseLoop considered eligible turns { r with visited := false }
      else pure r
    else pure r

def weightPhase (considered : Domid → Bool) (eligible : McdDomain → Bool) (r : Reclaim) :
    M Reclaim := do
  let s ← get
  phaseLoop c now amount considered eligible (s.privateCount + 1) r

/-- The inner loop of the last phase. -/
def selfBrutalRound (domid : Domid) : List Domid → Progress → M Progress
  | [], p => pure p
  | id :: ids, p =>
    if id ≠ domid then selfBrutalRound domid ids p
    else do
      let d ← domOf id
      if d.curr ≤ 0 then pure p
      else do
        let p ← walkRemove c id (fun _ => false) d.hashList none p
        if p.tot > amount then pure p else selfBrutalRound domid ids p

/-- The last phase. Nothing leaves this loop when a pass removes nothing. -/
def selfBrutalLoop (domid : Domid) : Nat → Progress → M Progress
  | 0, _ => throw .spin
  | turns + 1, p =>
    if p.tot < amount then do
      let s ← get
      let p ← selfBrutalRound c amount domid s.domids p
      selfBrutalLoop domid turns p
    else pure p

/-- The phases after the brutal one, with the requesting domain's fair rate. -/
def weightPhases (domid : Domid) (fairRate : UInt32) (r : Reclaim) : M Reclaim := do
  let r ← weightPhase c now amount (· ≠ domid) (fun d => d.fairRate > fairRate) r
  let r ← weightPhase c now amount (· = domid) (fun d => d.curr > 100) r
  let r ← weightPhase c now amount (· ≠ domid) (fun d => d.curr > 100) r
  weightPhase c now amount (· = domid) (fun d => d.curr > 0) r

end

/-- The fair rate of the last record with the given id, 0 if there is none. -/
def State.fairRateOf (s : State) (domid : Domid) : UInt32 :=
  s.domains.foldl (fun r d => if d.domid = domid then d.fairRate else r) 0

/-- The first part of `partition_cf_weight_based`. -/
def brutalPhase (c : Ctx) (amount : UInt64) (domid : Domid) : M Progress := do
  let s ← get
  if domid = 0 then brutallyFree c amount s.domids { tot := 0, visited := false }
  else pure { tot := 0, visited := false }

/-- The last part. -/
def selfBrutalPhase (c : Ctx) (amount : UInt64) (domid : Domid) (p : Progress) : M Progress := do
  let s ← get
  if p.tot < amount ∧ s.replacementMode = .lfru then selfBrutalLoop c amount domid c.patience p
  else pure p

def partitionCfWeightBased (c : Ctx) (amount : UInt64) (domid : Domid) : M Rc := do
  let now ← readNow c
  let s ← get
  domUsageUpdateAll c s.domains
  let p ← brutalPhase c amount domid
  if p.tot > amount then pure .errNo
  else do
    let s ← get
    let r ← weightPhases c now amount domid (s.fairRateOf domid) { p with lfu := none }
    let p ← selfBrutalPhase c amount domid r.toProgress
    pure (if p.tot < amount then .errNotMem else .errNo)

/-- `COST(dom, max)`. -/
def cost (c : Ctx) (max : UInt32) (d : McdDomain) : UInt32 :=
  (100 - c.hitrate d.domid) * (d.recCostAvg * 100) / max / 100

/-- The largest recovery average, at least 1. -/
def State.maxRecCost (s : State) : UInt32 :=
  s.domains.foldl (fun m d => if d.recCostAvg > m then d.recCostAvg else m) 1

/-- `hr_dom`: the first domain of least cost. -/
def State.hrDom (c : Ctx) (s : State) : Option Domid :=
  (s.domains.foldl (fun (x : UInt32 × Option Domid) d =>
    let k := cost c s.maxRecCost d
    if k < x.1 then (k, some d.domid) else x) (0xffffffff, none)).2

section
variable (c : Ctx) (now : Int) (amount : UInt64)

/-- The `while` loop over one domain. -/
def adaptiveLoop (domid : Domid) : Nat → Reclaim → M Reclaim
  | 0, _ => throw .spin
  | turns + 1, r =>
    if r.tot < amount then do
      let r ← replaceModeSubroutine c now domid { r with visited := false }
      if r.visited then adaptiveLoop domid turns r else pure r
    else pure r

def adaptivePhase (domid : Domid) (r : Reclaim) : M Reclaim := do
  let s ← get
  adaptiveLoop c now amount domid (s.privateCount + 1) r

end

def partitionCfAdaptiveDynamic (c : Ctx) (amount : UInt64) (domid : Domid) : M Rc := do
  let now ← readNow c
  let s ← get
  let hrDom := (s.hrDom c).getD domid
  let r ← adaptivePhase c now amount hrDom { tot := 0, visited := false, lfu := none }
  let r ← adaptivePhase c now amount domid r
  pure (if r.tot < amount then .errNotMem else .errNo)

/-- Best effort frees nothing and reports success. -/
def partitionCacheFree (c : Ctx) (amount : UInt64) (domid : Domid) : M Rc := do
  let s ← get
  match s.partitionMode with
  | .be => pure .errNo
  | .wb => partitionCfWeightBased c amount domid
  | .ad => partitionCfAdaptiveDynamic c amount domid

end UniCache.Mcd
