import UniCache.Base.Trace
import UniCache.Mcd.Operations

/-! The control operations, domain creation, `do_mcd_op`, and runs of hypercalls. -/
namespace UniCache.Mcd

/-- `max_mem_bytes` for an `int` number of megabytes: the sign is extended before the product. -/
def memsizeBytes (m : Int32) : UInt64 := m.toInt64.toUInt64 * 1000000

/-- The reclaim of `set_memsize`, under id 0. -/
def freeExcess (c : Ctx) : M Rc := do
  let s ← get
  if s.maxMemBytes ≠ 0 ∧ s.totUsedBytes > s.maxMemBytes
  then cacheFree c (s.totUsedBytes - s.maxMemBytes) 0
  else pure .errNo

/-- `set_memsize`; the result of the reclaim is not looked at. -/
def setMemsize (c : Ctx) (m : Int32) : M Reply := do
  modify fun s => { s with maxMemBytes := memsizeBytes m }
  let _ ← freeExcess c
  let s ← get
  domUsageUpdateAll c s.domains
  pure (.code .errNo)

/-- `set_weight`; an unknown id is not noticed by `find_mcd_dom`. -/
def setWeight (domid : Domid) (weight : UInt32) : M Reply := do
  let d ← domOf domid
  modify fun s => { s with totalWeight := s.totalWeight + (weight - d.weight) }
  modify (·.modifyDom domid fun d => { d with weight })
  modify (·.domWeightUpdate)
  pure (.code .errNo)

/-- Changes the cache mode and empties the tier of the mode that is left. -/
def switchCacheMode (c : Ctx) (mode : CacheMode) : M Unit := do
  let s ← get
  set { s with cacheMode := mode }
  if s.cacheMode = mode then pure ()
  else match mode with
    | .shared => pMcdFlushAll c s.domids
    | .partition => do
      let _ ← sMcdFlush c
      pure ()

/-- The `switch` of `set_cache_mode`. -/
def applyCacheMode (c : Ctx) (which mode : UInt32) : M Unit := do
  if which = 0 then switchCacheMode c (if mode = 1 then .partition else .shared)
  else if which = 1 then modify fun s => { s with replacementMode :=
    if mode = 1 then .fast else if mode = 2 then .score else .lfru }
  else if which = 2 then do
    let pm : PartitionMode := if mode = 1 then .wb else if mode = 2 then .ad else .be
    modify fun s => { s with partitionMode := pm }
    switchCacheMode c (if pm = .be then .shared else .partition)
  else pure ()

def setCacheMode (c : Ctx) (which mode : UInt32) : M Reply := do
  applyCacheMode c which mode
  pure (.code .errNo)

/-- The flush of `set_param(25, _, 1)`. -/
def flushAll (c : Ctx) : M Unit := do
  let s ← get
  match s.cacheMode with
  | .shared => do
    let _ ← sMcdFlush c
    pure ()
  | .partition => pMcdFlushAll c s.domids

/-- The code of `increase_shared_page(1)`; the request itself changes nothing here. -/
def increaseSharedPage (c : Ctx) : M Rc := do
  let s ← get
  if s.mcdctlEnabled then do
    let ok ← reading c.sent
    pure (if ok then .zero else .minusOne)
  else pure .minusOne

/-- `set_param`, for the parameters that enter a computation. -/
def setParam (c : Ctx) (which mode param : UInt32) : M Reply := do
  if which = 0 ∧ mode = 0 then do
    modify fun s => { s with sd := { s.sd with alpha := param } }
    pure (.code .errNo)
  else if which = 0 ∧ mode = 1 then do
    modify fun s => { s with sd := { s.sd with beta := param } }
    pure (.code .errNo)
  else if which = 25 ∧ param = 1 then do
    flushAll c
    pure (.code .errNo)
  else if which = 25 ∧ param = 2 then do
    modify fun s => { s with mcdctlUserEnabled := ¬ s.mcdctlUserEnabled }
    pure (.code .errNo)
  else if which = 25 ∧ param = 3 then do
    let rc ← increaseSharedPage c
    pure (.code rc)
  else pure (.code .errNo)

/-- `DOM_WEIGHT_DEFAULT`. -/
def domWeightDefault : UInt32 := 100

def freshDomain (domid : Domid) : McdDomain where
  domid := domid
  hashList := []
  mcdctlList := []
  nrKeys := 0
  nrUsedPages := 0
  nrUsedBytes := 0
  weight := if domid > 0 then domWeightDefault else 0
  ratio := 0
  curr := 0
  recCostAvg := 0

/-- `mcd_domain_create`. The record itself is not accounted for, and `attach_mcd` never
returns 0. -/
def mcdDomainCreate (c : Ctx) (domid : Domid) : M Reply := do
  match ← mcdMalloc c sizeofMcdDomain domid with
  | none => pure (.code .errXenFault)
  | some _ => do
    modify fun s => { s with
      totalWeight := if domid > 0 then s.totalWeight + domWeightDefault else s.totalWeight
      domains := s.domains ++ [freshDomain domid] }
    modify fun s => if domid > 0 then s.domWeightUpdate else s
    minfPageDomFlush c domid
    pure (.code .errNo)

/-- `mcd_destroy` of a dying domain. Shared entries and headers that carry its id stay. -/
def mcdDestroy (c : Ctx) (domid : Domid) : M Reply := do
  minfPageDomFlush c domid
  let d ← domOf domid
  modify fun s => { s with totalWeight := s.totalWeight - d.weight }
  let _ ← pMcdFlush c domid
  modify fun s => { s with domains := s.domains.eraseP (·.domid = domid) }
  modify (·.domWeightUpdate)
  pure (.code .errNo)

/-- A daemon attaches: `MCD_EVENT_OP_ENABLE`, which starts with empty shared header lists and an
empty pool, and the daemon's cleaning of its root directory. The domains' lists are not touched. -/
def mcdEventEnable : M Reply := do
  let s ← get
  if s.mcdctlEnabled then pure (.code .errBusy)
  else do
    set { s.exitMcdctl with
      mcdctlShared := fun _ => []
      store := fun _ _ => none
      mcdctlEnabled := true }
    pure (.code .zero)

/-- `MCD_EVENT_OP_DISABLE`: the header pages are released, the lists that use them stay. -/
def mcdEventDisable : M Reply := do
  modify fun s => { s.exitMcdctl with mcdctlEnabled := false }
  pure (.code .zero)

/-- The hypercalls, with the calling domain where the code looks at it, and the creation and
destruction of a domain. -/
inductive Cmd
  | get (domid : Domid) (k : GuestKey) (cap : UInt32)
  | put (domid : Domid) (k : GuestKey) (v : GuestVal)
  | remove (domid : Domid) (k : GuestKey)
  | check (domid : Domid) (k : GuestKey)
  | getsize (domid : Domid) (k : GuestKey)
  | flush (domid : Domid)
  | memsize (m : Int32)
  | weight (domid : Domid) (w : UInt32)
  | cacheMode (which mode : UInt32)
  | param (which mode param : UInt32)
  | create (domid : Domid)
  | destroy (domid : Domid)
  | enable
  | disable

/-- `mcd_sub_call`. -/
def mcdSubCall (p s : M Reply) : M Reply := do
  match (← get).cacheMode with
  | .shared => s
  | .partition => p

/-- The first `switch` of `do_mcd_op`. -/
def mcdOp (c : Ctx) : Cmd → M Reply
  | .get domid k cap => mcdSubCall (pMcdGet c domid k cap) (sMcdGet c k cap)
  | .put domid k v => mcdSubCall (pMcdPut c domid k v) (sMcdPut c domid k v)
  | .remove domid k => mcdSubCall (pMcdRemove c domid k) (sMcdRemove c k)
  | .check domid k => mcdSubCall (pMcdCheck c domid k) (sMcdCheck c domid k)
  | .getsize domid k => mcdSubCall (pMcdCheck c domid k) (sMcdCheck c domid k)
  | .flush domid => mcdSubCall (pMcdFlush c domid) (sMcdFlush c)
  | .memsize m => setMemsize c m
  | .weight domid w => setWeight domid w
  | .cacheMode which mode => setCacheMode c which mode
  | .param which mode param => setParam c which mode param
  | .create domid => mcdDomainCreate c domid
  | .destroy domid => mcdDestroy c domid
  | .enable => mcdEventEnable
  | .disable => mcdEventDisable

/-- Commands after which the shares of all domains are brought up to date. -/
def Cmd.updatesUsage : Cmd → Bool
  | .put .. | .remove .. | .flush .. | .memsize .. | .weight .. => true
  | _ => false

/-- The caller whose hit counters the second `switch` of `do_mcd_op` moves. -/
def Cmd.countsFor : Cmd → Option Domid
  | .check domid _ => some domid
  | .get domid _ _ => some domid
  | _ => none

/-- The call of `dom_usage_update_all` in `do_mcd_op`. -/
def updateUsage (c : Ctx) (cmd : Cmd) : M Unit := do
  let s ← get
  if cmd.updatesUsage then domUsageUpdateAll c s.domains else pure ()

/-- The record whose counters the second `switch` moves. -/
def findCaller (cmd : Cmd) : M Unit := do
  match cmd.countsFor with
  | some domid => do
    let _ ← domOf domid
    pure ()
  | none => pure ()

/-- `do_mcd_op`, less the hit counters. -/
def doMcdOp (c : Ctx) (cmd : Cmd) : M Reply := do
  let r ← mcdOp c cmd
  updateUsage c cmd
  findCaller cmd
  pure r

/-- A domain's hit counters. -/
structure HitStat where
  getSucc : UInt32
  getFail : UInt32
  hitrate : UInt32
  deriving DecidableEq

/-- `HIT` or `MISS`, then `SET_HITRATE`. -/
def HitStat.count (h : HitStat) (rc : Rc) : HitStat :=
  let h := if rc = .retGetMem ∨ rc = .retGetSsd then { h with getSucc := h.getSucc + 1 }
    else { h with getFail := h.getFail + 1 }
  { h with hitrate := h.getSucc * 100 / (h.getSucc + h.getFail) }

/-- The cache with the domains' hit counters. -/
structure System where
  mcd : State
  hits : Domid → HitStat

def System.ctx (y : System) (env : Env) : Ctx :=
  { toEnv := env, hitrate := fun d => (y.hits d).hitrate }

/-- The hit counters after a command. -/
def System.hitsAfter (y : System) (cmd : Cmd) (r : Reply) : Domid → HitStat :=
  match cmd with
  | .create domid =>
    if r.rc = .errNo then Function.update y.hits domid ⟨1, 1, 0⟩ else y.hits
  | .param 25 _ 1 => fun d =>
    if d = 0 ∨ d ∉ y.mcd.domids then y.hits d else ⟨0, 0, 0⟩
  | cmd => match cmd.countsFor with
    | some domid => Function.update y.hits domid ((y.hits domid).count r.rc)
    | none => y.hits

/-- A hypercall with what it reads from outside. -/
structure Call where
  env : Env
  cmd : Cmd

/-- One hypercall. -/
def System.call (y : System) (a : Call) : Except Stop (Reply × System) :=
  match (doMcdOp (y.ctx a.env) a.cmd).run y.mcd with
  | .error e => .error e
  | .ok (r, s) => .ok (r, { mcd := { s with tick := 0 }, hits := y.hitsAfter a.cmd r })

/-- One hypercall of a run, made in a state where `P` allows it. -/
def System.Step (P : System → Call → Prop) (y : System) (x : Call × Reply) (z : System) : Prop :=
  P y x.1 ∧ y.call x.1 = .ok (x.2, z)

/-- Runs of hypercalls that return, with their replies. -/
abbrev Run (P : System → Call → Prop) : System → List (Call × Reply) → System → Prop :=
  Base.Trace (System.Step P)

/-- `mcd_start`, over the globals' initial values. -/
def mcdStart : State where
  domains := []
  shared _ := []
  mcdctlShared _ := []
  data := { priNrPages := 0, shrNrPages := 0, priNrBytes := 0, shrNrBytes := 0, priNrKeys := 0
            shrNrKeys := 0 }
  store _ _ := none
  pool := { pages := [], freelist := [], nextPage := 0 }
  sd := { alpha := 80, beta := 10, queryMax := 1, valMax := 1 }
  maxMemBytes := 0
  cacheMode := .shared
  replacementMode := .lfru
  partitionMode := .be
  mcdctlEnabled := false
  mcdctlUserEnabled := true
  totalWeight := 0
  hist := { queryTime := fun _ => 0, reaccessTimeMs := fun _ => 0, reaccessTime := fun _ => 0 }
  tick := 0
  nextAddr := 0

def System.start : System := { mcd := mcdStart, hits := fun _ => ⟨0, 0, 0⟩ }

/-- An environment that grants whatever a hypercall asks for. -/
def Env.calm : Env where
  now n := n
  availDomheapPages _ := 1000000
  xmalloc _ := true
  stale _ _ := 0
  pageOut _ := .done
  pageIn _ := .done
  sent _ := true
  patience := 10

/-- No memory is left: a `put` evicts what it finds and fails. -/
def Env.full (out : PageOut) : Env :=
  { Env.calm with availDomheapPages := fun _ => 0, pageOut := fun _ => out }

/-- The clock stands still during the hypercall. -/
def Env.clock (time : Int) : Env := { Env.calm with now := fun _ => time }

def GuestKey.single (b : UInt8) : GuestKey := ⟨1, [b], [b], rfl, rfl⟩

def GuestVal.single (b : UInt8) : GuestVal := ⟨1, [b], rfl⟩

/-- The replies to calls made in turn, if they all return. -/
def System.replies (y : System) : List Call → Option (List Reply)
  | [] => some []
  | a :: l => match y.call a with
    | .error _ => none
    | .ok (r, z) => (z.replies l).map (r :: ·)

/-- The system after calls made in turn. -/
def System.after (y : System) : List Call → System
  | [] => y
  | a :: l => match y.call a with
    | .error _ => y
    | .ok (_, z) => z.after l

/-- Calls made in turn all return, each in a state where it is allowed. -/
def System.runs (P : System → Call → Prop) [∀ y a, Decidable (P y a)] (y : System) :
    List Call → Bool
  | [] => true
  | a :: l => decide (P y a) && match y.call a with
    | .error _ => false
    | .ok (_, z) => z.runs P l

theorem run_of_runs {P : System → Call → Prop} [∀ y a, Decidable (P y a)] {y : System}
    {l : List Call} (h : y.runs P l) :
    ∃ hist, hist.map (·.1) = l ∧ Run P y hist (y.after l) := by
  induction l generalizing y with
  | nil => exact ⟨[], rfl, .nil y⟩
  | cons a l ih =>
    obtain ⟨hP, h⟩ := Bool.and_eq_true_iff.mp h
    cases hcall : y.call a with
    | error e => simp [hcall] at h
    | ok p =>
      simp only [hcall] at h
      obtain ⟨hist, hmap, hrun⟩ := ih h
      refine ⟨(a, p.1) :: hist, by rw [List.map_cons, hmap], ?_⟩
      simp only [System.after, hcall]
      exact .cons ⟨of_decide_eq_true hP, hcall⟩ hrun

theorem run_zip_of_runs {P : System → Call → Prop} [∀ y a, Decidable (P y a)] {y : System}
    {l : List Call} {rs : List Reply} (h : y.runs P l) (hr : y.replies l = some rs) :
    Run P y (l.zip rs) (y.after l) := by
  induction l generalizing y rs with
  | nil => exact .nil y
  | cons a l ih =>
    obtain ⟨hP, h⟩ := Bool.and_eq_true_iff.mp h
    cases hcall : y.call a with
    | error e => simp [hcall] at h
    | ok p =>
      simp only [hcall] at h
      simp only [System.replies, hcall, Option.map_eq_some_iff] at hr
      obtain ⟨rs', hrest, rfl⟩ := hr
      simp only [System.after, hcall]
      exact .cons ⟨of_decide_eq_true hP, hcall⟩ (ih h hrest)

/-- A guest, domain 1, and a daemon. -/
def System.oneGuest : System := System.start.after [⟨.calm, .create 1⟩, ⟨.calm, .enable⟩]

theorem run_cons_after {P : System → Call → Prop} {y : System} {a : Call} {l : List Call}
    {rs : List Reply} (ha : P y a)
    (hl : ∀ {z rs'}, z.replies l = some rs' → Run P z (l.zip rs') (z.after l))
    (h : y.replies (a :: l) = some rs) : Run P y ((a :: l).zip rs) (y.after (a :: l)) := by
  cases hcall : y.call a with
  | error e => simp [System.replies, hcall] at h
  | ok p =>
    simp only [System.replies, hcall, Option.map_eq_some_iff] at h
    obtain ⟨rs', hrest, rfl⟩ := h
    simp only [System.after, hcall]
    exact .cons ⟨ha, hcall⟩ (hl hrest)

theorem run_after {P : System → Call → Prop} {l : List Call} (hP : ∀ a ∈ l, ∀ y, P y a)
    {y : System} {rs : List Reply} (h : y.replies l = some rs) : Run P y (l.zip rs) (y.after l) := by
  induction l generalizing y rs with
  | nil => exact .nil y
  | cons a l ih =>
    have hl : ∀ b ∈ l, ∀ y, P y b := fun b hb => hP b (List.mem_cons_of_mem _ hb)
    exact run_cons_after (hP a List.mem_cons_self y) (ih hl) h

theorem run_of_replies {P : System → Call → Prop} {l : List Call} (hP : ∀ a ∈ l, ∀ y, P y a)
    {y : System} {rs : List Reply} (h : y.replies l = some rs) :
    ∃ z, Run P y (l.zip rs) z := ⟨_, run_after hP h⟩

theorem call_of_replies {y : System} {a : Call} {l : List Call} {rs : List Reply}
    (h : y.replies (a :: l) = some rs) :
    ∃ r z rs', y.call a = .ok (r, z) ∧ z.replies l = some rs' := by
  cases ha : y.call a with
  | error e => simp [System.replies, ha] at h
  | ok p =>
    simp only [System.replies, ha, Option.map_eq_some_iff] at h
    obtain ⟨rs', hrest, -⟩ := h
    exact ⟨p.1, p.2, rs', rfl, hrest⟩

theorem after_of_call {y z : System} {a : Call} {r : Reply} (h : y.call a = .ok (r, z)) :
    y.after [a] = z := by
  simp [System.after, h]

theorem call_after {y : System} {a : Call} (h : (y.replies [a]).isSome) :
    ∃ r, y.call a = .ok (r, y.after [a]) := by
  cases ha : y.call a with
  | error e => simp [System.replies, ha] at h
  | ok p => exact ⟨p.1, by simp [System.after, ha]⟩

theorem call_reply {y : System} {a : Call} {r : Reply} (h : y.replies [a] = some [r]) :
    y.call a = .ok (r, y.after [a]) := by
  cases ha : y.call a with
  | error e => simp [System.replies, ha] at h
  | ok p =>
    simp only [System.replies, ha, Option.map_some, Option.some.injEq, List.cons.injEq,
      and_true] at h
    simp [System.after, ha, ← h]

end UniCache.Mcd
