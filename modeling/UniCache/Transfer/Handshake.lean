import UniCache.Base.Turnstile
import UniCache.Transfer.Interleave

/-! Any number of virtual CPUs that page entries out and in, in any order of their steps. The two
locks make the exchange a turnstile with one lane for each direction. -/
namespace UniCache.Transfer
open Base Mcd Buffer

variable {β : Type}

/-- How many parts `left` bytes are. -/
def rounds (n left : Nat) : Nat := (left + (pageBytes * n - 1)) / (pageBytes * n)

theorem rounds_of_pos {n left : Nat} (hn : 0 < n) (hpos : 0 < left) :
    rounds n left = rounds n (left - pageBytes * n) + 1 := by
  have hc : 0 < pageBytes * n := Nat.mul_pos (by decide) hn
  unfold rounds
  generalize pageBytes * n = c at hc ⊢
  rcases Nat.lt_or_ge left c with hlt | hge
  · have hzero : left - c = 0 := by omega
    have hless : left + (c - 1) - c < c := by omega
    rw [hzero, Nat.zero_add, Nat.div_eq_of_lt (by omega : c - 1 < c),
      Nat.div_eq_sub_div hc (by omega), Nat.div_eq_of_lt hless]
  · rw [Nat.div_eq_sub_div hc (by omega)]
    congr 2
    omega

/-- The bytes that are left after the part a message is about. The size in a `PUT` counts its own
part, that in a `GET` does not. -/
def Msg.rest (n : Nat) (m : Msg) : Nat :=
  match m.op with
  | .put => m.totsize - m.accsize
  | .get => m.totsize - m.accsize - pageBytes * n

/-- A request as Xen sends it. -/
structure Asks (n : Nat) (entry : Nat → Entry) (m : Msg) : Prop where
  tot : m.totsize = (entry m.mcdData).totsize
  error : m.flags.error = false
  ended : m.flags.ended = false
  put : m.op = .put →
    m.flags.final = decide (m.rest n = 0) ∧ (m.flags.final = true ∨ m.flags.cont = true)
  get : m.op = .get → m.flags.final = false

/-- A response as the daemon gives it: an error, or a part that is over. -/
structure Tells (n : Nat) (entry : Nat → Entry) (m : Msg) : Prop where
  tot : m.totsize = (entry m.mcdData).totsize
  sound : m.flags.error = true ∨ m.flags.Good ∧ m.flags.final = decide (m.rest n = 0) ∧
    (m.op = .get → m.cursize = part n (m.totsize - m.accsize))

/-- Two messages about the same part of the same entry. -/
structure SamePart (m m' : Msg) : Prop where
  op : m'.op = m.op
  addr : m'.mcdData = m.mcdData
  tot : m'.totsize = m.totsize
  acc : m'.accsize = m.accsize

theorem SamePart.rest {m m' : Msg} (h : SamePart m m') (n : Nat) : m'.rest n = m.rest n := by
  simp only [Msg.rest, h.op, h.tot, h.acc]

theorem sub_part (n left : Nat) : left - part n left = left - pageBytes * n := by
  unfold part
  omega

section
variable {n : Nat} {entry : Nat → Entry} {x : World β} {m : Msg}

/-- The daemon's answer to a `PUT`, whatever its disk. -/
theorem servePut_tells (h : Asks n entry m) (hop : m.op = .put) (shared : Buffer β) (k : Disk β) :
    SamePart m (servePut n m shared k).1 ∧ Tells n entry (servePut n m shared k).1 := by
  obtain ⟨hfinal, hsome⟩ := h.put hop
  have hgood : ({ m.flags with new := false } : Flags).Good := ⟨h.error, h.ended, hsome⟩
  have hget : m.op = .get → m.cursize = part n (m.totsize - m.accsize) := by simp [hop]
  unfold servePut
  cases hfd : k.fdFor m with
  | none => exact ⟨⟨rfl, rfl, rfl, rfl⟩, h.tot, .inl rfl⟩
  | some r =>
    simp only
    split_ifs
    all_goals
      refine ⟨⟨rfl, rfl, rfl, rfl⟩, h.tot, .inr ⟨hgood, hfinal, fun hg => ?_⟩⟩
      exact absurd (hop.symm.trans hg) Op.noConfusion

/-- Sizes and flags of a read do not depend on the file. -/
theorem readPages_msg (file file' : List β) (left page leftSize start : Nat) (req : Msg)
    (shared shared' : Buffer β) :
    (readPages file left page leftSize start req shared).1 =
      (readPages file' left page leftSize start req shared').1 := by
  induction left generalizing page leftSize start req shared shared' with
  | zero => rfl
  | succ left ih =>
    unfold readPages
    split_ifs
    · rfl
    · exact ih ..
    · rfl

/-- The daemon's answer to a `GET`, whatever its disk. -/
theorem serveGet_tells (h : Asks n entry m) (hop : m.op = .get) (hn : 0 < n) (shared : Buffer β)
    (k : Disk β) :
    SamePart m (serveGet n m shared k).1 ∧ Tells n entry (serveGet n m shared k).1 := by
  unfold serveGet
  cases hfd : k.fdFor m with
  | none => exact ⟨⟨rfl, rfl, rfl, rfl⟩, h.tot, .inl rfl⟩
  | some r =>
    obtain ⟨fd, l⟩ := r
    obtain ⟨cont, hread, hor⟩ := readPages_nil n 0 (m.totsize - m.accsize)
      (if m.accsize = 0 then 0 else m.accsize + 1)
      { m with flags := { m.flags with new := false }, fd := fd, cursize := 0 } shared (h.get hop)
      (fun h => absurd h (Nat.pos_iff_ne_zero.mp hn))
    have hmsg := readPages_msg (l.content fd) [] n 0 (m.totsize - m.accsize)
      (if m.accsize = 0 then 0 else m.accsize + 1)
      { m with flags := { m.flags with new := false }, fd := fd, cursize := 0 } shared shared
    rw [hread] at hmsg
    simp only [hmsg]
    have hrest : m.rest n = m.totsize - m.accsize - pageBytes * n := by simp only [Msg.rest, hop]
    have hdec : decide (m.totsize - m.accsize ≤ pageBytes * n) = decide (m.rest n = 0) :=
      decide_eq_decide.mpr (by omega)
    have hgood : ({ m.flags with
        new := false, cont := cont
        final := decide (m.totsize - m.accsize ≤ pageBytes * n) } : Flags).Good :=
      ⟨h.error, h.ended, hor.imp_left decide_eq_true⟩
    split_ifs
    all_goals exact ⟨⟨rfl, rfl, rfl, rfl⟩, h.tot, .inr ⟨hgood, hdec, fun _ => Nat.zero_add _⟩⟩

theorem answer_tells (h : Asks n entry m) (hn : 0 < n) (x : World β) :
    ∃ rsp shared disk, World.answer n m x = (rsp, { x with sharedPage := shared, disk := disk }) ∧
      SamePart m rsp ∧ Tells n entry rsp := by
  unfold World.answer
  cases hop : m.op with
  | put =>
    obtain ⟨hsame, htells⟩ := servePut_tells h hop x.sharedPage x.disk
    exact ⟨_, _, _, rfl, hsame, htells⟩
  | get =>
    obtain ⟨hsame, htells⟩ := serveGet_tells h hop hn x.sharedPage x.disk
    exact ⟨_, _, _, rfl, hsame, htells⟩

/-- The request `mcdctl_page_out` sends, whatever is on the disk. -/
theorem mcdctlPageOut_asks (addr : Nat) (rsp : Option Msg) (hn : 0 < n)
    (hring : x.ringFull = false) :
    ∃ req shared, mcdctlPageOut n addr rsp x =
        some { x with sharedPage := shared, requests := x.requests ++ [req] } ∧
      req.op = .put ∧ req.mcdData = addr ∧ Asks n x.entry req ∧
      req.rest n = (x.entry addr).totsize - (rsp.map (·.accsize)).getD 0 - pageBytes * n := by
  obtain ⟨cont, hfill, hor⟩ := fillPages_spec (x.keyVal addr) n 0
    { op := .put, domain := (x.entry addr).domain, flags := { new := rsp.isNone }
      hash := (x.entry addr).hash, totsize := (x.entry addr).totsize
      accsize := (rsp.map (·.accsize)).getD 0, cursize := 0, fd := (rsp.map (·.fd)).getD 0
      mcdData := addr } x.sharedPage rfl (fun h => absurd h (Nat.pos_iff_ne_zero.mp hn))
  have hnot : ¬ x.ringFull = true := by simp [hring]
  simp only [mcdctlPageOut, if_neg hnot, hfill]
  have hrest (tot acc : Nat) : tot - (acc + part n (tot - acc)) = tot - acc - pageBytes * n := by
    rw [Nat.sub_add_eq, sub_part]
  have hdec (tot acc : Nat) : decide (tot - acc ≤ pageBytes * n) =
      decide (tot - (acc + part n (tot - acc)) = 0) :=
    decide_eq_decide.mpr (by rw [hrest]; omega)
  refine ⟨_, _, rfl, rfl, rfl, ⟨rfl, rfl, rfl, fun _ => ⟨hdec .., ?_⟩, Op.noConfusion⟩, hrest ..⟩
  exact hor.imp_left decide_eq_true

/-- The request that opens a page-in. -/
theorem mcdctlPageIn_opens (addr : Nat) (hring : x.ringFull = false) :
    ∃ req, mcdctlPageIn n addr none x = some { x with requests := x.requests ++ [req] } ∧
      req.op = .get ∧ req.mcdData = addr ∧ Asks n x.entry req ∧
      req.rest n = (x.entry addr).totsize - pageBytes * n := by
  have hnot : ¬ x.ringFull = true := by simp [hring]
  simp only [mcdctlPageIn, if_neg hnot]
  exact ⟨_, rfl, rfl, rfl, ⟨rfl, rfl, rfl, Op.noConfusion, fun _ => rfl⟩, rfl⟩

/-- The request for the part after a full one. -/
theorem mcdctlPageIn_asks (addr : Nat) (hn : 0 < n) (hring : x.ringFull = false)
    (hfull : m.cursize = pageBytes * n) (hfin : ¬ m.flags.final = true) :
    ∃ req kv, mcdctlPageIn n addr (some m) x =
        some { x with keyVal := kv, requests := x.requests ++ [req] } ∧
      req.op = .get ∧ req.mcdData = addr ∧ Asks n x.entry req ∧
      req.rest n = (x.entry addr).totsize - (m.accsize + pageBytes * n) - pageBytes * n := by
  have hnot : ¬ x.ringFull = true := by simp [hring]
  have h0 : ¬ m.cursize = 0 := by
    unfold pageBytes at hfull
    omega
  obtain ⟨-, hacc⟩ := takePages_spec x.sharedPage m.cursize n 0 m.accsize m.cursize
    (x.keyVal addr) (Nat.le_of_eq hfull) hn
  simp only [mcdctlPageIn, if_neg hnot, if_neg h0, if_neg hfin]
  refine ⟨_, _, rfl, rfl, rfl, ⟨rfl, rfl, rfl, Op.noConfusion, fun _ => rfl⟩, ?_⟩
  simp only [Msg.rest, hacc hfull]
  rw [hfull]

/-- What Xen does with a response: it ends the exchange or asks for the next part. -/
theorem mcdEventResume_cases (h : Tells n x.entry m) (hn : 0 < n) (hring : x.ringFull = false) :
    ∃ kv shared, mcdEventResume n m x =
        World.unlock m.op { x with keyVal := kv, sharedPage := shared } ∨
      ∃ req, mcdEventResume n m x =
          { x with keyVal := kv, sharedPage := shared, requests := x.requests ++ [req] } ∧
        req.op = m.op ∧ req.mcdData = m.mcdData ∧ Asks n x.entry req ∧ 0 < m.rest n ∧
        req.rest n = m.rest n - pageBytes * n := by
  rcases h.sound with herror | ⟨hgood, hfinal, hcur⟩
  · -- an error ends the exchange
    have hne : ¬ m.flags = {} := by
      intro he
      rw [he] at herror
      cases herror
    exact ⟨x.keyVal, x.sharedPage, .inl (by simp only [mcdEventResume, if_neg hne, if_pos herror])⟩
  · have herror : ¬ m.flags.error = true := by simp [hgood.error]
    have hended : ¬ m.flags.ended = true := by simp [hgood.ended]
    have hnot : ¬ x.ringFull = true := by simp [hring]
    simp only [mcdEventResume, if_neg hgood.ne_empty, if_neg herror, if_neg hended]
    cases hop : m.op with
    | put =>
      by_cases hfin : m.flags.final = true
      · exact ⟨x.keyVal, x.sharedPage, .inl (by simp only [if_pos hfin])⟩
      · have hrest : m.rest n = m.totsize - m.accsize := by simp only [Msg.rest, hop]
        have hmore : ¬ m.rest n = 0 := by
          rw [hfinal, decide_eq_true_eq] at hfin
          exact hfin
        obtain ⟨req, shared, hout, hreq, haddr, hasks, hleft⟩ :=
          mcdctlPageOut_asks m.mcdData (some m) hn hring
        refine ⟨x.keyVal, shared, .inr ⟨req, by simp only [if_neg hfin, hout], hreq, haddr, hasks,
          Nat.pos_of_ne_zero hmore, ?_⟩⟩
        rw [hleft, hrest, h.tot]
        rfl
    | get =>
      have hsize := hcur hop
      by_cases h0 : m.cursize = 0
      · -- a size of zero is refused
        exact ⟨x.keyVal, x.sharedPage, .inl (by simp only [mcdctlPageIn, if_neg hnot, if_pos h0])⟩
      by_cases hfin : m.flags.final = true
      · let r := takePages x.sharedPage m.cursize n 0 m.accsize m.cursize (x.keyVal m.mcdData)
        exact ⟨Function.update x.keyVal m.mcdData r.2, x.sharedPage,
          .inl (by simp only [mcdctlPageIn, if_neg hnot, if_neg h0, if_pos hfin, r])⟩
      · have hrest : m.rest n = m.totsize - m.accsize - pageBytes * n := by
          simp only [Msg.rest, hop]
        have hmore : ¬ m.rest n = 0 := by
          rw [hfinal, decide_eq_true_eq] at hfin
          exact hfin
        have hfull : m.cursize = pageBytes * n := by
          rw [hsize, part_of_not_le (by omega)]
        obtain ⟨req, kv, hin, hreq, haddr, hasks, hleft⟩ :=
          mcdctlPageIn_asks m.mcdData hn hring hfull hfin
        refine ⟨kv, x.sharedPage, .inr ⟨req, by simp only [hin, if_neg hfin], hreq, haddr, hasks,
          Nat.pos_of_ne_zero hmore, ?_⟩⟩
        rw [hleft, hrest, h.tot, Nat.sub_add_eq]

end

/-- Whether the lock of a direction is taken. -/
def World.locked (op : Op) (x : World β) : Bool :=
  match op with
  | .put => x.putLock
  | .get => x.getLock

def World.lock (op : Op) (x : World β) : World β :=
  match op with
  | .put => { x with putLock := true }
  | .get => { x with getLock := true }

section
variable {op op' : Op} (x : World β)

@[simp] theorem lock_entry : (x.lock op).entry = x.entry := by cases op <;> rfl
@[simp] theorem lock_requests : (x.lock op).requests = x.requests := by cases op <;> rfl
@[simp] theorem lock_responses : (x.lock op).responses = x.responses := by cases op <;> rfl
@[simp] theorem unlock_entry : (x.unlock op).entry = x.entry := by cases op <;> rfl
@[simp] theorem unlock_requests : (x.unlock op).requests = x.requests := by cases op <;> rfl
@[simp] theorem unlock_responses : (x.unlock op).responses = x.responses := by cases op <;> rfl
@[simp] theorem locked_lock : (x.lock op).locked op = true := by cases op <;> rfl
@[simp] theorem locked_unlock : (x.unlock op).locked op = false := by cases op <;> rfl

theorem locked_lock_of_ne (h : op' ≠ op) : (x.lock op).locked op' = x.locked op' := by
  cases op <;> cases op' <;> first | rfl | exact absurd rfl h

theorem locked_unlock_of_ne (h : op' ≠ op) : (x.unlock op).locked op' = x.locked op' := by
  cases op <;> cases op' <;> first | rfl | exact absurd rfl h

/-- Only the lock bits say whether a lock is taken. -/
theorem locked_congr {y : World β} (hput : y.putLock = x.putLock) (hget : y.getLock = x.getLock) :
    y.locked op = x.locked op := by
  cases op
  · exact hput
  · exact hget

end

/-- What a virtual CPU wants moved, and which way. -/
structure Job where
  op : Op
  addr : Nat
  deriving DecidableEq, Repr

/-- `minf_page_out` or `minf_page_in`. -/
def Job.start (n : Nat) (j : Job) (x : World β) : Option (World β × Bool) :=
  match j.op with
  | .put => minfPageOut n j.addr x
  | .get => minfPageIn n j.addr x

/-- Where a virtual CPU is in `mcd_page_out` or `mcd_page_in`: before the call, after it, where it
takes the lock once more to wait for the end, turned away, or past the lock. -/
inductive Phase
  | calling | waiting | refused | done
  deriving DecidableEq, Repr

/-- The world and the virtual CPUs that use it. -/
structure Crew (ι β : Type) where
  world : World β
  phase : ι → Phase

inductive CrewAct (ι : Type)
  | begin (i : ι)
  | wake (i : ι)
  | serve
  | resume
  deriving DecidableEq, Repr

section
variable {ι : Type} [DecidableEq ι]

/-- One atomic step. A virtual CPU that finds its lock taken spins: it has no step. -/
def Crew.step (n : Nat) (job : ι → Job) (p : Crew ι β) : CrewAct ι → Option (Crew ι β)
  | .begin i =>
    if p.phase i = .calling then
      ((job i).start n p.world).map fun r =>
        { world := r.1, phase := Function.update p.phase i (if r.2 then .waiting else .refused) }
    else none
  | .wake i =>
    if p.phase i = .waiting ∧ p.world.locked (job i).op = false then
      some { p with phase := Function.update p.phase i .done }
    else none
  | .serve => (p.world.serve n).map fun y => { p with world := y }
  | .resume => (p.world.resume n).map fun y => { p with world := y }

/-- The runs of the virtual CPUs, the daemon, and the hypercalls that hand back its responses. -/
def Crew.Runs (n : Nat) (job : ι → Job) : Crew ι β → List (CrewAct ι) → Crew ι β → Prop :=
  Trace fun p act q => p.step n job act = some q

end

/-- Nobody has called yet. -/
def Crew.start {ι : Type} (x : World β) : Crew ι β := ⟨x, fun _ => .calling⟩

/-- No lock is taken and no message on its way. -/
structure World.Calm (x : World β) : Prop where
  locked : ∀ op, x.locked op = false
  requests : x.requests = []
  responses : x.responses = []

instance : Fintype Op := ⟨{.put, .get}, fun op => by cases op <;> decide⟩

section
variable {ι : Type} {n : Nat} {job : ι → Job} {x y : World β} {op : Op} {m : Msg} {rest : List Msg}

/-- What a lane of the turnstile is in the world. -/
inductive Lane (n : Nat) (job : ι → Job) (x : World β) (op : Op) : Option (Stage × ι × Nat) → Prop
  | free : x.locked op = false → x.pending op = ([], []) → Lane n job x op none
  | asked {m : Msg} {i : ι} : x.locked op = true → x.pending op = ([m], []) →
      Asks n x.entry m → m.mcdData = (job i).addr →
      Lane n job x op (some (.asked, i, rounds n (m.rest n)))
  | answered {m : Msg} {i : ι} : x.locked op = true → x.pending op = ([], [m]) →
      Tells n x.entry m → m.mcdData = (job i).addr →
      Lane n job x op (some (.answered, i, rounds n (m.rest n)))

theorem Lane.congr {f : Option (Stage × ι × Nat)} (h : Lane n job x op f)
    (hentry : y.entry = x.entry) (hlocked : y.locked op = x.locked op)
    (hpending : y.pending op = x.pending op) :
    Lane n job y op f := by
  cases h with
  | free hl hp => exact .free (hlocked.trans hl) (hpending.trans hp)
  | asked hl hp hm ha => exact .asked (hlocked.trans hl) (hpending.trans hp) (hentry ▸ hm) ha
  | answered hl hp hm ha => exact .answered (hlocked.trans hl) (hpending.trans hp) (hentry ▸ hm) ha

theorem Lane.length_le {f : Option (Stage × ι × Nat)} (h : Lane n job x op f) :
    (x.pending op).1.length + (x.pending op).2.length ≤ 1 := by
  cases h with
  | free _ hp => simp [hp]
  | asked _ hp => simp [hp]
  | answered _ hp => simp [hp]

/-- Two lanes never fill the ring. -/
theorem messages_le {g : Op → Option (Stage × ι × Nat)} (h : ∀ op, Lane n job x op (g op)) :
    x.requests.length + x.responses.length ≤ 2 := by
  have hput := (h .put).length_le
  have hget := (h .get).length_le
  have hreq := length_by_op x.requests
  have hrsp := length_by_op x.responses
  simp only [World.pending] at hput hget
  omega

theorem ringFull_of_le (h : x.requests.length + x.responses.length ≤ 2) : x.ringFull = false := by
  unfold World.ringFull ringSlots
  exact decide_eq_false (by omega)

theorem start_of_locked {j : Job} (h : x.locked j.op = true) : j.start n x = none := by
  unfold Job.start
  cases hop : j.op with
  | put => simp_all [World.locked, minfPageOut]
  | get => simp_all [World.locked, minfPageIn]

/-- A call that finds its lock free takes it and sends a request. -/
theorem start_of_free {j : Job} (hn : 0 < n) (hfree : x.locked j.op = false)
    (hring : x.ringFull = false) :
    ∃ req shared, j.start n x = some
        ({ x.lock j.op with sharedPage := shared, requests := x.requests ++ [req] }, true) ∧
      req.op = j.op ∧ req.mcdData = j.addr ∧ Asks n x.entry req ∧
      req.rest n = (x.entry j.addr).totsize - pageBytes * n := by
  unfold Job.start
  cases hop : j.op with
  | put =>
    rw [hop] at hfree
    have hnot : ¬ x.putLock = true := by simpa [World.locked] using hfree
    obtain ⟨req, shared, hout, h⟩ :=
      mcdctlPageOut_asks (x := { x with putLock := true }) j.addr none hn hring
    exact ⟨req, shared, by simp only [minfPageOut, if_neg hnot, hout]; rfl, h⟩
  | get =>
    rw [hop] at hfree
    have hnot : ¬ x.getLock = true := by simpa [World.locked] using hfree
    obtain ⟨req, hin, h⟩ :=
      mcdctlPageIn_opens (n := n) (x := { x with getLock := true }) j.addr hring
    exact ⟨req, x.sharedPage, by simp only [minfPageIn, if_neg hnot, hin]; rfl, h⟩

variable {g : Op → Option (Stage × ι × Nat)}

/-- A step of one direction leaves the other lane as it is. -/
theorem lanes_update {f : Option (Stage × ι × Nat)} (h : ∀ op, Lane n job x op (g op))
    (hentry : y.entry = x.entry) (hlocked : ∀ op', op' ≠ op → y.locked op' = x.locked op')
    (hpending : ∀ op', op' ≠ op → y.pending op' = x.pending op') (hself : Lane n job y op f) :
    ∀ op', Lane n job y op' (Function.update g op f op') := by
  intro op'
  by_cases hop : op' = op
  · subst hop
    rw [Function.update_self]
    exact hself
  · rw [Function.update_of_ne hop]
    exact (h op').congr hentry (hlocked op' hop) (hpending op' hop)

theorem start_lanes {i : ι} (hn : 0 < n) (h : ∀ op, Lane n job x op (g op))
    (hfree : x.locked (job i).op = false) :
    ∃ y, (job i).start n x = some (y, true) ∧ y.entry = x.entry ∧ g (job i).op = none ∧
      ∀ op, Lane n job y op (Function.update g (job i).op
        (some (.asked, i, rounds n ((x.entry (job i).addr).totsize - pageBytes * n))) op) := by
  obtain ⟨req, shared, hstart, hop, haddr, hasks, hrest⟩ :=
    start_of_free hn hfree (ringFull_of_le (messages_le h))
  have hlane := h (job i).op
  generalize hf : g (job i).op = f at hlane
  cases hlane with
  | free _ hp =>
    refine ⟨_, hstart, lock_entry x, rfl, lanes_update h (lock_entry x)
      (fun op' hne => locked_lock_of_ne x hne) (fun op' hne => ?_) ?_⟩
    · have hno : ¬ req.op = op' := fun he => hne (he.symm.trans hop)
      simp [World.pending, hno]
    · rw [← hrest]
      refine .asked (locked_lock x) ?_ (by simpa using hasks) haddr
      simp only [World.pending, Prod.mk.injEq] at hp ⊢
      simp [hp, hop]
  | asked hl => exact absurd (hfree.symm.trans hl) Bool.false_ne_true
  | answered hl => exact absurd (hfree.symm.trans hl) Bool.false_ne_true

/-- The daemon answers the one request of a lane. -/
theorem serve_lanes (hn : 0 < n) (h : ∀ op, Lane n job x op (g op)) (hx : x.requests = m :: rest) :
    ∃ y i r, x.serve n = some y ∧ y.entry = x.entry ∧ g m.op = some (.asked, i, r) ∧
      ∀ op, Lane n job y op (Function.update g m.op (some (.answered, i, r)) op) := by
  have hfirst : (x.pending m.op).1 = m :: rest.filter (·.op = m.op) := by simp [World.pending, hx]
  have hlane := h m.op
  generalize hf : g m.op = f at hlane
  cases hlane with
  | @asked m' i hl hp hasks haddr =>
    rw [hp] at hfirst
    obtain ⟨hm, hrest⟩ := List.cons.inj hfirst
    subst hm
    obtain ⟨rsp, shared, disk, hans, hsame, htells⟩ :=
      answer_tells hasks hn { x with requests := rest }
    have hserve : x.serve n = some { x with
        requests := rest, responses := x.responses ++ [rsp]
        sharedPage := shared, disk := disk } := by
      simp only [World.serve, hx, hans]
    have hnone : x.responses.filter (·.op = m'.op) = [] := congrArg Prod.snd hp
    refine ⟨_, i, _, hserve, rfl, rfl, lanes_update h rfl
      (fun op' _ => locked_congr x rfl rfl) (fun op' hne => ?_) ?_⟩
    · have hno : ¬ m'.op = op' := fun he => hne he.symm
      simp [World.pending, hx, hno, hsame.op]
    · rw [← hsame.rest n]
      refine .answered ((locked_congr x rfl rfl).trans hl) ?_ htells (hsame.addr.trans haddr)
      simp [World.pending, ← hrest, hnone, hsame.op]
  | free _ hp =>
    rw [hp] at hfirst
    cases hfirst
  | answered _ hp =>
    rw [hp] at hfirst
    cases hfirst

/-- Xen takes the one response of a lane: the lane is free, or one part further. -/
theorem resume_lanes (hn : 0 < n) (h : ∀ op, Lane n job x op (g op))
    (hx : x.responses = m :: rest) :
    ∃ y i r, x.resume n = some y ∧ y.entry = x.entry ∧ g m.op = some (.answered, i, r) ∧
      ((∀ op, Lane n job y op (Function.update g m.op none op)) ∨
        ∃ r', r = r' + 1 ∧
          ∀ op, Lane n job y op (Function.update g m.op (some (.asked, i, r')) op)) := by
  have hfirst : (x.pending m.op).2 = m :: rest.filter (·.op = m.op) := by simp [World.pending, hx]
  have hring : ({ x with responses := rest } : World β).ringFull = false := by
    have hle := messages_le h
    rw [hx, List.length_cons] at hle
    exact ringFull_of_le (by simp only; omega)
  have hlane := h m.op
  generalize hf : g m.op = f at hlane
  cases hlane with
  | @answered m' i hl hp htells haddr =>
    rw [hp] at hfirst
    obtain ⟨hm, hrest⟩ := List.cons.inj hfirst
    subst hm
    have htake : x.resume n = some (mcdEventResume n m' { x with responses := rest }) := by
      simp only [World.resume, hx]
    have hnone : x.requests.filter (·.op = m'.op) = [] := congrArg Prod.fst hp
    obtain ⟨kv, shared, hend | ⟨req, hmore, hop, haddr', hasks, hpos, hleft⟩⟩ :=
      mcdEventResume_cases (x := { x with responses := rest }) htells hn hring
    · refine ⟨_, i, _, htake, ?_, rfl, .inl ?_⟩
      · rw [hend, unlock_entry]
      · rw [hend]
        refine lanes_update h (unlock_entry _) (fun op' hne => ?_) (fun op' hne => ?_)
          (.free (locked_unlock _) ?_)
        · exact (locked_unlock_of_ne _ hne).trans (locked_congr x rfl rfl)
        · have hno : ¬ m'.op = op' := fun he => hne he.symm
          simp [World.pending, hx, hno]
        · simp [World.pending, ← hrest, hnone]
    · refine ⟨_, i, _, htake, ?_, rfl, .inr ⟨rounds n (req.rest n), ?_, ?_⟩⟩
      · rw [hmore]
      · rw [hleft, ← rounds_of_pos hn hpos]
      · rw [hmore]
        refine lanes_update h rfl (fun op' _ => locked_congr x rfl rfl) (fun op' hne => ?_)
          (.asked ((locked_congr x rfl rfl).trans hl) ?_ hasks (haddr'.trans haddr))
        · have hno : ¬ m'.op = op' := fun he => hne he.symm
          simp [World.pending, hx, hno, hop]
        · simp [World.pending, ← hrest, hnone, hop]
  | free _ hp =>
    rw [hp] at hfirst
    cases hfirst
  | asked _ hp =>
    rw [hp] at hfirst
    cases hfirst

end

/-- The place at the turnstile; one who is turned away has none. -/
def Phase.place : Phase → Option Place
  | .calling => some .outside
  | .waiting => some .inside
  | .refused => none
  | .done => some .through

/-- The parts of a job after its first. -/
def Job.more (n : Nat) (entry : Nat → Entry) (j : Job) : Nat :=
  rounds n ((entry j.addr).totsize - pageBytes * n)

section
variable {ι : Type} {n : Nat} {entry : Nat → Entry} {job : ι → Job}
  {x : World β} {p q : Crew ι β} {g : Turnstile Op ι} {act : CrewAct ι}

/-- The turnstile that a crew is. -/
structure Crew.Shows (n : Nat) (entry : Nat → Entry) (job : ι → Job) (p : Crew ι β)
    (g : Turnstile Op ι) : Prop where
  entry : p.world.entry = entry
  lane : ∀ op, Lane n job p.world op (g.lane op)
  place : ∀ i, (p.phase i).place = some (g.place i)
  held : g.Held fun i => (job i).op

theorem shows_start (hx : x.Calm) : Crew.Shows n x.entry job (Crew.start x) Turnstile.empty where
  entry := rfl
  lane op := .free (hx.locked op) (by simp [World.pending, Crew.start, hx.requests, hx.responses])
  place _ := rfl
  held := Turnstile.held_empty

theorem Crew.Shows.lane_none {op : Op} (h : Crew.Shows n entry job p g)
    (hfree : p.world.locked op = false) :
    g.lane op = none := by
  have hlane := h.lane op
  generalize g.lane op = f at hlane ⊢
  cases hlane with
  | free => rfl
  | asked hl => exact absurd (hfree.symm.trans hl) Bool.false_ne_true
  | answered hl => exact absurd (hfree.symm.trans hl) Bool.false_ne_true

theorem Crew.Shows.not_refused (h : Crew.Shows n entry job p g) (i : ι) : p.phase i ≠ .refused := by
  intro hi
  have hp := h.place i
  rw [hi] at hp
  cases hp

theorem Crew.Shows.waiting_of_inside {i : ι} (h : Crew.Shows n entry job p g)
    (hin : g.place i = .inside) :
    p.phase i = .waiting := by
  have hp := h.place i
  rw [hin] at hp
  cases hi : p.phase i <;> rw [hi] at hp <;> first | rfl | cases hp

/-- A taken lock stands for one message. -/
theorem Crew.Shows.pending_length (h : Crew.Shows n entry job p g) (op : Op) :
    (p.world.pending op).1.length + (p.world.pending op).2.length =
      if p.world.locked op then 1 else 0 := by
  have hlane := h.lane op
  generalize g.lane op = f at hlane
  cases hlane with
  | free hl hp => simp [hl, hp]
  | asked hl hp => simp [hl, hp]
  | answered hl hp => simp [hl, hp]

/-- A message on its way is about the entry of a virtual CPU that waits. -/
theorem Crew.Shows.owner {op : Op} {m : Msg} (h : Crew.Shows n entry job p g)
    (hm : m ∈ (p.world.pending op).1 ++ (p.world.pending op).2) :
    ∃ i, p.phase i = .waiting ∧ job i = ⟨op, m.mcdData⟩ := by
  have hheld := h.held op
  have hlane := h.lane op
  generalize g.lane op = f at hlane hheld
  cases hlane with
  | free _ hp =>
    rw [hp] at hm
    cases hm
  | asked _ hp _ haddr =>
    obtain rfl : m = _ := by simpa [hp] using hm
    obtain ⟨hway, hin⟩ := hheld _ _ _ rfl
    exact ⟨_, h.waiting_of_inside hin, by rw [haddr, ← hway]⟩
  | answered _ hp _ haddr =>
    obtain rfl : m = _ := by simpa [hp] using hm
    obtain ⟨hway, hin⟩ := hheld _ _ _ rfl
    exact ⟨_, h.waiting_of_inside hin, by rw [haddr, ← hway]⟩

variable [DecidableEq ι]

/-- The moves of the turnstile with the lanes and the parts of the jobs. -/
def Crew.Passes (n : Nat) (entry : Nat → Entry) (job : ι → Job) :
    Turnstile Op ι → Turnstile Op ι → Prop :=
  Turnstile.Moves (fun i => (job i).op) (fun i => (job i).more n entry)

theorem place_update {i : ι} {f : ι → Phase} {f' : ι → Place} {ph : Phase} {pl : Place}
    (h : ∀ j, (f j).place = some (f' j)) (hi : ph.place = some pl) (j : ι) :
    (Function.update f i ph j).place = some (Function.update f' i pl j) := by
  by_cases hj : j = i
  · subst hj
    rw [Function.update_self, Function.update_self, hi]
  · rw [Function.update_of_ne hj, Function.update_of_ne hj, h j]

/-- Each step of a crew is a move through the turnstile. -/
theorem Crew.Shows.step (h : Crew.Shows n entry job p g) (hn : 0 < n)
    (hstep : p.step n job act = some q) :
    ∃ g', Crew.Passes n entry job g g' ∧ Crew.Shows n entry job q g' := by
  cases act with
  | begin i =>
    simp only [Crew.step, Option.ite_none_right_eq_some, Option.map_eq_some_iff] at hstep
    obtain ⟨hcall, r, hr, rfl⟩ := hstep
    have hfree : p.world.locked (job i).op = false := by
      by_contra hl
      rw [start_of_locked (Bool.eq_true_of_not_eq_false hl)] at hr
      cases hr
    obtain ⟨y, hy, hentry, hnone, hlanes⟩ := start_lanes hn h.lane hfree
    rw [hy] at hr
    cases hr
    have hout : g.place i = .outside := by
      have hp := h.place i
      rw [hcall] at hp
      exact (Option.some.inj hp).symm
    have hmove : Crew.Passes n entry job g _ := .enter hout hnone
    refine ⟨_, hmove, ⟨hentry.trans h.entry, ?_, place_update h.place rfl, hmove.held h.held⟩⟩
    rw [h.entry] at hlanes
    exact hlanes
  | wake i =>
    simp only [Crew.step, Option.ite_none_right_eq_some, Option.some.injEq] at hstep
    obtain ⟨⟨hwait, hfree⟩, rfl⟩ := hstep
    have hin : g.place i = .inside := by
      have hp := h.place i
      rw [hwait] at hp
      exact (Option.some.inj hp).symm
    have hmove : Crew.Passes n entry job g _ := .leave hin (h.lane_none hfree)
    exact ⟨_, hmove, ⟨h.entry, h.lane, place_update h.place rfl, hmove.held h.held⟩⟩
  | serve =>
    obtain ⟨y', hy', rfl⟩ := Option.map_eq_some_iff.mp hstep
    cases hreq : p.world.requests with
    | nil =>
      simp only [World.serve, hreq] at hy'
      cases hy'
    | cons m rest =>
      obtain ⟨y, i, r, hy, hentry, hlane, hlanes⟩ := serve_lanes hn h.lane hreq
      cases hy.symm.trans hy'
      have hmove : Crew.Passes n entry job g _ := .answer hlane
      exact ⟨_, hmove, ⟨hentry.trans h.entry, hlanes, h.place, hmove.held h.held⟩⟩
  | resume =>
    obtain ⟨y', hy', rfl⟩ := Option.map_eq_some_iff.mp hstep
    cases hrsp : p.world.responses with
    | nil =>
      simp only [World.resume, hrsp] at hy'
      cases hy'
    | cons m rest =>
      obtain ⟨y, i, r, hy, hentry, hlane, hend⟩ := resume_lanes hn h.lane hrsp
      cases hy.symm.trans hy'
      rcases hend with hlanes | ⟨r', rfl, hlanes⟩
      · have hmove : Crew.Passes n entry job g _ := .free hlane
        exact ⟨_, hmove, ⟨hentry.trans h.entry, hlanes, h.place, hmove.held h.held⟩⟩
      · have hmove : Crew.Passes n entry job g _ := .next hlane
        exact ⟨_, hmove, ⟨hentry.trans h.entry, hlanes, h.place, hmove.held h.held⟩⟩

/-- Where nobody has a step, everybody is done. -/
theorem Crew.Shows.settled (h : Crew.Shows n entry job p g) (hn : 0 < n)
    (hstuck : ∀ act, p.step n job act = none) : (∀ i, p.phase i = .done) ∧ p.world.Calm := by
  have hreq : p.world.requests = [] := by
    cases hreq : p.world.requests with
    | nil => rfl
    | cons m rest =>
      obtain ⟨y, i, r, hy, -⟩ := serve_lanes hn h.lane hreq
      have hnone := hstuck .serve
      simp only [Crew.step, hy] at hnone
      cases hnone
  have hrsp : p.world.responses = [] := by
    cases hrsp : p.world.responses with
    | nil => rfl
    | cons m rest =>
      obtain ⟨y, i, r, hy, -⟩ := resume_lanes hn h.lane hrsp
      have hnone := hstuck .resume
      simp only [Crew.step, hy] at hnone
      cases hnone
  have hfree (op : Op) : p.world.locked op = false := by
    have hlane := h.lane op
    generalize g.lane op = f at hlane
    cases hlane with
    | free hl => exact hl
    | asked _ hp => simp [World.pending, hreq] at hp
    | answered _ hp => simp [World.pending, hrsp] at hp
  refine ⟨fun i => ?_, hfree, hreq, hrsp⟩
  cases hi : p.phase i with
  | calling =>
    obtain ⟨y, hy, -⟩ := start_lanes hn h.lane (hfree (job i).op)
    have hnone := hstuck (.begin i)
    simp only [Crew.step, if_pos hi, hy] at hnone
    cases hnone
  | waiting =>
    have hnone := hstuck (.wake i)
    simp only [Crew.step, if_pos (And.intro hi (hfree (job i).op))] at hnone
    cases hnone
  | refused =>
    have hp := h.place i
    rw [hi] at hp
    cases hp
  | done => rfl

variable [Fintype ι]

theorem runs_shows {l : List (CrewAct ι)} (hn : 0 < n) (hx : x.Calm)
    (hrun : Crew.Runs n job (Crew.start x) l p) :
    ∃ g, Crew.Shows n x.entry job p g ∧ l.length ≤ ∑ i, (2 * (job i).more n x.entry + 4) := by
  obtain ⟨g, htrace, hg⟩ := Trace.simulate (fun g _ g' => Crew.Passes n x.entry job g g')
    (fun hs hstep => Crew.Shows.step hs hn hstep) hrun (shows_start hx)
  have hlen := Trace.length_le_measure (fun hmove => hmove.rank_lt) htrace
  rw [Turnstile.rank_empty] at hlen
  exact ⟨g, hg, Nat.le_trans (Nat.le_add_right ..) hlen⟩

/-- Every run goes on to one in which all are done: it cannot go on for ever, and where it stops
nobody waits. -/
theorem runs_complete {l : List (CrewAct ι)} (hn : 0 < n) (hx : x.Calm)
    (hrun : Crew.Runs n job (Crew.start x) l p) :
    ∃ l' q, Crew.Runs n job p l' q ∧ ∀ i, q.phase i = .done := by
  have hbound {l' : List (CrewAct ι)} {q : Crew ι β} (hq : Crew.Runs n job p l' q) :
      l'.length ≤ ∑ i, (2 * (job i).more n x.entry + 4) := by
    obtain ⟨_, -, hle⟩ := runs_shows hn hx (hrun.append hq)
    rw [List.length_append] at hle
    omega
  obtain ⟨l', q, hq, hstuck⟩ := Trace.exists_settled hbound
  obtain ⟨g, hg, -⟩ := runs_shows hn hx (hrun.append hq)
  refine ⟨l', q, hq, (hg.settled hn fun act => ?_).1⟩
  cases hact : q.step n job act with
  | none => rfl
  | some u => exact absurd hact (hstuck act u)

/-- Virtual CPUs that page out and in concurrently, whatever the daemon finds on its disk: a taken
lock stands for one message on its way, about the entry of a virtual CPU that waits, so none is
turned away and one that gets past its lock has seen its exchange end. Every schedule is finite and
can be carried on until all are done; where it cannot be carried on, they are. -/
theorem crew_settles {l : List (CrewAct ι)} (hn : 0 < n) (hx : x.Calm)
    (hrun : Crew.Runs n job (Crew.start x) l p) :
    (∀ i, p.phase i ≠ .refused) ∧
    (∀ op, (p.world.pending op).1.length + (p.world.pending op).2.length =
      if p.world.locked op then 1 else 0) ∧
    (∀ op, ∀ m ∈ (p.world.pending op).1 ++ (p.world.pending op).2,
      ∃ i, p.phase i = .waiting ∧ job i = ⟨op, m.mcdData⟩) ∧
    l.length ≤ ∑ i, (2 * (job i).more n x.entry + 4) ∧
    (∃ l' q, Crew.Runs n job p l' q ∧ ∀ i, q.phase i = .done) ∧
    ((∀ act, p.step n job act = none) → (∀ i, p.phase i = .done) ∧ p.world.Calm) := by
  obtain ⟨g, hg, hlen⟩ := runs_shows hn hx hrun
  exact ⟨hg.not_refused, hg.pending_length, fun op m hm => hg.owner hm, hlen,
    runs_complete hn hx hrun, hg.settled hn⟩

end

/-- Two page-outs and a page-in. -/
def threeJobs : Fin 3 → Job
  | 0 => ⟨.put, 0⟩
  | 1 => ⟨.get, 1⟩
  | 2 => ⟨.put, 1⟩

/-- The second page-out takes the lock before the first virtual CPU has looked at it again. -/
def lockTakenAgain : List (CrewAct (Fin 3)) := [.begin 0, .begin 1, .serve, .resume, .begin 2]

theorem calm_two : World.two.Calm := ⟨fun op => by cases op <;> rfl, rfl, rfl⟩

theorem crew_settles_lock_taken_again :
    ∃ p, Crew.Runs 1 threeJobs (Crew.start World.two) lockTakenAgain p ∧ p.phase 0 = .waiting ∧
      p.world.putLock = true ∧ ∃ l q, Crew.Runs 1 threeJobs p l q ∧ ∀ i, q.phase i = .done := by
  have hrun : (lockTakenAgain.foldlM (Crew.step 1 threeJobs) (Crew.start World.two)).map
      (fun p => (p.phase 0, p.world.putLock)) = some (.waiting, true) := by decide +kernel
  obtain ⟨p, hp, heq⟩ := Option.map_eq_some_iff.mp hrun
  have hruns : Crew.Runs 1 threeJobs (Crew.start World.two) lockTakenAgain p := Trace.of_foldlM hp
  obtain ⟨-, -, -, -, hdone, -⟩ := crew_settles Nat.one_pos calm_two hruns
  exact ⟨p, hruns, congrArg Prod.fst heq, congrArg Prod.snd heq, hdone⟩

end UniCache.Transfer
