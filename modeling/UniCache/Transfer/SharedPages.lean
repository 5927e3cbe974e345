import UniCache.Transfer.Protocol
import UniCache.Transfer.Ring

/-! The shared pages while the daemon adds to them. Xen counts a new page inside the daemon's hypercall
and the daemon counts it afterwards; other virtual CPUs fill pages and put requests in between. -/
namespace UniCache.Transfer
open Base Mcd

/-! ### Adding pages -/

/-- `MAX_SHARED_PAGES`. -/
def maxSharedPages : Nat := 1280

/-- `num_shared_page` and `shared_page[]` of one side; a page is named by its frame, and `none` is
`NULL`. -/
structure SharedPages (π : Type) where
  num : Nat
  page : Nat → Option π

/-- How `MCD_EVENT_OP_ADD_SHARED_PAGE` goes on: no valid frame, a frame that cannot be mapped, or one
that can. -/
inductive AddResult
  | invalid | unmapped | mapped
  deriving DecidableEq, Repr

section
variable {π : Type}

/-- `shared_page[i] = frame`. -/
def SharedPages.setPage (i : Nat) (frame : Option π) (s : SharedPages π) : SharedPages π :=
  { s with page := Function.update s.page i frame }

@[simp] theorem SharedPages.setPage_num (s : SharedPages π) (i : Nat) (frame : Option π) :
    (s.setPage i frame).num = s.num := rfl

@[simp] theorem SharedPages.setPage_same (s : SharedPages π) (i : Nat) (frame : Option π) :
    (s.setPage i frame).page i = frame := Function.update_self ..

theorem SharedPages.setPage_of_ne (s : SharedPages π) {i j : Nat} (frame : Option π) (h : j ≠ i) :
    (s.setPage i frame).page j = s.page j := Function.update_of_ne h ..

/-- `mcd_event_add_shared_page`, with what `map_domain_page` returns. -/
def SharedPages.mcdEventAddSharedPage (frame : Option π) (s : SharedPages π) :
    Int × SharedPages π :=
  if s.num ≥ maxSharedPages then (1, s)
  else
    let s := s.setPage s.num frame
    if frame.isNone then (1, s) else (0, { s with num := s.num + 1 })

/-- The hypercall: its result, which is also that of the daemon's library call. -/
def SharedPages.addHypercall (r : AddResult) (frame : π) (s : SharedPages π) :
    Int × SharedPages π :=
  match r with
  | .invalid => (-22, s)
  | .unmapped => s.mcdEventAddSharedPage none
  | .mapped => s.mcdEventAddSharedPage (some frame)

/-- Where the daemon is in `mcd_add_shared_page`; its loop is in the pass for `i` and ends at
`stop`. -/
inductive Adding
  | outside
  /-- Before `init_page`. -/
  | init (i stop : Nat)
  /-- Before the hypercall. -/
  | call (i stop : Nat)
  /-- The hypercall has succeeded, `num_shared_page++` is next. -/
  | count (i stop : Nat)
  | returned
  deriving DecidableEq, Repr

def Adding.loop (i stop : Nat) : Adding := if i < stop then .init i stop else .returned

/-- The head of `mcd_add_shared_page`. -/
def Adding.enter (num curr : Nat) : Adding :=
  if curr ≥ maxSharedPages then .returned
  else
    let add := if num > maxSharedPages - curr then maxSharedPages - curr else num
    .loop curr (curr + add)

/-- Both sides' pages. -/
structure PageTables (π : Type) where
  xen : SharedPages π
  daemon : SharedPages π
  adding : Adding

inductive AddEvent (π : Type)
  | enter
  | initPage (frame : Option π)
  | hypercall (r : AddResult)
  | count

/-- One step of the daemon in `mcd_add_shared_page(num)`. -/
def PageTables.step (num : Nat) (t : PageTables π) (e : AddEvent π) : Option (PageTables π) :=
  match t.adding, e with
  | .outside, .enter => some { t with adding := .enter num t.daemon.num }
  | .init i stop, .initPage frame => some { t with
      daemon := t.daemon.setPage i frame
      adding := if frame.isNone then .returned else .call i stop }
  | .call i stop, .hypercall r => match t.daemon.page i with
    | none => none
    | some frame =>
      let rc := t.xen.addHypercall r frame
      some { t with xen := rc.2, adding := if rc.1 ≠ 0 then .returned else .count i stop }
  | .count i stop, .count => some { t with
      daemon := { t.daemon with num := t.daemon.num + 1 }
      adding := .loop (i + 1) stop }
  | _, _ => none

/-- The pages after `mcd_init` and `mcd_event_enable`. -/
def SharedPages.first (frame : π) : SharedPages π :=
  { num := 1, page := fun i => if i = 0 then some frame else none }

def PageTables.start (frame : π) : PageTables π :=
  { xen := .first frame, daemon := .first frame, adding := .outside }

/-- By how many pages Xen is ahead of the daemon. -/
def Adding.ahead : Adding → Nat
  | .count _ _ => 1
  | _ => 0

/-- The pass the daemon is in is for the first page it does not count. -/
def Adding.AtEnd (daemon : SharedPages π) : Adding → Prop
  | .init i stop | .count i stop => i = daemon.num ∧ i < stop ∧ stop ≤ maxSharedPages
  | .call i stop => i = daemon.num ∧ i < stop ∧ stop ≤ maxSharedPages ∧ (daemon.page i).isSome
  | .outside | .returned => True

/-- The two sides name the same pages. -/
structure PageTables.Agree (t : PageTables π) : Prop where
  ahead : t.xen.num = t.daemon.num + t.adding.ahead
  max : t.xen.num ≤ maxSharedPages
  same : ∀ i < t.xen.num, ∃ frame, t.xen.page i = some frame ∧ t.daemon.page i = some frame
  pass : t.adding.AtEnd t.daemon

theorem PageTables.agree_start (frame : π) : (start frame).Agree where
  ahead := rfl
  max := by
    show 1 ≤ maxSharedPages
    decide
  same i hi := by
    have hzero : i = 0 := Nat.lt_one_iff.mp hi
    have hpage : (SharedPages.first frame).page 0 = some frame := rfl
    rw [hzero]
    exact ⟨frame, hpage, hpage⟩
  pass := trivial

theorem Adding.loop_atEnd {daemon : SharedPages π} {i stop : Nat} (hi : i = daemon.num)
    (hstop : stop ≤ maxSharedPages) : (Adding.loop i stop).AtEnd daemon := by
  unfold Adding.loop
  by_cases hlt : i < stop
  · rw [if_pos hlt]
    exact ⟨hi, hlt, hstop⟩
  · rw [if_neg hlt]
    trivial

theorem Adding.ahead_loop (i stop : Nat) : (Adding.loop i stop).ahead = 0 := by
  unfold Adding.loop
  split_ifs <;> rfl

/-- No number that is asked for leads past the last page. -/
theorem Adding.enter_atEnd (num : Nat) (daemon : SharedPages π) :
    (Adding.enter num daemon.num).AtEnd daemon ∧ (Adding.enter num daemon.num).ahead = 0 := by
  unfold Adding.enter
  by_cases hfull : daemon.num ≥ maxSharedPages
  · rw [if_pos hfull]
    exact ⟨trivial, rfl⟩
  · rw [if_neg hfull]
    refine ⟨Adding.loop_atEnd rfl ?_, Adding.ahead_loop _ _⟩
    split_ifs <;> omega

/-- A failed hypercall changes no page that is counted. -/
theorem SharedPages.addHypercall_failed {r : AddResult} {frame : π} {s : SharedPages π}
    (h : (s.addHypercall r frame).1 ≠ 0) :
    (s.addHypercall r frame).2.num = s.num ∧
      ∀ i < s.num, (s.addHypercall r frame).2.page i = s.page i := by
  have hkeeps : ∀ i < s.num, (s.setPage s.num none).page i = s.page i :=
    fun i hi => s.setPage_of_ne none (Nat.ne_of_lt hi)
  cases r with
  | invalid => exact ⟨rfl, fun _ _ => rfl⟩
  | unmapped =>
    unfold addHypercall mcdEventAddSharedPage at h ⊢
    by_cases hfull : s.num ≥ maxSharedPages
    · simp [hfull]
    · simpa [hfull] using hkeeps
  | mapped =>
    unfold addHypercall mcdEventAddSharedPage at h ⊢
    by_cases hfull : s.num ≥ maxSharedPages
    · simp [hfull]
    · simp [hfull] at h

theorem SharedPages.addHypercall_done {r : AddResult} {frame : π} {s : SharedPages π}
    (h : (s.addHypercall r frame).1 = 0) :
    s.num < maxSharedPages ∧ (s.addHypercall r frame).2 =
      { s.setPage s.num (some frame) with num := s.num + 1 } := by
  unfold addHypercall mcdEventAddSharedPage at h ⊢
  cases r with
  | invalid => simp at h
  | unmapped => by_cases hfull : s.num ≥ maxSharedPages <;> simp [hfull] at h
  | mapped =>
    by_cases hfull : s.num ≥ maxSharedPages
    · simp [hfull] at h
    · simp only [if_neg hfull]
      exact ⟨Nat.lt_of_not_le hfull, rfl⟩

namespace PageTables.Agree
variable {t u : PageTables π} {num i stop : Nat}

theorem initPage (h : t.Agree) (hat : t.adding = .init i stop) (frame : Option π) :
    Agree { t with
      daemon := t.daemon.setPage i frame
      adding := if frame.isNone then .returned else .call i stop } := by
  obtain ⟨hahead, hmax, hsame, hpass⟩ := h
  rw [hat] at hahead hpass
  obtain ⟨hi, hlt, hstop⟩ := hpass
  have hzero : (if frame.isNone then Adding.returned else .call i stop).ahead = 0 := by
    split_ifs <;> rfl
  refine ⟨by rw [hzero]; exact hahead, hmax, ?_, ?_⟩
  · intro j hj
    have hne : j ≠ i := by
      have hj : j < t.xen.num := hj
      have hnum : t.xen.num = t.daemon.num := hahead
      omega
    obtain ⟨f, hxen, hdaemon⟩ := hsame j hj
    exact ⟨f, hxen, (t.daemon.setPage_of_ne frame hne).trans hdaemon⟩
  · cases frame with
    | none => trivial
    | some f =>
      refine ⟨hi, hlt, hstop, ?_⟩
      rw [SharedPages.setPage_same]
      rfl

theorem hypercall (h : t.Agree) (hat : t.adding = .call i stop) (r : AddResult) {frame : π}
    (hframe : t.daemon.page i = some frame) :
    Agree { t with
        xen := (t.xen.addHypercall r frame).2
        adding := if (t.xen.addHypercall r frame).1 ≠ 0 then .returned else .count i stop } ∧
      t.xen.num ≤ (t.xen.addHypercall r frame).2.num := by
  obtain ⟨hahead, hmax, hsame, hpass⟩ := h
  rw [hat] at hahead hpass
  obtain ⟨hi, hlt, hstop, -⟩ := hpass
  have hnum : t.xen.num = t.daemon.num := hahead
  by_cases hrc : (t.xen.addHypercall r frame).1 = 0
  · obtain ⟨hroom, hxen⟩ := SharedPages.addHypercall_done hrc
    rw [if_neg (not_not.mpr hrc), hxen]
    refine ⟨⟨?_, hroom, ?_, ⟨hi, hlt, hstop⟩⟩, Nat.le_succ _⟩
    · show t.xen.num + 1 = t.daemon.num + 1
      rw [hnum]
    · intro j hj
      rcases Nat.lt_succ_iff_lt_or_eq.mp hj with hold | hnew
      · obtain ⟨f, hx, hd⟩ := hsame j hold
        exact ⟨f, (t.xen.setPage_of_ne _ (Nat.ne_of_lt hold)).trans hx, hd⟩
      · have hji : j = i := by omega
        refine ⟨frame, ?_, hji ▸ hframe⟩
        rw [hnew]
        exact t.xen.setPage_same _ _
  · obtain ⟨hxnum, hxpage⟩ := SharedPages.addHypercall_failed hrc
    rw [if_pos hrc]
    refine ⟨⟨hxnum.trans hahead, hxnum ▸ hmax, ?_, trivial⟩, Nat.le_of_eq hxnum.symm⟩
    intro j hj
    have hj : j < t.xen.num := hxnum ▸ hj
    obtain ⟨f, hx, hd⟩ := hsame j hj
    exact ⟨f, (hxpage j hj).trans hx, hd⟩

theorem count (h : t.Agree) (hat : t.adding = .count i stop) : Agree { t with
    daemon := { t.daemon with num := t.daemon.num + 1 }
    adding := .loop (i + 1) stop } := by
  obtain ⟨hahead, hmax, hsame, hpass⟩ := h
  rw [hat] at hahead hpass
  obtain ⟨hi, -, hstop⟩ := hpass
  refine ⟨?_, hmax, hsame, Adding.loop_atEnd (congrArg (· + 1) hi) hstop⟩
  rw [Adding.ahead_loop]
  exact hahead

/-- Every step in `mcd_add_shared_page` keeps the two sides in agreement, and Xen's count never
falls. -/
theorem step {e : AddEvent π} (h : t.Agree) (hstep : t.step num e = some u) :
    u.Agree ∧ t.xen.num ≤ u.xen.num := by
  unfold PageTables.step at hstep
  split at hstep
  · rename_i hat
    cases hstep
    obtain ⟨hpass, hzero⟩ := Adding.enter_atEnd num t.daemon
    have hahead := h.ahead
    rw [hat] at hahead
    exact ⟨{ h with ahead := by rw [hzero]; exact hahead, pass := hpass }, Nat.le_refl _⟩
  · rename_i frame hat
    cases hstep
    exact ⟨h.initPage hat frame, Nat.le_refl _⟩
  · rename_i i stop r hat
    cases hframe : t.daemon.page i with
    | none => simp [hframe] at hstep
    | some frame =>
      simp only [hframe, Option.some.injEq] at hstep
      rw [← hstep]
      exact h.hypercall hat r hframe
  · rename_i hat
    cases hstep
    exact ⟨h.count hat, Nat.le_refl _⟩
  · cases hstep

end PageTables.Agree

end

/-! ### Filling pages -/

/-- What a message carries besides its type and entry. -/
structure Payload where
  domain : Domid := 0
  flags : Flags := {}
  hash : UInt32 := 0
  totsize : Nat := 0
  accsize : Nat := 0
  cursize : Nat := 0
  fd : Nat := 0
  deriving DecidableEq

def Op.reqType : Op → ReqType
  | .put => .put
  | .get => .get

def Msg.payload (m : Msg) : Payload :=
  { domain := m.domain, flags := m.flags, hash := m.hash, totsize := m.totsize
    accsize := m.accsize, cursize := m.cursize, fd := m.fd }

def Msg.onRing (m : Msg) : RingMsg Payload := ⟨m.op.reqType, m.mcdData, m.payload⟩

def RingMsg.toMsg (m : RingMsg Payload) (op : Op) : Msg :=
  { op, domain := m.body.domain, flags := m.body.flags, hash := m.body.hash
    totsize := m.body.totsize, accsize := m.body.accsize, cursize := m.body.cursize
    fd := m.body.fd, mcdData := m.mcdData }

/-- The request `mcdctl_page_out` starts its loop with. -/
def pageOutReq (mh : Entry) (addr : Nat) (rsp : Option Msg) : Msg :=
  { op := .put, domain := mh.domain, flags := { new := rsp.isNone }, hash := mh.hash
    totsize := mh.totsize, accsize := (rsp.map (·.accsize)).getD 0, cursize := 0
    fd := (rsp.map (·.fd)).getD 0, mcdData := addr }

/-- One pass of the loop of `mcdctl_page_out`: the request, and whether the loop is left. -/
def Msg.fillPage (req : Msg) : Msg × Bool :=
  if req.totsize - req.accsize > pageBytes then
    let req := { req with
      cursize := req.cursize + pageBytes
      accsize := req.accsize + pageBytes
      flags := { req.flags with cont := true } }
    if req.totsize - req.accsize ≤ 0 then
      ({ req with flags := { req.flags with final := true } }, true)
    else (req, false)
  else
    let rest := req.totsize - req.accsize
    ({ req with
        cursize := req.cursize + rest
        accsize := req.accsize + rest
        flags := { req.flags with final := true } }, true)

/-- The loop while the number of pages stays the same. -/
def Msg.fillLoop : Nat → Msg → Msg
  | 0, req => req
  | left + 1, req => if req.fillPage.2 then req.fillPage.1 else fillLoop left req.fillPage.1

/-- Pass by pass, the request is the one of the loop as a whole. -/
theorem fillPages_eq_fillLoop {β : Type} (kv : Buffer β) (left page : Nat) (req : Msg)
    (shared : Buffer β) : (fillPages kv left page req shared).1 = req.fillLoop left := by
  induction left generalizing page req shared with
  | zero => rfl
  | succ left ih =>
    unfold fillPages Msg.fillLoop Msg.fillPage
    by_cases hbig : req.totsize - req.accsize > pageBytes
    · by_cases hend : req.totsize - (req.accsize + pageBytes) ≤ 0
      · simp [hbig, hend]
      · simp only [if_pos hbig, if_neg hend]
        exact ih _ _ _
    · simp [hbig]

theorem mcdctlPageOut_requests {β : Type} {n addr : Nat} {rsp : Option Msg} {x y : World β}
    (h : mcdctlPageOut n addr rsp x = some y) :
    y.requests = x.requests ++ [(pageOutReq (x.entry addr) addr rsp).fillLoop n] := by
  unfold mcdctlPageOut at h
  by_cases hfull : x.ringFull
  · simp [hfull] at h
  · rw [if_neg hfull] at h
    cases h
    rw [← fillPages_eq_fillLoop (x.keyVal addr) n 0 _ x.sharedPage]
    rfl

/-- A virtual CPU for which `mcd_event_check_ring` found room. -/
inductive Cpu
  /-- In the loop of `mcdctl_page_out`, before the pass for `page`. -/
  | filling (req : Msg) (page : Nat)
  /-- Before `mcd_event_put_request`. -/
  | ready (m : RingMsg Payload)

/-- The next pass with `n` pages: the bound of the loop is read again each time. -/
def Cpu.fill (n : Nat) : Cpu → Option Cpu
  | .filling req page =>
    if page < n then
      some (if req.fillPage.2 then .ready req.fillPage.1.onRing
        else .filling req.fillPage.1 (page + 1))
    else some (.ready req.onRing)
  | .ready _ => none

def Cpu.ready? : Cpu → Option (RingMsg Payload)
  | .filling _ _ => none
  | .ready m => some m

/-- The functions that test for room and then put a request of their own. -/
inductive Request
  | pageOut (mh : Entry) (addr : Nat)
  | pageIn (mh : Entry) (addr : Nat)
  | pageDel (domid : Domid) (hash : UInt32)
  | pageDomCreate (domid : Domid)
  | pageDomDestroy (domid : Domid)
  | pageDomFlush (domid : Domid)
  | pageFlush
  /-- `increase_shared_page`, which refuses 0 and `MAX_SHARED_PAGES` or more; here any number. -/
  | increaseSharedPage (num : Nat)

/-- The request of `mcdctl_page_in`. -/
def pageInReq (mh : Entry) (addr : Nat) : Msg :=
  { op := .get, domain := mh.domain, flags := {}, hash := mh.hash, totsize := mh.totsize
    accsize := 0, cursize := 0, fd := 0, mcdData := addr }

/-- Where a virtual CPU is once there is room. -/
def Request.admitted : Request → Cpu
  | .pageOut mh addr => .filling (pageOutReq mh addr none) 0
  | .pageIn mh addr => .ready { pageInReq mh addr with flags := { new := true } }.onRing
  | .pageDel domid hash => .ready ⟨.del, 0, { domain := domid, hash := hash }⟩
  | .pageDomCreate domid => .ready ⟨.domCreate, 0, { domain := domid }⟩
  | .pageDomDestroy domid => .ready ⟨.domDestroy, 0, { domain := domid }⟩
  | .pageDomFlush domid => .ready ⟨.domFlush, 0, { domain := domid }⟩
  | .pageFlush => .ready ⟨.flushAll, 0, {}⟩
  | .increaseSharedPage num => .ready ⟨.addSharedPage, 0, { totsize := num }⟩

/-! ### Traffic and added pages together -/

/-- The ring, the virtual CPUs, the responses `mcd_event_resume` is working on, and the pages. -/
structure Sharing (π : Type) where
  chan : Channel Payload
  cpus : List Cpu
  handling : List (RingMsg Payload)
  tables : PageTables π

/-- What happens next. What entries, pages and files hold is left open. -/
inductive SharingEvent (β π : Type)
  /-- A virtual CPU calls one of the functions that put a request. -/
  | request (r : Request)
  /-- One makes the next pass of its loop, one puts its request. -/
  | fill (i : Nat)
  | push (i : Nat)
  /-- The daemon takes a request. -/
  | take
  /-- It goes on with a request to add pages. -/
  | add (e : AddEvent π)
  /-- It is done with its request; a deletion may have failed. -/
  | respond (shared : Buffer β) (disk : Disk β) (failed : Bool)
  /-- Its `RESUME` hypercall takes the response, and goes on with it. -/
  | resume
  | handle (i : Nat) (mh : Entry) (shared : Buffer β) (keyVal : Buffer β)

section
variable {β π : Type}

/-- The daemon's response to a request, with `n` pages. -/
def RingMsg.answer (n : Nat) (shared : Buffer β) (disk : Disk β) (failed : Bool)
    (m : RingMsg Payload) : Payload :=
  match m.type with
  | .put => (servePut n (m.toMsg .put) shared disk).1.payload
  | .get => (serveGet n (m.toMsg .get) shared disk).1.payload
  | .addSharedPage => { m.body with flags := { m.body.flags with ended := true } }
  | _ => { m.body with flags := { m.body.flags with
      ended := true
      error := m.body.flags.error || failed } }

namespace Sharing

/-- `mcd_event_check_ring` at the head of a function. -/
def checkRing (c : Cpu) (x : Sharing π) : Sharing π :=
  if x.chan.ringFull then x
  else { x with chan := { x.chan with waiting := x.chan.waiting + 1 }, cpus := x.cpus ++ [c] }

/-- `mcdctl_page_in` with a response. -/
def pageIn (rsp : RingMsg Payload) (mh : Entry) (shared keyVal : Buffer β) (x : Sharing π) :
    Sharing π :=
  if rsp.body.cursize = 0 then x
  else
    let r := takePages shared rsp.body.cursize x.tables.xen.num 0 rsp.body.accsize
      rsp.body.cursize keyVal
    if rsp.body.flags.final then x
    else x.checkRing (.ready { pageInReq mh rsp.mcdData with
      accsize := r.1.1, cursize := r.1.2, fd := rsp.body.fd }.onRing)

/-- The rest of `mcd_event_resume`. -/
def handle (rsp : RingMsg Payload) (mh : Entry) (shared keyVal : Buffer β) (x : Sharing π) :
    Sharing π :=
  if rsp.body.flags = {} then x
  else if rsp.body.flags.error then x
  else if rsp.body.flags.ended then x
  else match rsp.type with
    | .get => x.pageIn rsp mh shared keyVal
    | .put =>
      if rsp.body.flags.final then x
      else x.checkRing (.filling (pageOutReq mh rsp.mcdData (some (rsp.toMsg .put))) 0)
    | _ => x

def step (x : Sharing π) : SharingEvent β π → Option (Sharing π)
  | .request r => some (x.checkRing r.admitted)
  | .fill i => (x.cpus[i]?.bind (·.fill x.tables.xen.num)).map fun c =>
      { x with cpus := x.cpus.set i c }
  | .push i => (x.cpus[i]?.bind (·.ready?)).bind fun m =>
      (x.chan.step (.push m)).map fun c => { x with chan := c, cpus := x.cpus.eraseIdx i }
  | .take => (x.chan.step .take).map fun c => { x with chan := c }
  | .add e => match x.chan.daemon with
    | .serving m =>
      if m.type = .addSharedPage then
        (x.tables.step m.body.totsize e).map fun t => { x with tables := t }
      else none
    | _ => none
  | .respond shared disk failed => match x.chan.daemon with
    | .serving m =>
      if m.type = .addSharedPage ∧ x.tables.adding ≠ .returned then none
      else (x.chan.step (.respond (m.answer x.tables.daemon.num shared disk failed))).map
        fun c => { x with chan := c, tables := { x.tables with adding := .outside } }
    | _ => none
  | .resume => (x.chan.step .resume).map fun c =>
      { x with chan := c, handling := x.handling ++ [x.chan.ring.response ringSlots] }
  | .handle i mh shared keyVal => x.handling[i]?.map fun rsp =>
      handle rsp mh shared keyVal { x with handling := x.handling.eraseIdx i }

def Moves (x : Sharing π) (e : SharingEvent β π) (y : Sharing π) : Prop := x.step e = some y

/-- The daemon has attached with its first page. -/
def start (slot : Nat → RingMsg Payload) (frame : π) : Sharing π :=
  { chan := .start slot, cpus := [], handling := [], tables := .start frame }

end Sharing

/-! ### The sizes of messages -/

/-- The size of a transfer is within `n` pages, and a part of a page-in that is not the last one is
made of whole pages. -/
structure RingMsg.Fits (n : Nat) (m : RingMsg Payload) : Prop where
  bound : m.type = .put ∨ m.type = .get → m.body.cursize ≤ pageBytes * n
  whole : m.type = .get → m.body.flags.final = false → pageBytes ∣ m.body.cursize

theorem RingMsg.Fits.mono {m : RingMsg Payload} {n k : Nat} (h : m.Fits n) (hle : n ≤ k) :
    m.Fits k where
  bound ht := Nat.le_trans (h.bound ht) (Nat.mul_le_mul_left _ hle)
  whole := h.whole

theorem RingMsg.fits_of_other {m : RingMsg Payload} {n : Nat} (hput : m.type ≠ .put)
    (hget : m.type ≠ .get) : m.Fits n where
  bound ht := absurd ht (not_or.mpr ⟨hput, hget⟩)
  whole ht := absurd ht hget

theorem RingMsg.fits_of_put {m : RingMsg Payload} {n : Nat} (hput : m.type = .put)
    (hle : m.body.cursize ≤ pageBytes * n) : m.Fits n where
  bound _ := hle
  whole ht := by
    rw [hput] at ht
    cases ht

def Cpu.Fits (n : Nat) : Cpu → Prop
  | .filling req page => req.op = .put ∧ req.cursize ≤ pageBytes * page ∧ page ≤ n
  | .ready m => m.Fits n

theorem Cpu.Fits.mono {c : Cpu} {n k : Nat} (h : c.Fits n) (hle : n ≤ k) : c.Fits k := by
  cases c with
  | filling req page => exact ⟨h.1, h.2.1, Nat.le_trans h.2.2 hle⟩
  | ready m => exact RingMsg.Fits.mono h hle

theorem Msg.fillPage_spec (req : Msg) :
    req.fillPage.1.op = req.op ∧ req.fillPage.1.cursize ≤ req.cursize + pageBytes := by
  unfold Msg.fillPage
  by_cases hbig : req.totsize - req.accsize > pageBytes
  · by_cases hend : req.totsize - (req.accsize + pageBytes) ≤ 0 <;> simp [hbig, hend]
  · simp only [if_neg hbig]
    exact ⟨trivial, by omega⟩

theorem Msg.onRing_fits {req : Msg} {n : Nat} (hop : req.op = .put)
    (hle : req.cursize ≤ pageBytes * n) : req.onRing.Fits n :=
  RingMsg.fits_of_put (congrArg Op.reqType hop) hle

/-- A pass stays within the pages, also when their number has grown since the last one. -/
theorem Cpu.Fits.fill {c d : Cpu} {n : Nat} (h : c.Fits n) (hfill : c.fill n = some d) :
    d.Fits n := by
  cases c with
  | ready m => cases hfill
  | filling req page =>
    obtain ⟨hop, hcur, hpage⟩ := h
    obtain ⟨hop', hcur'⟩ := req.fillPage_spec
    simp only [Cpu.fill] at hfill
    by_cases hlt : page < n
    · rw [if_pos hlt] at hfill
      have hnext : req.fillPage.1.cursize ≤ pageBytes * (page + 1) := by
        rw [Nat.mul_add, Nat.mul_one]
        omega
      rw [← Option.some.inj hfill]
      by_cases hleave : req.fillPage.2 = true
      · rw [if_pos hleave]
        apply Msg.onRing_fits (hop'.trans hop)
        exact Nat.le_trans hnext (Nat.mul_le_mul_left _ hlt)
      · rw [if_neg hleave]
        exact ⟨hop'.trans hop, hnext, hlt⟩
    · rw [if_neg hlt] at hfill
      rw [← Option.some.inj hfill]
      exact Msg.onRing_fits hop (Nat.le_trans hcur (Nat.mul_le_mul_left _ hpage))

theorem Request.admitted_fits (r : Request) (n : Nat) : r.admitted.Fits n := by
  cases r with
  | pageOut mh addr => exact ⟨rfl, Nat.zero_le _, Nat.zero_le _⟩
  | pageIn mh addr => exact ⟨fun _ => Nat.zero_le _, fun _ _ => Nat.dvd_zero _⟩
  | _ => exact RingMsg.fits_of_other (by simp) (by simp)

theorem writePages_cursize_le (fd : Nat) (shared : Buffer β) (left page cur : Nat) (k : Disk β) :
    (writePages fd shared left page cur k).1 ≤ cur := by
  induction left generalizing page cur k with
  | zero => exact Nat.le_refl _
  | succ left ih =>
    unfold writePages
    by_cases hbig : cur ≥ pageBytes
    · by_cases hend : cur - pageBytes ≤ 0
      · simp only [if_pos hbig, if_pos hend]
        exact Nat.sub_le _ _
      · simp only [if_pos hbig, if_neg hend]
        exact Nat.le_trans (ih _ _ _) (Nat.sub_le _ _)
    · simp only [if_neg hbig]
      exact Nat.sub_le _ _

theorem servePut_cursize_le (n : Nat) (req : Msg) (shared : Buffer β) (k : Disk β) :
    (servePut n req shared k).1.cursize ≤ req.cursize := by
  unfold servePut
  cases k.fdFor req with
  | none => exact Nat.le_refl _
  | some r =>
    have hle := writePages_cursize_le r.1 shared n 0 req.cursize r.2
    simp only
    split_ifs <;> exact hle

/-- The daemon reads no more than its pages hold, and all of them unless it is the last part. -/
theorem readPages_cursize (file : List β) (left page leftSize start : Nat) (req : Msg)
    (shared : Buffer β) :
    (readPages file left page leftSize start req shared).1.cursize ≤
        req.cursize + pageBytes * left ∧
      ((readPages file left page leftSize start req shared).1.flags.final = false →
        (readPages file left page leftSize start req shared).1.cursize =
          req.cursize + pageBytes * left) := by
  induction left generalizing page leftSize start req shared with
  | zero => exact ⟨Nat.le_refl _, fun _ => rfl⟩
  | succ left ih =>
    unfold readPages
    rw [Nat.mul_add, Nat.mul_one]
    by_cases hbig : leftSize ≥ pageBytes
    · by_cases hend : leftSize - pageBytes ≤ 0
      · simp only [if_pos hbig, if_pos hend]
        exact ⟨by omega, fun hf => absurd hf (by decide)⟩
      · simp only [if_pos hbig, if_neg hend]
        obtain ⟨hle, heq⟩ := ih (page + 1) (leftSize - pageBytes) (start + pageBytes)
          { req with
            cursize := req.cursize + pageBytes
            flags := { req.flags with cont := true } }
          (shared.readInto (pageBytes * page) file start pageBytes)
        rw [Nat.add_comm (pageBytes * left), ← Nat.add_assoc]
        exact ⟨hle, heq⟩
    · simp only [if_neg hbig]
      exact ⟨by omega, fun hf => absurd hf (by decide)⟩

theorem serveGet_sizes (n : Nat) (req : Msg) (shared : Buffer β) (k : Disk β) :
    ((serveGet n req shared k).1.cursize = req.cursize ∧
        (serveGet n req shared k).1.flags.final = req.flags.final) ∨
      (serveGet n req shared k).1.cursize ≤ pageBytes * n ∧
        ((serveGet n req shared k).1.flags.final = false →
          (serveGet n req shared k).1.cursize = pageBytes * n) := by
  unfold serveGet
  cases k.fdFor req with
  | none => exact .inl ⟨rfl, rfl⟩
  | some r =>
    right
    simp only
    generalize (if req.accsize = 0 then 0 else req.accsize + 1) = start
    have hread := readPages_cursize (r.2.content r.1) n 0 (req.totsize - req.accsize) start
      { req with flags := { req.flags with new := false }, fd := r.1, cursize := 0 } shared
    rw [Nat.zero_add] at hread
    split_ifs <;> exact hread

theorem serveGet_fits {n k : Nat} {m : RingMsg Payload} (hget : m.type = .get) (h : m.Fits k)
    (hle : n ≤ k) (shared : Buffer β) (disk : Disk β) :
    ({ m with body := (serveGet n (m.toMsg .get) shared disk).1.payload } : RingMsg Payload).Fits
      k := by
  rcases serveGet_sizes n (m.toMsg .get) shared disk with ⟨hcur, hfinal⟩ | ⟨hbound, hwhole⟩
  · constructor
    · intro _
      exact Nat.le_trans (Nat.le_of_eq hcur) (h.bound (.inr hget))
    · intro _ hf
      have hdvd := h.whole hget (hfinal.symm.trans hf)
      exact hdvd.trans hcur.symm.dvd
  · constructor
    · intro _
      exact Nat.le_trans hbound (Nat.mul_le_mul_left _ hle)
    · intro _ hf
      exact (Nat.dvd_mul_right _ _).trans (hwhole hf).symm.dvd

/-- The daemon's responses are within the pages that Xen counts. -/
theorem RingMsg.answer_fits {n k : Nat} {m : RingMsg Payload} (h : m.Fits k) (hle : n ≤ k)
    (shared : Buffer β) (disk : Disk β) (failed : Bool) :
    ({ m with body := m.answer n shared disk failed } : RingMsg Payload).Fits k := by
  unfold RingMsg.answer
  cases ht : m.type with
  | put =>
    apply RingMsg.fits_of_put rfl
    have hreq : m.body.cursize ≤ pageBytes * k := h.bound (.inl ht)
    exact Nat.le_trans (servePut_cursize_le n (m.toMsg .put) shared disk) hreq
  | get =>
    have hserve := serveGet_fits ht h hle shared disk
    rw [ht] at hserve
    exact hserve
  | _ => exact RingMsg.fits_of_other (by simp) (by simp)

/-- After whole pages nothing of the size is left. -/
theorem takePages_whole (shared : Buffer β) (rspCur left page acc k : Nat) (kv : Buffer β)
    (hpos : 0 < k) (hle : k ≤ left) :
    (takePages shared rspCur left page acc (pageBytes * k) kv).1.2 = 0 := by
  induction left generalizing page acc k kv with
  | zero => omega
  | succ left ih =>
    unfold takePages
    have hbig : pageBytes * k ≥ pageBytes := Nat.le_mul_of_pos_right _ hpos
    have hsub : pageBytes * k - pageBytes = pageBytes * (k - 1) := by
      rw [Nat.mul_sub, Nat.mul_one]
    rw [if_pos hbig, hsub]
    by_cases hone : k = 1
    · simp [hone]
    · have hmore : ¬ pageBytes * (k - 1) ≤ 0 := by
        unfold pageBytes
        omega
      simp only [if_neg hmore]
      exact ih _ _ (k - 1) _ (by omega) (by omega)

/-! ### Every interleaving -/

namespace Sharing
variable {x y : Sharing π}

/-- All that is on the ring, prepared for it or taken from it is within the pages that Xen counts. -/
structure Sound (x : Sharing π) : Prop where
  tables : x.tables.Agree
  tally : x.chan.Tally
  inStep : x.chan.InStep
  carries : x.chan.Carries (·.Fits x.tables.xen.num)
  cpus : ∀ c ∈ x.cpus, c.Fits x.tables.xen.num
  handling : ∀ m ∈ x.handling, m.Fits x.tables.xen.num
  adding : x.tables.adding ≠ .outside →
    ∃ m, x.chan.daemon = .serving m ∧ m.type = .addSharedPage

theorem Sound.start (slot : Nat → RingMsg Payload) (frame : π) : (start slot frame).Sound where
  tables := PageTables.agree_start frame
  tally := .start slot
  inStep := rfl
  carries := .start _ slot
  cpus _ hc := absurd hc List.not_mem_nil
  handling _ hm := absurd hm List.not_mem_nil
  adding h := absurd rfl h

/-- The daemon adds a page. -/
theorem Sound.add {m : RingMsg Payload} {e : AddEvent π} {t : PageTables π} (h : x.Sound)
    (hserving : x.chan.daemon = .serving m) (htype : m.type = .addSharedPage)
    (hstep : x.tables.step m.body.totsize e = some t) : Sound { x with tables := t } := by
  obtain ⟨hagree, hle⟩ := h.tables.step hstep
  have hmono : ∀ {m : RingMsg Payload}, m.Fits x.tables.xen.num → m.Fits t.xen.num :=
    fun hm => hm.mono hle
  exact
    { tables := hagree
      tally := h.tally
      inStep := h.inStep
      carries :=
        { slots := fun i hi => hmono (h.carries.slots i hi)
          served := fun m hm => hmono (h.carries.served m hm)
          serving := fun m hm => hmono (h.carries.serving m hm) }
      cpus := fun c hc => (h.cpus c hc).mono hle
      handling := fun m hm => hmono (h.handling m hm)
      adding := fun _ => ⟨m, hserving, htype⟩ }

theorem Sound.checkRing {c : Cpu} (h : x.Sound) (hc : c.Fits x.tables.xen.num) : (x.checkRing c).Sound := by
  unfold Sharing.checkRing
  by_cases hfull : x.chan.ringFull
  · rw [if_pos hfull]
    exact h
  · rw [if_neg hfull]
    refine { h with tally := { h.tally with }, carries := { h.carries with }, cpus := ?_ }
    intro d hd
    rcases List.mem_append.mp hd with hold | hnew
    · exact h.cpus d hold
    · rw [List.mem_singleton.mp hnew]
      exact hc

/-- Xen takes a part of a page-in and asks for the next one. -/
theorem Sound.pageIn {rsp : RingMsg Payload} (h : x.Sound) (hget : rsp.type = .get)
    (hrsp : rsp.Fits x.tables.xen.num) (mh : Entry) (shared keyVal : Buffer β) :
    (x.pageIn rsp mh shared keyVal).Sound := by
  unfold Sharing.pageIn
  split_ifs with hzero hfinal
  · exact h
  · exact h
  · apply h.checkRing
    obtain ⟨k, hk⟩ := hrsp.whole hget (Bool.eq_false_iff.mpr hfinal)
    have hpos : 0 < k := by
      apply Nat.pos_of_ne_zero
      rintro rfl
      exact hzero hk
    have hle : k ≤ x.tables.xen.num := by
      have hbound := hrsp.bound (.inr hget)
      rw [hk] at hbound
      exact Nat.le_of_mul_le_mul_left hbound (by decide)
    have hrest : (takePages shared rsp.body.cursize x.tables.xen.num 0 rsp.body.accsize
        rsp.body.cursize keyVal).1.2 = 0 := by
      rw [hk]
      exact takePages_whole shared _ _ _ _ k keyVal hpos hle
    constructor
    · intro _
      exact Nat.le_trans (Nat.le_of_eq hrest) (Nat.zero_le _)
    · intro _ _
      exact (Nat.dvd_zero _).trans hrest.symm.dvd

theorem Sound.handle {rsp : RingMsg Payload} (h : x.Sound) (hrsp : rsp.Fits x.tables.xen.num)
    (mh : Entry) (shared keyVal : Buffer β) : (x.handle rsp mh shared keyVal).Sound := by
  unfold Sharing.handle
  by_cases hnone : rsp.body.flags = {}
  · rw [if_pos hnone]
    exact h
  rw [if_neg hnone]
  by_cases herror : rsp.body.flags.error
  · rw [if_pos herror]
    exact h
  rw [if_neg herror]
  by_cases hended : rsp.body.flags.ended
  · rw [if_pos hended]
    exact h
  rw [if_neg hended]
  cases ht : rsp.type with
  | get => exact h.pageIn ht hrsp mh shared keyVal
  | put =>
    simp only
    split_ifs
    · exact h
    · exact h.checkRing ⟨rfl, Nat.zero_le _, Nat.zero_le _⟩
  | _ => exact h

/-- A step on the ring, where Xen's requests and the daemon's responses fit. -/
theorem Sound.move {e : RingEvent Payload} {c : Channel Payload} (h : x.Sound)
    (hmove : x.chan.Moves e c) (halone : e ≠ .stray)
    (hpush : ∀ m, e = .push m → m.Fits x.tables.xen.num)
    (hrespond : ∀ m body, e = .respond body → x.chan.daemon = .serving m →
      ({ m with body } : RingMsg Payload).Fits x.tables.xen.num)
    (hadding : x.tables.adding ≠ .outside →
      ∃ m, c.daemon = .serving m ∧ m.type = .addSharedPage) : Sound { x with chan := c } :=
  { h with
    tally := h.tally.step hmove
    inStep := h.inStep.step hmove halone
    carries := h.carries.step h.tally hmove hpush hrespond
    adding := hadding }

theorem Sound.outside (h : x.Sound) (hnot : ∀ m, x.chan.daemon = .serving m →
    m.type ≠ .addSharedPage) : x.tables.adding = .outside := by
  by_contra hin
  obtain ⟨m, hserving, htype⟩ := h.adding hin
  exact hnot m hserving htype

theorem Sound.push {i : Nat} {m : RingMsg Payload} {c : Channel Payload} (h : x.Sound)
    (hm : x.cpus[i]?.bind (·.ready?) = some m) (hmove : x.chan.Moves (.push m) c) :
    Sound { x with chan := c, cpus := x.cpus.eraseIdx i } := by
  obtain ⟨cpu, hcpu, hready⟩ := Option.bind_eq_some_iff.mp hm
  have hfits : m.Fits x.tables.xen.num := by
    have hin := h.cpus cpu (List.mem_of_getElem? hcpu)
    cases cpu with
    | filling req page => cases hready
    | ready m' =>
      cases hready
      exact hin
  have hsound : Sound { x with chan := c } := by
    apply h.move hmove (by simp)
    · intro m' hm'
      cases hm'
      exact hfits
    · intro _ _ hm'
      cases hm'
    · intro hin
      cases Channel.step_effect hmove with
      | push _ _ => exact h.adding hin
  exact { hsound with cpus := fun d hd => h.cpus d (List.mem_of_mem_eraseIdx hd) }

/-- The daemon takes a request only when it is done with the last one. -/
theorem Sound.take {c : Channel Payload} (h : x.Sound) (hmove : x.chan.Moves .take c) :
    Sound { x with chan := c } := by
  apply h.move hmove (by simp)
  · intro _ hm
    cases hm
  · intro _ _ hm
    cases hm
  · intro hin
    cases Channel.step_effect hmove with
    | take hidle _ =>
      refine absurd (h.outside ?_) hin
      intro m hserving
      rw [hidle] at hserving
      cases hserving

theorem Sound.respond {m : RingMsg Payload} {c : Channel Payload} {shared : Buffer β}
    {disk : Disk β} {failed : Bool} (h : x.Sound) (hserving : x.chan.daemon = .serving m)
    (hdone : m.type = .addSharedPage → x.tables.adding = .returned)
    (hmove : x.chan.Moves (.respond (m.answer x.tables.daemon.num shared disk failed)) c) :
    Sound { x with chan := c, tables := { x.tables with adding := .outside } } := by
  have heven : x.tables.adding.ahead = 0 := by
    by_cases htype : m.type = .addSharedPage
    · rw [hdone htype]
      rfl
    · rw [h.outside ?_]
      · rfl
      · intro m' hm'
        cases hserving.symm.trans hm'
        exact htype
  have hnum : x.tables.xen.num = x.tables.daemon.num := by
    have hahead := h.tables.ahead
    omega
  have hfits := h.carries.serving m hserving
  exact
    { h with
      tables := { h.tables with ahead := hnum, pass := trivial }
      tally := h.tally.step hmove
      inStep := h.inStep.step hmove (by simp)
      carries := by
        apply h.carries.step h.tally hmove
        · intro _ hm'
          cases hm'
        · intro m' body hm' hserving'
          cases hm'
          cases hserving.symm.trans hserving'
          exact RingMsg.answer_fits hfits (Nat.le_of_eq hnum.symm) shared disk failed
      adding := fun hin => absurd rfl hin }

theorem Sound.resume {c : Channel Payload} (h : x.Sound) (hmove : x.chan.Moves .resume c) :
    Sound { x with
      chan := c
      handling := x.handling ++ [x.chan.ring.response ringSlots] } := by
  cases Channel.step_effect hmove with
  | resume hresuming =>
    have hlt : x.chan.handed.length < x.chan.issued.length := by
      have hpending := h.inStep.pending hresuming
      have hle := h.tally.answered_le
      omega
    have hfits : (x.chan.ring.response ringSlots).Fits x.tables.xen.num :=
      h.carries.slots.response ringSlots_dvd h.tally.counts hlt
    have hsound : Sound { x with chan := { x.chan.handOver with daemon := .idle } } := by
      apply h.move hmove (by simp)
      · intro _ hm
        cases hm
      · intro _ _ hm
        cases hm
      · intro hin
        refine absurd (h.outside ?_) hin
        intro m hserving
        rw [hresuming] at hserving
        cases hserving
    refine { hsound with handling := ?_ }
    intro m hm
    rcases List.mem_append.mp hm with hold | hnew
    · exact h.handling m hold
    · rw [List.mem_singleton.mp hnew]
      exact hfits

theorem Sound.step {e : SharingEvent β π} (h : x.Sound) (hmove : x.Moves e y) : y.Sound := by
  cases e with
  | request r =>
    cases hmove
    exact h.checkRing (r.admitted_fits _)
  | fill i =>
    obtain ⟨d, hd, rfl⟩ := Option.map_eq_some_iff.mp hmove
    obtain ⟨c, hc, hfill⟩ := Option.bind_eq_some_iff.mp hd
    have hfits := (h.cpus c (List.mem_of_getElem? hc)).fill hfill
    refine { h with cpus := ?_ }
    intro c' hc'
    rcases List.mem_or_eq_of_mem_set hc' with hold | hnew
    · exact h.cpus c' hold
    · rw [hnew]
      exact hfits
  | push i =>
    obtain ⟨m, hm, hmap⟩ := Option.bind_eq_some_iff.mp hmove
    obtain ⟨c, hc, rfl⟩ := Option.map_eq_some_iff.mp hmap
    exact h.push hm hc
  | take =>
    obtain ⟨c, hc, rfl⟩ := Option.map_eq_some_iff.mp hmove
    exact h.take hc
  | add e =>
    cases hd : x.chan.daemon with
    | serving m =>
      simp only [Moves, Sharing.step, hd] at hmove
      split_ifs at hmove with htype
      obtain ⟨t, ht, rfl⟩ := Option.map_eq_some_iff.mp hmove
      exact h.add hd htype ht
    | idle => simp [Moves, Sharing.step, hd] at hmove
    | resuming => simp [Moves, Sharing.step, hd] at hmove
  | respond shared disk failed =>
    cases hd : x.chan.daemon with
    | serving m =>
      simp only [Moves, Sharing.step, hd] at hmove
      split_ifs at hmove with hbusy
      obtain ⟨c, hc, rfl⟩ := Option.map_eq_some_iff.mp hmove
      exact h.respond hd (fun htype => by_contra fun hne => hbusy ⟨htype, hne⟩) hc
    | idle => simp [Moves, Sharing.step, hd] at hmove
    | resuming => simp [Moves, Sharing.step, hd] at hmove
  | resume =>
    obtain ⟨c, hc, rfl⟩ := Option.map_eq_some_iff.mp hmove
    exact h.resume hc
  | handle i mh shared keyVal =>
    obtain ⟨rsp, hrsp, rfl⟩ := Option.map_eq_some_iff.mp hmove
    have hfits := h.handling rsp (List.mem_of_getElem? hrsp)
    have hsound : Sound { x with handling := x.handling.eraseIdx i } :=
      { h with handling := fun m hm => h.handling m (List.mem_of_mem_eraseIdx hm) }
    exact hsound.handle hfits mh shared keyVal

end Sharing

/-- In every interleaving of traffic and added pages: a page-out the daemon serves is within the pages
it counts, a page-in Xen handles is within those Xen counts, the two sides name the same pages, and
neither counts too many. Xen is ahead only inside `mcd_add_shared_page`. -/
theorem shared_pages_agree {slot : Nat → RingMsg Payload} {frame : π}
    {l : List (SharingEvent β π)} {x : Sharing π}
    (hrun : Trace Sharing.Moves (.start slot frame) l x) :
    (∀ m, x.chan.daemon = .serving m → m.type = .put →
        m.body.cursize ≤ pageBytes * x.tables.daemon.num) ∧
      (∀ m ∈ x.handling, m.type = .get → m.body.cursize ≤ pageBytes * x.tables.xen.num) ∧
      (∀ i < x.tables.xen.num,
        ∃ f, x.tables.xen.page i = some f ∧ x.tables.daemon.page i = some f) ∧
      x.tables.daemon.num ≤ x.tables.xen.num ∧ x.tables.xen.num ≤ maxSharedPages := by
  have h : x.Sound := hrun.invariant (fun hi hstep => hi.step hstep) (.start slot frame)
  have hahead := h.tables.ahead
  refine ⟨?_, ?_, h.tables.same, by omega, h.tables.max⟩
  · intro m hserving hput
    have hout : x.tables.adding = .outside := by
      apply h.outside
      intro m' hserving' htype
      cases hserving.symm.trans hserving'
      rw [hput] at htype
      cases htype
    rw [hout] at hahead
    have hnum : x.tables.xen.num = x.tables.daemon.num := hahead
    rw [← hnum]
    exact (h.carries.serving m hserving).bound (.inl hput)
  · intro m hm hget
    exact (h.handling m hm).bound (.inr hget)

end

/-- An entry of two pages. -/
def twoPages : Entry := { domain := 1, hash := 7, keySize := 4096, valSize := 4096 }

/-- The daemon adds a page; before it counts it, a virtual CPU fills both pages and puts its request,
which is served next. -/
def windowEvents : List (SharingEvent Nat Nat) :=
  [.request (.increaseSharedPage 1), .push 0, .take, .add .enter, .add (.initPage (some 20)),
    .add (.hypercall .mapped), .request (.pageOut twoPages 5), .fill 0, .fill 0, .push 0,
    .add .count, .respond (fun _ => 0) ⟨fun _ _ => none, fun _ => none, 3, true⟩ false, .take]

theorem shared_pages_agree_window :
    ∃ x, Trace Sharing.Moves (.start (fun _ => ⟨.put, 0, {}⟩) 10) windowEvents x ∧
      ∃ m, x.chan.daemon = .serving m ∧ m.type = .put ∧ m.body.cursize = 8192 ∧
        m.body.cursize ≤ pageBytes * x.tables.daemon.num := by
  have hrun : (windowEvents.foldlM Sharing.step
      (Sharing.start (fun _ => ⟨.put, 0, {}⟩) 10)).map (fun x => match x.chan.daemon with
        | .serving m => some (m.type, m.body.cursize)
        | _ => none) = some (some (.put, 8192)) := by decide +kernel
  obtain ⟨x, hx, hobs⟩ := Option.map_eq_some_iff.mp hrun
  have htrace : Trace Sharing.Moves (.start (fun _ => ⟨.put, 0, {}⟩) 10) windowEvents x :=
    Trace.of_foldlM hx
  cases hd : x.chan.daemon with
  | serving m =>
    obtain ⟨hput, hcur⟩ : m.type = .put ∧ m.body.cursize = 8192 := by simpa [hd] using hobs
    exact ⟨x, htrace, m, hd, hput, hcur, (shared_pages_agree htrace).1 m hd hput⟩
  | idle => simp [hd] at hobs
  | resuming => simp [hd] at hobs

end UniCache.Transfer
