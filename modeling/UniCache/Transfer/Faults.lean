import UniCache.Transfer.Interleave

/-! One transfer in which steps may fail: the daemon's `open` at the first part, and the ring at any
part, which requests of other virtual CPUs may have filled. -/
namespace UniCache.Transfer
open Base Mcd Buffer

inductive Event
  | serve | openFails | resume | ringFull
  deriving DecidableEq, Repr

def Event.isFault : Event → Bool
  | .serve | .resume => false
  | .openFails | .ringFull => true

section
variable {β : Type}

/-- The daemon's answer to a new request whose file it cannot open. -/
def World.refuse (x : World β) : Option (World β) :=
  match x.requests with
  | [] => none
  | req :: rest =>
    if req.flags.new then some { x with
      requests := rest
      responses := x.responses ++
        [{ req with flags := { req.flags with new := false, error := true } }] }
    else none

/-- `mcd_event_resume` while the ring is full: whatever the response asks for, the lock is
released. -/
def mcdEventResumeFull (rsp : Msg) (x : World β) : World β :=
  if rsp.flags ≠ {} ∧ rsp.flags.error = false ∧ rsp.flags.ended = true then x else x.unlock rsp.op

theorem mcdEventResume_of_ringFull {x : World β} (h : x.ringFull = true) (n : Nat) (rsp : Msg) :
    mcdEventResume n rsp x = mcdEventResumeFull rsp x := by
  have hin : mcdctlPageIn n rsp.mcdData (some rsp) x = none := by simp [mcdctlPageIn, h]
  have hout : mcdctlPageOut n rsp.mcdData (some rsp) x = none := by simp [mcdctlPageOut, h]
  unfold mcdEventResume mcdEventResumeFull
  by_cases h0 : rsp.flags = {}
  · simp [h0]
  · cases herr : rsp.flags.error with
    | true => simp [h0]
    | false =>
      cases hend : rsp.flags.ended with
      | true => simp [h0]
      | false => cases hop : rsp.op <;> simp [h0, hin, hout]

/-- A full ring refuses a transfer before anything is done. -/
theorem minfPageIn_of_ringFull {x : World β} (h : x.ringFull = true) (hlock : x.getLock = false)
    (n addr : Nat) : minfPageIn n addr x = some (x, false) := by
  have hfull : ({ x with getLock := true } : World β).ringFull = true := h
  simp [minfPageIn, mcdctlPageIn, hfull, hlock]

theorem minfPageOut_of_ringFull {x : World β} (h : x.ringFull = true) (hlock : x.putLock = false)
    (n addr : Nat) : minfPageOut n addr x = some (x, false) := by
  have hfull : ({ x with putLock := true } : World β).ringFull = true := h
  simp [minfPageOut, mcdctlPageOut, hfull, hlock]

def World.resumeFull (x : World β) : Option (World β) :=
  match x.responses with
  | [] => none
  | rsp :: rest => some (mcdEventResumeFull rsp { x with responses := rest })

def World.step (n : Nat) (x : World β) : Event → Option (World β)
  | .serve => x.serve n
  | .openFails => x.refuse
  | .resume => x.resume n
  | .ringFull => x.resumeFull

def World.Step (n : Nat) (x : World β) (e : Event) (y : World β) : Prop := x.step n e = some y

/-- `minf_page_in` and the wait for its lock: what the exchange went through, `none` when
`minf_page_in` reported a full ring. -/
inductive GetRun (n addr : Nat) (x : World β) : Option (List Event) → World β → Prop
  | refused : GetRun n addr x none x
  | ran {y z : World β} {evs : List Event} (start : minfPageIn n addr x = some (y, true))
      (run : Trace (World.Step n) y evs z) (unlocked : z.getLock = false) :
      GetRun n addr x (some evs) z

/-- `minf_page_out` and the wait for its lock. -/
inductive PutRun (n addr : Nat) (x : World β) : Option (List Event) → World β → Prop
  | refused : PutRun n addr x none x
  | ran {y z : World β} {evs : List Event} (start : minfPageOut n addr x = some (y, true))
      (run : Trace (World.Step n) y evs z) (unlocked : z.putLock = false) :
      PutRun n addr x (some evs) z

/-- The transfer was accepted and no step of it failed. -/
def Faultless (evs : Option (List Event)) : Prop := ∃ l, evs = some l ∧ ∀ e ∈ l, e.isFault = false

/-- The daemon can open the files of a domain. -/
def World.Opens (x : World β) (d : Domid) : Prop := d ≠ 0 ∨ x.disk.dir0 = true

/-- Where a page-in stands that is alone on the ring, and which bytes have come, told by `R`; the
index says whether a step of it has failed. -/
inductive InPhase (n : Nat) (mh : Entry) (addr : Nat) (R : β → Prop) (x : World β) : Bool → Prop
  | asked {m : Msg} {start : Nat} (locked : x.getLock = true) (requests : x.requests = [m])
      (responses : x.responses = []) (req : GetReq n mh addr x.disk m start)
      (got : ∀ o, R (x.keyVal addr o) ↔ o < start)
      (more : m.flags.new = true ∧ start = 0 ∨ x.Opens mh.domain ∧ start < mh.totsize) :
      InPhase n mh addr R x false
  | answered {m : Msg} {start : Nat} (locked : x.getLock = true) (requests : x.requests = [])
      (responses : x.responses = [m]) (rsp : GetRsp n mh addr x.disk m start)
      (got : ∀ o, R (x.keyVal addr o) ↔ o < start) (more : start = 0 ∨ start < mh.totsize)
      (opens : x.Opens mh.domain) : InPhase n mh addr R x false
  | refused {m : Msg} {start : Nat} (locked : x.getLock = true) (requests : x.requests = [])
      (responses : x.responses = [m]) (op : m.op = .get) (error : m.flags.error = true)
      (got : ∀ o, R (x.keyVal addr o) ↔ o < start) (more : start = 0 ∨ start < mh.totsize) :
      InPhase n mh addr R x true
  | complete (unlocked : x.getLock = false) (requests : x.requests = [])
      (responses : x.responses = []) (got : ∀ o, R (x.keyVal addr o) ↔ o < mh.totsize)
      (opens : x.Opens mh.domain) : InPhase n mh addr R x false
  | short {start : Nat} (unlocked : x.getLock = false) (requests : x.requests = [])
      (responses : x.responses = []) (got : ∀ o, R (x.keyVal addr o) ↔ o < start)
      (more : start = 0 ∨ start < mh.totsize) : InPhase n mh addr R x true

/-- What holds between the steps of a page-in that started in `x₀`. -/
structure Receiving (n addr : Nat) (x₀ : World β) (R : β → Prop) (x : World β) (failed : Bool) :
    Prop where
  entry : x.entry = x₀.entry
  dir0 : x.disk.dir0 = x₀.disk.dir0
  shared : ∀ i, R (x.sharedPage i)
  phase : InPhase n (x₀.entry addr) addr R x failed

section
variable {n addr : Nat} {mh : Entry} {x₀ x y : World β} {R : β → Prop} {failed : Bool} {e : Event}

theorem opens_congr (h : y.disk.dir0 = x.disk.dir0) (d : Domid) : y.Opens d ↔ x.Opens d := by
  unfold World.Opens
  rw [h]

/-- Exactly the bytes up to the end of the part have come. -/
theorem received_iff {start : Nat} (hgot : ∀ o, R (x.keyVal addr o) ↔ o < start)
    (hshared : ∀ i, R (x.sharedPage i)) (len o : Nat) :
    R ((x.received addr start len).keyVal addr o) ↔ o < start + len := by
  have hkv : (x.received addr start len).keyVal addr =
      (x.keyVal addr).memcpy start x.sharedPage 0 len := Function.update_self ..
  rw [hkv]
  unfold memcpy
  by_cases hin : start ≤ o ∧ o < start + len
  · rw [if_pos hin]
    exact iff_of_true (hshared _) hin.2
  · rw [if_neg hin, hgot]
    omega

/-- A response with the error flag releases the lock, on a full ring as on any other. -/
theorem resume_error {m : Msg} (hop : m.op = .get) (herr : m.flags.error = true) :
    mcdEventResume n m x = x.unlock .get ∧ mcdEventResumeFull m x = x.unlock .get := by
  have h0 : m.flags ≠ {} := by
    intro h
    rw [h] at herr
    exact Bool.false_ne_true herr
  constructor
  · rw [mcdEventResume, if_neg h0, if_pos herr, hop]
  · rw [mcdEventResumeFull, if_neg (by simp [herr]), hop]

theorem Receiving.serve (h : Receiving n addr x₀ R x failed) (hn : 0 < n)
    (hs : x.serve n = some y) :
    (failed = false ∧ ¬ x₀.Opens (x₀.entry addr).domain ∧ Receiving n addr x₀ R y true) ∨
      Receiving n addr x₀ R y failed := by
  obtain ⟨hentry, hdir, hshared, hphase⟩ := h
  cases hphase with
  | @asked m start locked requests responses req got more =>
    by_cases hopen : x.Opens (x₀.entry addr).domain
    · obtain ⟨rsp, l, hserve, hrsp, hframe⟩ := serveGet_spec req hn hopen x.sharedPage
      simp only [World.serve, requests, World.answer, req.op, hserve, responses,
        Option.some.injEq] at hs
      subst hs
      have hmore : start = 0 ∨ start < (x₀.entry addr).totsize := more.imp And.right And.right
      exact .inr ⟨hentry, hframe.dir0.trans hdir, hshared, .answered locked rfl rfl hrsp got hmore
        ((opens_congr hframe.dir0 _).mpr hopen)⟩
    · left
      obtain ⟨hnew, hzero⟩ := more.resolve_right fun hm => hopen hm.1
      have hnone : x.disk.fdFor m = none := by
        rw [Disk.fdFor, if_pos hnew, Disk.openFile, if_pos]
        rw [req.domain]
        unfold World.Opens at hopen
        tauto
      simp only [World.serve, requests, World.answer, req.op, serveGet, hnone, responses,
        Option.some.injEq] at hs
      subst hs
      exact ⟨rfl, fun ho => hopen ((opens_congr hdir _).mpr ho), hentry, hdir, hshared,
        .refused locked rfl rfl rfl rfl got (.inl hzero)⟩
  | answered _ requests | refused _ requests | complete _ requests | short _ requests =>
    simp [World.serve, requests] at hs

theorem Receiving.openFails (h : Receiving n addr x₀ R x failed) (hs : x.refuse = some y) :
    Receiving n addr x₀ R y true := by
  obtain ⟨hentry, hdir, hshared, hphase⟩ := h
  cases hphase with
  | @asked m start locked requests responses req got more =>
    simp only [World.refuse, requests, responses, Option.ite_none_right_eq_some,
      Option.some.injEq] at hs
    obtain ⟨-, rfl⟩ := hs
    exact ⟨hentry, hdir, hshared,
      .refused locked rfl rfl req.op rfl got (more.imp And.right And.right)⟩
  | answered _ requests | refused _ requests | complete _ requests | short _ requests =>
    simp [World.refuse, requests] at hs

theorem Receiving.resume (h : Receiving n addr x₀ R x failed) (hn : 0 < n)
    (hs : x.resume n = some y) : Receiving n addr x₀ R y failed := by
  obtain ⟨hentry, hdir, hshared, hphase⟩ := h
  cases hphase with
  | @answered m start locked requests responses rsp got more opens =>
    simp only [World.resume, responses, Option.some.injEq] at hs
    subst hs
    have hring : ({ x with responses := [] } : World β).ringFull = false :=
      ringFull_of_nil requests rfl
    rcases resumeGet_spec (x := { x with responses := [] }) rsp hn hring (congrFun hentry addr) with
      ⟨-, heq⟩ | ⟨hmore, req, hreq, heq⟩
    · rw [heq]
      refine ⟨hentry, hdir, hshared, .complete rfl requests rfl (fun o => ?_) opens⟩
      have hlast := received_iff (x := { x with responses := [] }) got hshared
        ((x₀.entry addr).totsize - start) o
      have hsum : start + ((x₀.entry addr).totsize - start) = (x₀.entry addr).totsize := by omega
      rwa [hsum] at hlast
    · rw [heq]
      refine ⟨hentry, hdir, hshared, .asked locked ?_ rfl hreq
        (received_iff (x := { x with responses := [] }) got hshared _) (.inr ⟨opens, by omega⟩)⟩
      show x.requests ++ [req] = [req]
      rw [requests, List.nil_append]
  | @refused m start locked requests responses op error got more =>
    simp only [World.resume, responses, Option.some.injEq] at hs
    rw [(resume_error op error).1] at hs
    subst hs
    exact ⟨hentry, hdir, hshared, .short rfl requests rfl got more⟩
  | asked _ _ responses | complete _ _ responses | short _ _ responses =>
    simp [World.resume, responses] at hs

theorem Receiving.ringFull (h : Receiving n addr x₀ R x failed) (hs : x.resumeFull = some y) :
    Receiving n addr x₀ R y true := by
  obtain ⟨hentry, hdir, hshared, hphase⟩ := h
  cases hphase with
  | @answered m start locked requests responses rsp got more opens =>
    simp only [World.resumeFull, responses, Option.some.injEq] at hs
    rw [mcdEventResumeFull, if_neg (by simp [rsp.good.ended]), rsp.op] at hs
    subst hs
    exact ⟨hentry, hdir, hshared, .short rfl requests rfl got more⟩
  | @refused m start locked requests responses op error got more =>
    simp only [World.resumeFull, responses, Option.some.injEq] at hs
    rw [(resume_error (n := n) op error).2] at hs
    subst hs
    exact ⟨hentry, hdir, hshared, .short rfl requests rfl got more⟩
  | asked _ _ responses | complete _ _ responses | short _ _ responses =>
    simp [World.resumeFull, responses] at hs

/-- How a page-in stands after the events `evs`. -/
def Fared (n addr : Nat) (x₀ : World β) (R : β → Prop) (evs : List Event) (x : World β) : Prop :=
  (Receiving n addr x₀ R x false ∧ ∀ e ∈ evs, e.isFault = false) ∨
    Receiving n addr x₀ R x true ∧
      ((∃ e ∈ evs, e.isFault = true) ∨ ¬ x₀.Opens (x₀.entry addr).domain)

theorem Fared.step {evs : List Event} (h : Fared n addr x₀ R evs x) (hn : 0 < n)
    (hs : x.Step n e y) : Fared n addr x₀ R (evs ++ [e]) y := by
  have hfault (he : e.isFault = true) : ∃ e' ∈ evs ++ [e], e'.isFault = true :=
    ⟨e, by simp, he⟩
  have hnone (hevs : ∀ e' ∈ evs, e'.isFault = false) (he : e.isFault = false) :
      ∀ e' ∈ evs ++ [e], e'.isFault = false := by
    intro e' he'
    rcases List.mem_append.mp he' with hl | hr
    · exact hevs e' hl
    · rw [List.mem_singleton.mp hr]
      exact he
  have hkeep (hevs : (∃ e' ∈ evs, e'.isFault = true) ∨ ¬ x₀.Opens (x₀.entry addr).domain) :
      (∃ e' ∈ evs ++ [e], e'.isFault = true) ∨ ¬ x₀.Opens (x₀.entry addr).domain :=
    hevs.imp_left fun ⟨e', he', hf⟩ => ⟨e', List.mem_append_left _ he', hf⟩
  cases e with
  | serve =>
    rcases h with ⟨hr, hevs⟩ | ⟨hr, hevs⟩
    · rcases hr.serve hn hs with ⟨-, hopen, hy⟩ | hy
      · exact .inr ⟨hy, .inr hopen⟩
      · exact .inl ⟨hy, hnone hevs rfl⟩
    · rcases hr.serve hn hs with ⟨hf, -, -⟩ | hy
      · cases hf
      · exact .inr ⟨hy, hkeep hevs⟩
  | resume =>
    rcases h with ⟨hr, hevs⟩ | ⟨hr, hevs⟩
    · exact .inl ⟨hr.resume hn hs, hnone hevs rfl⟩
    · exact .inr ⟨hr.resume hn hs, hkeep hevs⟩
  | openFails => rcases h with ⟨hr, -⟩ | ⟨hr, -⟩ <;> exact .inr ⟨hr.openFails hs, .inl (hfault rfl)⟩
  | ringFull => rcases h with ⟨hr, -⟩ | ⟨hr, -⟩ <;> exact .inr ⟨hr.ringFull hs, .inl (hfault rfl)⟩

theorem Receiving.start (hidle : x.Idle) (hshared : ∀ i, R (x.sharedPage i))
    (hblank : ∀ o, ¬ R (x.keyVal addr o)) (hs : minfPageIn n addr x = some (y, true)) :
    Receiving n addr x R y false := by
  have hlock : ¬ x.getLock = true := by simp [hidle.getLock]
  have hring : ({ x with getLock := true } : World β).ringFull = false :=
    ringFull_of_nil hidle.requests hidle.responses
  have hroom : ¬ ({ x with getLock := true } : World β).ringFull = true := by simp [hring]
  simp only [minfPageIn, if_neg hlock, mcdctlPageIn, if_neg hroom, Option.some.injEq, Prod.mk.injEq,
    and_true] at hs
  rw [hidle.requests, List.nil_append] at hs
  subst hs
  have hreq : GetReq n (x.entry addr) addr x.disk
      { op := .get, domain := (x.entry addr).domain, flags := { new := true }
        hash := (x.entry addr).hash, totsize := (x.entry addr).totsize, accsize := 0, cursize := 0
        fd := 0, mcdData := addr } 0 :=
    ⟨rfl, rfl, rfl, rfl, rfl, rfl, Nat.dvd_zero _, rfl, rfl, rfl, .inl ⟨rfl, rfl⟩⟩
  exact ⟨rfl, rfl, hshared, .asked rfl rfl hidle.responses hreq
    (fun o => iff_of_false (hblank o) (Nat.not_lt_zero o)) (.inl ⟨rfl, rfl⟩)⟩

theorem totsize_le_size (mh : Entry) : mh.totsize ≤ mh.size := by
  unfold Entry.totsize Entry.size
  rw [UInt32.toNat_add]
  exact Nat.mod_le _ _

/-- All bytes of an entry have come exactly when its page-in was accepted and no step of it failed:
the daemon opened the file, the ring had room for each part, and the sizes did not wrap. -/
theorem getRun_received_iff {evs : Option (List Event)} {z : World β} (hn : 1 ≤ n) (hidle : x.Idle)
    (hshared : ∀ i, R (x.sharedPage i)) (hblank : ∀ o, ¬ R (x.keyVal addr o))
    (hpos : 0 < (x.entry addr).size) (h : GetRun n addr x evs z) :
    (∀ o < (x.entry addr).size, R (z.keyVal addr o)) ↔
      Faultless evs ∧ x.Opens (x.entry addr).domain ∧ (x.entry addr).size < 2 ^ 32 := by
  have hle := totsize_le_size (x.entry addr)
  cases h with
  | refused =>
    refine iff_of_false (fun hall => hblank 0 (hall 0 hpos)) ?_
    rintro ⟨⟨l, hl, -⟩, -⟩
    cases hl
  | @ran y z evs start run unlocked =>
    have hfared : Fared n addr x R ([] ++ evs) z :=
      run.invariant_history (I := Fared n addr x R) (fun hi hs => hi.step hn hs) []
        (.inl ⟨Receiving.start hidle hshared hblank start, by simp⟩)
    rw [List.nil_append] at hfared
    rcases hfared with ⟨⟨hentry, hdir, -, hphase⟩, hevs⟩ | ⟨⟨hentry, hdir, -, hphase⟩, hevs⟩
    · cases hphase with
      | asked locked | answered locked =>
        rw [unlocked] at locked
        cases locked
      | complete _ _ _ got opens =>
        have hopen := (opens_congr hdir _).mp opens
        constructor
        · intro hall
          refine ⟨⟨evs, rfl, hevs⟩, hopen, ?_⟩
          have hlast := (got _).mp (hall ((x.entry addr).size - 1) (by omega))
          have hlt : (x.entry addr).totsize < 2 ^ 32 := UInt32.toNat_lt _
          omega
        · rintro ⟨-, -, hsize⟩ o ho
          rw [← totsize_eq hsize] at ho
          exact (got o).mpr ho
    · refine iff_of_false ?_ ?_
      · cases hphase with
        | refused locked =>
          rw [unlocked] at locked
          cases locked
        | @short start _ _ _ got more =>
          intro hall
          have hlast := (got _).mp (hall ((x.entry addr).size - 1) (by omega))
          omega
      · rintro ⟨⟨l, hl, hnone⟩, hopen, -⟩
        cases hl
        rcases hevs with ⟨e, he, hf⟩ | hno
        · rw [hnone e he] at hf
          cases hf
        · exact hno hopen

/-- What holds between the steps of a page-out, alone on the ring and without faults. -/
structure Writing (n addr : Nat) (x₀ x : World β) : Prop where
  entry : x.entry = x₀.entry
  keyVal : x.keyVal = x₀.keyVal
  dir0 : x.disk.dir0 = x₀.disk.dir0
  alone : x.pending .get = ([], [])
  out : OutSide n (x₀.entry addr) addr (x₀.keyVal addr) x true

theorem Writing.of_out (h : Writing n addr x₀ x)
    (hout : OutSide n (x₀.entry addr) addr (x₀.keyVal addr) y true)
    (hstep : OutStep (x₀.entry addr) addr x y) : Writing n addr x₀ y where
  entry := hstep.entry.trans h.entry
  keyVal := hstep.keyVal.trans h.keyVal
  dir0 := hstep.frame.dir0.trans h.dir0
  alone := hstep.pending.trans h.alone
  out := hout

theorem Writing.count (h : Writing n addr x₀ x) :
    x.requests.length + x.responses.length ≤ 1 := by
  have hout := h.out.count
  obtain ⟨hreq, hrsp⟩ := Prod.mk.inj h.alone
  rw [length_by_op x.requests, length_by_op x.responses, hreq, hrsp]
  simpa using hout

theorem Writing.step (h : Writing n addr x₀ x) (hn : 0 < n)
    (hopen : x₀.Opens (x₀.entry addr).domain) (he : e.isFault = false) (hs : x.Step n e y) :
    Writing n addr x₀ y := by
  have hput {m : Msg} {l : List Msg} (hl : l.filter (·.op = .get) = []) (hm : m ∈ l) :
      m.op = .put := by
    cases hop : m.op with
    | put => rfl
    | get => exact absurd (decide_eq_true hop) (List.filter_eq_nil_iff.mp hl m hm)
  obtain ⟨hreq, hrsp⟩ := Prod.mk.inj h.alone
  cases e with
  | serve =>
    cases hx : x.requests with
    | nil => simp [World.Step, World.step, World.serve, hx] at hs
    | cons m rest =>
      have hop := hput hreq (hx ▸ List.mem_cons_self)
      obtain ⟨z, hz, hout, hstep⟩ := h.out.serve hx hop ((opens_congr h.dir0 _).mpr hopen)
      cases hs.symm.trans hz
      exact h.of_out hout hstep
  | resume =>
    cases hx : x.responses with
    | nil => simp [World.Step, World.step, World.resume, hx] at hs
    | cons m rest =>
      have hop := hput hrsp (hx ▸ List.mem_cons_self)
      have hring : ({ x with responses := rest } : World β).ringFull = false := by
        have hcount := h.count
        rw [hx, List.length_cons] at hcount
        exact ringFull_of_count (by simp only; omega)
      obtain ⟨z, hz, hout, hstep⟩ :=
        h.out.resume hn hx hop hring (congrFun h.entry addr) (congrFun h.keyVal addr)
      cases hs.symm.trans hz
      exact h.of_out hout hstep
  | openFails | ringFull => cases he

theorem Writing.start (hn : 0 < n) (hidle : x.Idle) (hs : minfPageOut n addr x = some (y, true)) :
    Writing n addr x y := by
  have hnil (op : Op) : x.pending op = ([], []) := by
    simp [World.pending, hidle.requests, hidle.responses]
  have hready : OutSide n (x.entry addr) addr (x.keyVal addr) x false :=
    .ready hidle.putLock (hnil .put)
  obtain ⟨z, hz, hout, hstep⟩ :=
    hready.start hn (ringFull_of_nil hidle.requests hidle.responses) rfl rfl
  cases hs.symm.trans hz
  exact ⟨hstep.entry, hstep.keyVal, hstep.frame.dir0, hstep.pending.trans (hnil .get), hout⟩

/-- A page-out that was accepted and in which no step failed has written its file. -/
theorem putRun_file {evs : Option (List Event)} {z : World β} (hn : 1 ≤ n) (hidle : x.Idle)
    (hopen : x.Opens (x.entry addr).domain) (h : PutRun n addr x evs z) (hf : Faultless evs) :
    z.disk.files (x.entry addr).domain (x.entry addr).hash =
      some ((x.keyVal addr).bytes 0 (x.entry addr).totsize) := by
  obtain ⟨l, rfl, hnone⟩ := hf
  obtain - | ⟨start, run, unlocked⟩ := h
  let I (pre : List Event) (w : World β) : Prop :=
    (∀ e ∈ pre, e.isFault = false) → Writing n addr x w
  have hkeep : ∀ {pre s e t}, I pre s → World.Step n s e t → I (pre ++ [e]) t := by
    intro pre s e t hi hs hpre
    have hw := hi fun e' he' => hpre e' (List.mem_append_left _ he')
    exact hw.step hn hopen (hpre e (by simp)) hs
  have hlast : I ([] ++ l) z := run.invariant_history hkeep [] fun _ => Writing.start hn hidle start
  rw [List.nil_append] at hlast
  cases (hlast hnone).out with
  | sent locked | back locked =>
    rw [unlocked] at locked
    cases locked
  | done _ _ file => exact file

/-- The world a page-out leaves after the events `evs`. -/
def putEvents (n addr : Nat) (evs : List Event) (x : World β) : Option (World β) :=
  match minfPageOut n addr x with
  | some (y, true) => evs.foldlM (World.step n) y
  | _ => none

theorem putRun_of_events {evs : List Event} {z : World β} (h : putEvents n addr evs x = some z)
    (hz : z.putLock = false) : PutRun n addr x (some evs) z := by
  unfold putEvents at h
  split at h
  · next y hstart => exact .ran hstart (Trace.of_foldlM h) hz
  · cases h

/-- The world a page-in leaves after the events `evs`. -/
def getEvents (n addr : Nat) (evs : List Event) (x : World β) : Option (World β) :=
  match minfPageIn n addr x with
  | some (y, true) => evs.foldlM (World.step n) y
  | _ => none

theorem getRun_of_events {evs : List Event} {z : World β} (h : getEvents n addr evs x = some z)
    (hz : z.getLock = false) : GetRun n addr x (some evs) z := by
  unfold getEvents at h
  split at h
  · next y hstart => exact .ran hstart (Trace.of_foldlM h) hz
  · cases h

theorem trace_of_drive {fuel : Nat} {z : World β} (h : drive n fuel x = some z) :
    ∃ evs, Trace (World.Step n) x evs z ∧ ∀ e ∈ evs, e.isFault = false := by
  induction fuel generalizing x with
  | zero => cases h
  | succ fuel ih =>
    unfold drive at h
    cases hserve : x.serve n with
    | none =>
      rw [hserve] at h
      cases h
      exact ⟨[], .nil _, by simp⟩
    | some y =>
      rw [hserve] at h
      obtain ⟨w, hw, hrest⟩ := Option.bind_eq_some_iff.mp h
      obtain ⟨evs, htrace, hnone⟩ := ih hrest
      refine ⟨.serve :: .resume :: evs, .cons hserve (.cons hw htrace), ?_⟩
      simpa [Event.isFault] using hnone

/-- A page-out alone on the ring can run to its end. -/
theorem exists_putRun (hn : 1 ≤ n) (hidle : x.Idle) (hopen : x.Opens (x.entry addr).domain) :
    ∃ evs z, PutRun n addr x evs z ∧ Faultless evs := by
  obtain ⟨z, hz, hdone⟩ := putExchange_spec hn hidle hopen (Nat.le_refl _)
  unfold putExchange at hz
  split at hz
  · next y hstart =>
    obtain ⟨evs, htrace, hnone⟩ := trace_of_drive hz
    exact ⟨some evs, z, .ran hstart htrace hdone.putLock, evs, rfl, hnone⟩
  · cases hz

/-- A page-in alone on the ring can run to its end. -/
theorem exists_getRun (hn : 1 ≤ n) (hidle : x.Idle) (hopen : x.Opens (x.entry addr).domain) :
    ∃ evs z, GetRun n addr x evs z ∧ Faultless evs := by
  obtain ⟨z, hz, hdone⟩ := getExchange_spec hn hidle hopen (Nat.le_refl _)
  unfold getExchange at hz
  split at hz
  · next y hstart =>
    obtain ⟨evs, htrace, hnone⟩ := trace_of_drive hz
    exact ⟨some evs, z, .ran hstart htrace hdone.getLock, evs, rfl, hnone⟩
  · cases hz

end
end
end UniCache.Transfer
