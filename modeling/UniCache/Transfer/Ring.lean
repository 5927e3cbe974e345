import UniCache.Base.SharedRing
import UniCache.Base.Trace
import UniCache.Transfer.Protocol

/-! The ring between Xen and the daemon: virtual CPUs that test for room and then put a request, the
daemon's loop, and `RESUME` hypercalls, in any order. -/
namespace UniCache.Transfer
open Base

/-- The types of requests. -/
inductive ReqType
  | put | get | del | domCreate | domFlush | domDestroy | flushAll | addSharedPage
  deriving DecidableEq, Repr

/-- A message on the ring: its type, the entry it is about, and what else it carries, which the ring
does not look at. -/
structure RingMsg (β : Type) where
  type : ReqType
  mcdData : Nat
  body : β
  deriving DecidableEq

/-- `resume_need`: whether the daemon answers a request. -/
def ReqType.resumeNeed : ReqType → Bool
  | .addSharedPage => false
  | _ => true

theorem ReqType.resumeNeed_iff {t : ReqType} : t.resumeNeed = true ↔ t ≠ .addSharedPage := by
  cases t <;> decide

/-- What the daemon does not change when it turns a request into its response. -/
def RingMsg.key {β : Type} (m : RingMsg β) : ReqType × Nat := (m.type, m.mcdData)

/-- Where the daemon's loop is. -/
inductive Daemon (β : Type)
  | idle
  | serving (req : RingMsg β)
  | resuming
  deriving DecidableEq

/-- The answer it still owes. -/
def Daemon.owed {β : Type} : Daemon β → List (ReqType × Nat)
  | .serving m => if m.type.resumeNeed then [m.key] else []
  | _ => []

/-- The ring with its users. -/
structure Channel (β : Type) where
  ring : SharedRing (RingMsg β)
  /-- Virtual CPUs for which `mcd_event_check_ring` found room and that have not put their request
  yet. -/
  waiting : Nat
  daemon : Daemon β
  /-- History: the requests put and taken, the responses put, and those handed to
  `mcd_event_resume`. -/
  issued : List (RingMsg β)
  served : List (RingMsg β)
  answered : List (RingMsg β)
  handed : List (RingMsg β)

/-- What happens on the ring, one critical section at a time. -/
inductive RingEvent (β : Type)
  /-- A virtual CPU tests for room. -/
  | check
  /-- One whose test succeeded puts its request. -/
  | push (m : RingMsg β)
  /-- The daemon takes a request. -/
  | take
  /-- It is done with the request, and answers it if the type asks for an answer. -/
  | respond (body : β)
  /-- Its `RESUME` hypercall. -/
  | resume
  /-- A `RESUME` hypercall of anyone else. -/
  | stray

/-- `MCD_EVENT_RING_THRESHOLD`. -/
def ringThreshold : Int32 := 4

section
variable {β : Type}

/-- A daemon attaches; the slots hold what was in the page. -/
def Channel.start (slot : Nat → RingMsg β) : Channel β :=
  { ring := .init slot, waiting := 0, daemon := .idle, issued := [], served := [], answered := []
    handed := [] }

namespace Channel

/-- `mcd_event_check_ring`: the number of free slots is compared as an `int`. -/
def ringFull (x : Channel β) : Bool := (x.ring.freeRequests ringSlots).toInt32 < ringThreshold

/-- `mcd_event_get_response` at the head of `mcd_event_resume`. -/
def handOver (x : Channel β) : Channel β :=
  { x with ring := x.ring.getResponse, handed := x.handed ++ [x.ring.response ringSlots] }

def step (x : Channel β) : RingEvent β → Option (Channel β)
  | .check => some (if x.ringFull then x else { x with waiting := x.waiting + 1 })
  | .push m =>
    if x.waiting = 0 then none
    else some { x with
      ring := x.ring.putRequest ringSlots m
      waiting := x.waiting - 1
      issued := x.issued ++ [m] }
  | .take => match x.daemon with
    | .idle =>
      if x.ring.unconsumedRequests ringSlots = 0 then none
      else some { x with
        ring := x.ring.getRequest
        daemon := .serving (x.ring.request ringSlots)
        served := x.served ++ [x.ring.request ringSlots] }
    | _ => none
  | .respond body => match x.daemon with
    | .serving m =>
      if m.type.resumeNeed then some { x with
        ring := x.ring.putResponse ringSlots { m with body }
        daemon := .resuming
        answered := x.answered ++ [{ m with body }] }
      else some { x with daemon := .idle }
    | _ => none
  | .resume => match x.daemon with
    | .resuming => some { x.handOver with daemon := .idle }
    | _ => none
  | .stray => some x.handOver

/-- All that an event can do. -/
inductive Effect (x : Channel β) : RingEvent β → Channel β → Prop
  | full (hfull : x.ringFull) : Effect x .check x
  | room (hroom : ¬ x.ringFull) : Effect x .check { x with waiting := x.waiting + 1 }
  | push (hwaiting : x.waiting ≠ 0) (m : RingMsg β) : Effect x (.push m) { x with
      ring := x.ring.putRequest ringSlots m
      waiting := x.waiting - 1
      issued := x.issued ++ [m] }
  | take (hidle : x.daemon = .idle) (hany : x.ring.unconsumedRequests ringSlots ≠ 0) :
      Effect x .take { x with
        ring := x.ring.getRequest
        daemon := .serving (x.ring.request ringSlots)
        served := x.served ++ [x.ring.request ringSlots] }
  | respond {m : RingMsg β} (hserving : x.daemon = .serving m) (hneed : m.type.resumeNeed)
      (body : β) : Effect x (.respond body) { x with
        ring := x.ring.putResponse ringSlots { m with body }
        daemon := .resuming
        answered := x.answered ++ [{ m with body }] }
  | skip {m : RingMsg β} (hserving : x.daemon = .serving m) (hneed : ¬ m.type.resumeNeed)
      (body : β) : Effect x (.respond body) { x with daemon := .idle }
  | resume (hresuming : x.daemon = .resuming) :
      Effect x .resume { x.handOver with daemon := .idle }
  | stray : Effect x .stray x.handOver

theorem step_effect {x y : Channel β} {e : RingEvent β} (h : x.step e = some y) :
    x.Effect e y := by
  cases e with
  | check =>
    rw [← Option.some.inj h]
    by_cases hfull : x.ringFull
    · rw [if_pos hfull]
      exact .full hfull
    · rw [if_neg hfull]
      exact .room hfull
  | push m =>
    simp only [step] at h
    by_cases hwaiting : x.waiting = 0
    · rw [if_pos hwaiting] at h
      cases h
    · rw [if_neg hwaiting] at h
      rw [← Option.some.inj h]
      exact .push hwaiting m
  | take =>
    cases hd : x.daemon with
    | idle =>
      simp only [step, hd] at h
      by_cases hany : x.ring.unconsumedRequests ringSlots = 0
      · rw [if_pos hany] at h
        cases h
      · rw [if_neg hany] at h
        rw [← Option.some.inj h]
        exact .take hd hany
    | serving m => simp [step, hd] at h
    | resuming => simp [step, hd] at h
  | respond body =>
    cases hd : x.daemon with
    | serving m =>
      simp only [step, hd] at h
      by_cases hneed : m.type.resumeNeed
      · rw [if_pos hneed] at h
        rw [← Option.some.inj h]
        exact .respond hd hneed body
      · rw [if_neg hneed] at h
        rw [← Option.some.inj h]
        exact .skip hd hneed body
    | idle => simp [step, hd] at h
    | resuming => simp [step, hd] at h
  | resume =>
    cases hd : x.daemon with
    | resuming =>
      simp only [step, hd] at h
      rw [← Option.some.inj h]
      exact .resume hd
    | idle => simp [step, hd] at h
    | serving m => simp [step, hd] at h
  | stray =>
    rw [← Option.some.inj h]
    exact .stray

def Moves (x : Channel β) (e : RingEvent β) (y : Channel β) : Prop := x.step e = some y

/-- What the indices do not enforce: at most four virtual CPUs at a time are between the test and the
put, and a `RESUME` is made only when there is a response to take. -/
def Heeds (x : Channel β) : RingEvent β → Prop
  | .check => x.waiting < 4
  | .resume | .stray => x.handed.length < x.answered.length
  | _ => True

def HeedingMoves (x : Channel β) (e : RingEvent β) (y : Channel β) : Prop :=
  x.Heeds e ∧ x.step e = some y

/-- The keys of the requests that get an answer. -/
def answerable (l : List (RingMsg β)) : List (ReqType × Nat) :=
  (l.filter (·.type.resumeNeed)).map (·.key)

/-- What heeding moves keep. -/
structure Inv (x : Channel β) : Prop where
  holds : x.ring.Holds ringSlots x.issued x.answered x.served.length x.handed.length
  served : x.served <+: x.issued
  handed : x.handed <+: x.answered
  answers : answerable x.served = x.answered.map (·.key) ++ x.daemon.owed
  room : x.issued.length + x.waiting ≤ x.handed.length + ringSlots

end Channel

theorem ringSlots_dvd : ringSlots ∣ 2 ^ 32 := ⟨2 ^ 26, rfl⟩

/-- A prefix grows by the element that follows it. -/
theorem prefix_concat {α : Type} {l m : List α} {a : α} (h : l <+: m) (ha : m[l.length]? = some a) :
    l ++ [a] <+: m := by
  obtain ⟨t, rfl⟩ := h
  rw [List.getElem?_append_right (Nat.le_refl _), Nat.sub_self] at ha
  cases t with
  | nil => cases ha
  | cons b t =>
    cases ha
    exact ⟨t, by rw [List.append_assoc]; rfl⟩

/-- For what the ring can hold, the comparison as an `int` is one of numbers. -/
theorem ringFull_iff {x : Channel β} (h : (x.ring.freeRequests ringSlots).toNat ≤ ringSlots) :
    x.ringFull = true ↔ (x.ring.freeRequests ringSlots).toNat < 4 := by
  unfold Channel.ringFull
  generalize x.ring.freeRequests ringSlots = free at h ⊢
  have hint : free.toInt32.toInt = free.toNat := by
    have hsmall : 2 * free.toBitVec.toNat < 2 ^ 32 := by
      unfold ringSlots at h
      rw [UInt32.toNat_toBitVec]
      omega
    exact BitVec.toInt_eq_toNat_of_lt hsmall
  rw [decide_eq_true_iff, Int32.lt_iff_toInt_lt, hint]
  have hfour : ringThreshold.toInt = 4 := by decide
  rw [hfour]
  omega

section
variable {x y : Channel β}

namespace Channel.Inv

theorem start (slot : Nat → RingMsg β) : (Channel.start slot).Inv where
  holds := SharedRing.holds_init ringSlots slot
  served := List.prefix_refl _
  handed := List.prefix_refl _
  answers := rfl
  room := Nat.zero_le _

theorem free (h : x.Inv) : (x.ring.freeRequests ringSlots).toNat =
    ringSlots - (x.issued.length - x.handed.length) := by
  have hle := h.handed.length_le
  have hrsps := h.holds.rsps_le
  have htaken := h.holds.taken_le
  exact h.holds.toCounts.freeRequests (by decide) (by omega) h.holds.fits

theorem check (h : x.Inv) (hfour : x.waiting < 4) (hroom : ¬ x.ringFull) :
    Inv { x with waiting := x.waiting + 1 } := by
  have hfree := h.free
  have hbound : (x.ring.freeRequests ringSlots).toNat ≤ ringSlots := by
    rw [hfree]
    exact Nat.sub_le _ _
  rw [ringFull_iff hbound, hfree] at hroom
  refine { h with room := ?_ }
  show x.issued.length + (x.waiting + 1) ≤ x.handed.length + ringSlots
  unfold ringSlots at *
  omega

theorem push (h : x.Inv) (hwaiting : x.waiting ≠ 0) (m : RingMsg β) : Inv { x with
    ring := x.ring.putRequest ringSlots m
    waiting := x.waiting - 1
    issued := x.issued ++ [m] } := by
  have hroom := h.room
  exact
    { holds := h.holds.putRequest ringSlots_dvd (by omega)
      served := h.served.trans (List.prefix_append _ _)
      handed := h.handed
      answers := h.answers
      room := by
        rw [List.length_append, List.length_singleton]
        show x.issued.length + 1 + (x.waiting - 1) ≤ x.handed.length + ringSlots
        omega }

theorem answerable_concat (l : List (RingMsg β)) (m : RingMsg β) :
    answerable (l ++ [m]) = answerable l ++ if m.type.resumeNeed then [m.key] else [] := by
  unfold answerable
  rw [List.filter_append, List.map_append]
  by_cases hm : m.type.resumeNeed <;> simp [hm]

theorem take (h : x.Inv) (hidle : x.daemon = .idle)
    (hany : x.ring.unconsumedRequests ringSlots ≠ 0) : Inv { x with
      ring := x.ring.getRequest
      daemon := .serving (x.ring.request ringSlots)
      served := x.served ++ [x.ring.request ringSlots] } := by
  have hlt : x.served.length < x.issued.length := by
    apply Nat.lt_of_le_of_ne h.holds.taken_le
    intro heq
    apply (SharedRing.unconsumedRequests_ne_zero hany).1
    rw [h.holds.reqProd, h.holds.reqCons, heq]
  have howed : x.daemon.owed = [] := by rw [hidle]; rfl
  have hans := h.answers
  rw [howed, List.append_nil] at hans
  exact
    { holds := by
        rw [List.length_append]
        exact h.holds.getRequest hlt
      served := prefix_concat h.served (h.holds.request ringSlots_dvd hlt)
      handed := h.handed
      answers := by
        rw [answerable_concat, hans]
        rfl
      room := h.room }

theorem respond (h : x.Inv) {m : RingMsg β} (hserving : x.daemon = .serving m)
    (hneed : m.type.resumeNeed) (body : β) : Inv { x with
      ring := x.ring.putResponse ringSlots { m with body }
      daemon := .resuming
      answered := x.answered ++ [{ m with body }] } := by
  have howed : x.daemon.owed = [m.key] := by
    rw [hserving]
    exact if_pos hneed
  have hans := h.answers
  rw [howed] at hans
  have hlt : x.answered.length < x.served.length := by
    have hlen := congrArg List.length hans
    rw [List.length_append, List.length_map, List.length_singleton] at hlen
    unfold answerable at hlen
    rw [List.length_map] at hlen
    have hfilter := List.length_filter_le (fun m : RingMsg β => m.type.resumeNeed) x.served
    omega
  exact
    { holds := h.holds.putResponse ringSlots_dvd hlt
      served := h.served
      handed := h.handed.trans (List.prefix_append _ _)
      answers := by
        rw [hans, List.map_append]
        exact (List.append_nil _).symm
      room := h.room }

/-- A request without an answer. -/
theorem skip (h : x.Inv) {m : RingMsg β} (hserving : x.daemon = .serving m)
    (hneed : ¬ m.type.resumeNeed) : Inv { x with daemon := .idle } := by
  have howed : x.daemon.owed = [] := by
    rw [hserving]
    exact if_neg hneed
  refine { h with answers := ?_ }
  rw [h.answers, howed]
  rfl

theorem handOver (h : x.Inv) (hlt : x.handed.length < x.answered.length) : x.handOver.Inv where
  holds := by
    unfold Channel.handOver
    rw [List.length_append]
    exact h.holds.getResponse hlt
  served := h.served
  handed := prefix_concat h.handed (h.holds.response ringSlots_dvd hlt)
  answers := h.answers
  room := by
    unfold Channel.handOver
    rw [List.length_append, List.length_singleton]
    have hroom := h.room
    show x.issued.length + x.waiting ≤ x.handed.length + 1 + ringSlots
    omega

/-- Every move that heeds the limits keeps the invariant. -/
theorem step {e : RingEvent β} (h : x.Inv) (hmove : x.HeedingMoves e y) : y.Inv := by
  obtain ⟨hheeds, hstep⟩ := hmove
  cases step_effect hstep with
  | full _ => exact h
  | room hroom => exact h.check hheeds hroom
  | push hwaiting m => exact h.push hwaiting m
  | take hidle hany => exact h.take hidle hany
  | respond hserving hneed body => exact h.respond hserving hneed body
  | skip hserving hneed _ => exact h.skip hserving hneed
  | resume hresuming =>
    have hover := h.handOver hheeds
    refine { hover with answers := ?_ }
    have hans := hover.answers
    have howed : x.handOver.daemon.owed = [] := by
      show x.daemon.owed = []
      rw [hresuming]
      rfl
    rw [howed] at hans
    exact hans
  | stray => exact h.handOver hheeds

end Channel.Inv

/-! ### Only produced responses are consumed -/

namespace Channel

/-- Moves among which every `RESUME` is the daemon's own. -/
def AloneMoves (x : Channel β) (e : RingEvent β) (y : Channel β) : Prop :=
  (match e with
    | .check => x.waiting < 4
    | .stray => False
    | _ => True) ∧ x.step e = some y

/-- While the daemon makes its hypercall there is one response to take, and otherwise none. -/
def InStep (x : Channel β) : Prop :=
  x.answered.length = x.handed.length + match x.daemon with
    | .resuming => 1
    | _ => 0

theorem InStep.pending (h : x.InStep) (hresuming : x.daemon = .resuming) :
    x.answered.length = x.handed.length + 1 := by
  unfold InStep at h
  rw [hresuming] at h
  exact h

theorem InStep.step {e : RingEvent β} (h : x.InStep) (hstep : x.Moves e y) (halone : e ≠ .stray) :
    y.InStep := by
  unfold InStep at h ⊢
  cases step_effect hstep with
  | full _ => exact h
  | room _ => exact h
  | push _ _ => exact h
  | take hidle _ =>
    rw [hidle] at h
    exact h
  | respond hserving _ body =>
    rw [hserving] at h
    show (x.answered ++ [_]).length = x.handed.length + 1
    rw [List.length_append, h]
    rfl
  | skip hserving _ _ =>
    rw [hserving] at h
    exact h
  | resume hresuming =>
    rw [hresuming] at h
    show x.answered.length = (x.handed ++ [_]).length + 0
    rw [List.length_append, h]
    rfl
  | stray => exact absurd rfl halone

theorem heeding_of_alone {slot : Nat → RingMsg β} {l : List (RingEvent β)}
    (h : Trace AloneMoves (.start slot) l x) : Trace HeedingMoves (.start slot) l x := by
  have hkeeps : ∀ {x y : Channel β} {e : RingEvent β}, x.InStep → x.AloneMoves e y → y.InStep := by
    rintro x y e hin ⟨halone, hstep⟩
    apply hin.step hstep
    rintro rfl
    exact halone
  apply h.strengthen (I := InStep) (fun hin hmove => hkeeps hin hmove) _ rfl
  rintro x e y hin ⟨halone, hstep⟩
  refine ⟨?_, hstep⟩
  cases step_effect hstep with
  | full _ => exact halone
  | room _ => exact halone
  | resume hresuming =>
    show x.handed.length < x.answered.length
    rw [hin.pending hresuming]
    exact Nat.lt_succ_self _
  | stray => exact halone.elim
  | _ => trivial

end Channel

variable {slot : Nat → RingMsg β} {l : List (RingEvent β)}

theorem run_inv (h : Trace Channel.HeedingMoves (.start slot) l x) : x.Inv :=
  h.invariant (I := Channel.Inv) (fun hi hstep => hi.step hstep) (.start slot)

/-- Where every `RESUME` finds a response, `rsp_cons` never passes `rsp_prod`, and the responses
handed to `mcd_event_resume` are, in this order, those the daemon put for the requests Xen issued. -/
theorem handed_are_answers (hrun : Trace Channel.HeedingMoves (.start slot) l x) :
    x.ring.rspProd = .ofNat x.answered.length ∧ x.ring.rspCons = .ofNat x.handed.length ∧
      x.handed.length ≤ x.answered.length ∧ x.handed <+: x.answered ∧
      x.handed.map (·.key) <+: Channel.answerable x.issued := by
  have h := run_inv hrun
  have hserved : Channel.answerable x.served <+: Channel.answerable x.issued :=
    (h.served.filter _).map _
  have hanswered : x.answered.map (·.key) <+: Channel.answerable x.served := by
    rw [h.answers]
    exact List.prefix_append _ _
  exact ⟨h.holds.rspProd, h.holds.rspCons, h.handed.length_le, h.handed,
    ((h.handed.map _).trans hanswered).trans hserved⟩

/-- Where besides at most four virtual CPUs wait, at most `ringSlots` requests are without a consumed
response, and the slot of a request is not written before the daemon has read it. -/
theorem ring_never_overflows (hrun : Trace Channel.HeedingMoves (.start slot) l x) :
    (x.ring.reqProdPvt - x.ring.rspCons).toNat ≤ ringSlots ∧
      ∀ i, x.served.length ≤ i → i < x.issued.length →
        x.issued[i]? = some (x.ring.slot (i % ringSlots)) := by
  have h := run_inv hrun
  have hle : x.handed.length ≤ x.issued.length := by
    have hhanded := h.holds.got_le
    have hrsps := h.holds.rsps_le
    have htaken := h.holds.taken_le
    omega
  have hfits := h.holds.fits
  have hslots : ringSlots < 2 ^ 32 := by decide
  refine ⟨?_, h.holds.requests⟩
  rw [h.holds.reqProdPvt, h.holds.rspCons, SharedRing.sub_ofNat hle (by omega)]
  omega

end

/-! ### Slots that are not given back -/

namespace Channel
variable {x y : Channel β}

/-- The requests taken that get no answer. -/
def unanswered (x : Channel β) : Nat := x.served.countP fun m => ¬ m.type.resumeNeed

/-- The daemon has served every request and Xen has consumed every response. -/
structure Quiescent (x : Channel β) : Prop where
  idle : x.daemon = .idle
  served : x.ring.reqCons = x.ring.reqProd
  consumed : x.ring.rspCons = x.ring.rspProd

/-- What all moves keep: the indices count, the daemon takes only what was put and owes no more than
one answer, and it never has more requests without an answer than there are slots. -/
structure Tally (x : Channel β) : Prop where
  counts : x.ring.Counts x.issued.length x.served.length x.answered.length x.handed.length
  taken : x.served.length ≤ x.issued.length
  served : x.served.length = x.answered.length + x.unanswered + x.daemon.owed.length
  bound : x.unanswered ≤ ringSlots

theorem unanswered_concat {m : RingMsg β} {z : Channel β} (hz : z.served = x.served ++ [m]) :
    z.unanswered = x.unanswered + if m.type.resumeNeed then 0 else 1 := by
  unfold unanswered
  rw [hz, List.countP_append]
  by_cases hm : m.type.resumeNeed <;> simp [hm]

theorem Tally.taken_lt (h : x.Tally) (hany : x.ring.unconsumedRequests ringSlots ≠ 0) :
    x.served.length < x.issued.length := by
  apply Nat.lt_of_le_of_ne h.taken
  intro heq
  apply (SharedRing.unconsumedRequests_ne_zero hany).1
  rw [h.counts.reqProd, h.counts.reqCons, heq]

theorem Tally.answered_le (h : x.Tally) : x.answered.length ≤ x.issued.length := by
  have htaken := h.taken
  have hserved := h.served
  omega

theorem Tally.take (h : x.Tally) (hidle : x.daemon = .idle)
    (hany : x.ring.unconsumedRequests ringSlots ≠ 0) : Tally { x with
      ring := x.ring.getRequest
      daemon := .serving (x.ring.request ringSlots)
      served := x.served ++ [x.ring.request ringSlots] } := by
  have howed : x.daemon.owed = [] := by rw [hidle]; rfl
  have hserved := h.served
  rw [howed] at hserved
  have hless : x.unanswered ≠ ringSlots := by
    intro heq
    apply (SharedRing.unconsumedRequests_ne_zero hany).2
    rw [h.counts.reqCons, h.counts.rspProdPvt, hserved, heq, List.length_nil, Nat.add_zero,
      UInt32.ofNat_add, UInt32.add_comm, UInt32.add_sub_cancel]
  have hbound := h.bound
  have hcount := unanswered_concat (x := x) (m := x.ring.request ringSlots) (z := { x with
      ring := x.ring.getRequest
      daemon := .serving (x.ring.request ringSlots)
      served := x.served ++ [x.ring.request ringSlots] }) rfl
  refine ⟨?_, ?_, ?_, ?_⟩
  · rw [List.length_append]
    exact h.counts.getRequest
  · rw [List.length_append]
    exact h.taken_lt hany
  · rw [List.length_append, hserved, hcount]
    show x.answered.length + x.unanswered + 0 + 1 = x.answered.length + _ +
      (if (x.ring.request ringSlots).type.resumeNeed then [_] else []).length
    by_cases hneed : (x.ring.request ringSlots).type.resumeNeed
    · rw [if_pos hneed, if_pos hneed]
      rfl
    · rw [if_neg hneed, if_neg hneed]
      rfl
  · rw [hcount]
    split_ifs <;> omega

theorem Tally.step {e : RingEvent β} (h : x.Tally) (hmove : x.Moves e y) : y.Tally := by
  have hcounts := h.counts
  have hserved := h.served
  cases step_effect hmove with
  | full _ => exact h
  | room _ => exact { h with }
  | push _ m =>
    refine { h with counts := ?_, taken := ?_ }
    · rw [List.length_append]
      exact hcounts.putRequest
    · rw [List.length_append]
      exact Nat.le_succ_of_le h.taken
  | take hidle hany => exact h.take hidle hany
  | @respond m hserving hneed body =>
    have howed : x.daemon.owed = [m.key] := by
      rw [hserving]
      exact if_pos hneed
    rw [howed, List.length_singleton] at hserved
    refine { h with counts := ?_, served := ?_ }
    · rw [List.length_append]
      exact hcounts.putResponse
    · rw [List.length_append, List.length_singleton]
      show x.served.length = x.answered.length + 1 + x.unanswered + 0
      omega
  | skip hserving hneed _ =>
    have howed : x.daemon.owed = [] := by
      rw [hserving]
      exact if_neg hneed
    rw [howed] at hserved
    exact { h with served := hserved }
  | resume hresuming =>
    rw [hresuming] at hserved
    refine { h with counts := ?_, served := hserved }
    unfold handOver
    rw [List.length_append]
    exact hcounts.getResponse
  | stray =>
    refine { h with counts := ?_ }
    unfold handOver
    rw [List.length_append]
    exact hcounts.getResponse

theorem Tally.start (slot : Nat → RingMsg β) : (Channel.start slot).Tally where
  counts := SharedRing.counts_init slot
  taken := Nat.le_refl _
  served := rfl
  bound := Nat.zero_le _

/-- What is on the ring and what the daemon took from it has a property. -/
structure Carries (Q : RingMsg β → Prop) (x : Channel β) : Prop where
  slots : x.ring.Written ringSlots Q x.issued.length
  served : ∀ m ∈ x.served, Q m
  serving : ∀ m, x.daemon = .serving m → Q m

variable {Q : RingMsg β → Prop}

theorem Carries.start (Q : RingMsg β → Prop) (slot : Nat → RingMsg β) :
    (Channel.start slot).Carries Q where
  slots i hi := absurd hi (Nat.not_lt_zero i)
  served m hm := absurd hm List.not_mem_nil
  serving m hm := by cases hm

theorem Carries.take (h : x.Carries Q) (htally : x.Tally)
    (hany : x.ring.unconsumedRequests ringSlots ≠ 0) : Carries Q { x with
      ring := x.ring.getRequest
      daemon := .serving (x.ring.request ringSlots)
      served := x.served ++ [x.ring.request ringSlots] } := by
  have hreq : Q (x.ring.request ringSlots) :=
    h.slots.request ringSlots_dvd htally.counts (htally.taken_lt hany)
  refine ⟨h.slots, ?_, ?_⟩
  · intro m hm
    rcases List.mem_append.mp hm with hm | hm
    · exact h.served m hm
    · rw [List.mem_singleton.mp hm]
      exact hreq
  · intro m hm
    cases hm
    exact hreq

/-- It stays so when each side puts only messages with the property. -/
theorem Carries.step {e : RingEvent β} (h : x.Carries Q) (htally : x.Tally) (hmove : x.Moves e y)
    (hpush : ∀ m, e = .push m → Q m)
    (hrespond : ∀ m body, e = .respond body → x.daemon = .serving m → Q { m with body }) :
    y.Carries Q := by
  have hnone : ∀ {d : Daemon β}, (∀ m, d ≠ .serving m) → ∀ m, d = .serving m → Q m :=
    fun hd m hm => absurd hm (hd m)
  cases step_effect hmove with
  | full _ => exact h
  | room _ => exact { h with }
  | push _ m =>
    refine { h with slots := ?_ }
    rw [List.length_append]
    exact h.slots.putRequest ringSlots_dvd htally.counts (hpush m rfl)
  | take _ hany => exact h.take htally hany
  | @respond m hserving _ body =>
    refine { h with slots := ?_, serving := hnone (by simp) }
    exact h.slots.putResponse (hrespond m body rfl hserving)
  | skip _ _ _ => exact { h with serving := hnone (by simp) }
  | resume _ => exact { h with serving := hnone (by simp) }
  | stray => exact { h with }

/-- As long as no request to add pages is issued, none is taken. -/
theorem plain_step {e : RingEvent β} (htally : x.Tally)
    (h : (∀ m ∈ x.issued, m.type.resumeNeed) → x.Carries (·.type.resumeNeed))
    (hmove : x.Moves e y) :
    (∀ m ∈ y.issued, m.type.resumeNeed) → y.Carries (·.type.resumeNeed) := by
  intro hissued
  have hold : ∀ m ∈ x.issued, m ∈ y.issued := by
    intro m hm
    cases step_effect hmove with
    | push _ _ => exact List.mem_append_left _ hm
    | _ => exact hm
  have hx := h fun m hm => hissued m (hold m hm)
  apply hx.step htally hmove
  · rintro m rfl
    apply hissued
    cases step_effect hmove with
    | push _ _ => exact List.mem_append_right _ (List.mem_singleton.mpr rfl)
  · intro m body _ hserving
    exact hx.serving m hserving

end Channel

section
variable {x : Channel β} {slot : Nat → RingMsg β} {l : List (RingEvent β)}

theorem run_tally (hrun : Trace Channel.Moves (.start slot) l x) : x.Tally :=
  hrun.invariant (I := Channel.Tally) (fun hi hstep => hi.step hstep) (.start slot)

theorem run_plain (hrun : Trace Channel.Moves (.start slot) l x)
    (hissued : ∀ m ∈ x.issued, m.type.resumeNeed) : x.Carries (·.type.resumeNeed) := by
  have h := hrun.invariant (I := fun x => x.Tally ∧ ((∀ m ∈ x.issued, m.type.resumeNeed) →
      x.Carries (·.type.resumeNeed)))
    (fun ⟨htally, hplain⟩ hstep => ⟨htally.step hstep, Channel.plain_step htally hplain hstep⟩)
    ⟨.start slot, fun _ => .start _ slot⟩
  exact h.2 hissued

/-- At rest every request to add pages that was taken has kept a slot, and nothing else has. -/
theorem free_of_quiescent (hrun : Trace Channel.Moves (.start slot) l x) (hq : x.Quiescent) :
    (x.ring.freeRequests ringSlots).toNat = ringSlots - x.unanswered := by
  have h := run_tally hrun
  have hserved := h.served
  rw [hq.idle] at hserved
  have hused : x.ring.reqProdPvt - x.ring.rspCons = .ofNat x.unanswered := by
    have hput : x.ring.reqProdPvt = x.ring.reqCons := by
      rw [hq.served, h.counts.reqProd, h.counts.reqProdPvt]
    rw [hput, hq.consumed, h.counts.reqCons, h.counts.rspProd, hserved]
    show UInt32.ofNat (x.answered.length + x.unanswered) - _ = _
    rw [UInt32.ofNat_add, UInt32.add_comm, UInt32.add_sub_cancel]
  unfold SharedRing.freeRequests
  rw [hused]
  have hslots : ringSlots < 2 ^ 32 := by decide
  exact SharedRing.sub_ofNat h.bound (by omega)

/-- At rest all slots are free exactly when no request to add pages was taken, and so whenever none
was issued, and there is room again as long as at most sixty were taken. -/
theorem ring_free_iff (hrun : Trace Channel.Moves (.start slot) l x) (hq : x.Quiescent) :
    ((x.ring.freeRequests ringSlots).toNat = ringSlots ↔
        ∀ m ∈ x.served, m.type ≠ .addSharedPage) ∧
      (x.ringFull = false ↔ x.unanswered ≤ 60) ∧
      ((∀ m ∈ x.issued, m.type ≠ .addSharedPage) →
        (x.ring.freeRequests ringSlots).toNat = ringSlots ∧ x.ringFull = false) := by
  have hfree := free_of_quiescent hrun hq
  have hbound := (run_tally hrun).bound
  have hall : (x.ring.freeRequests ringSlots).toNat = ringSlots ↔
      ∀ m ∈ x.served, m.type ≠ .addSharedPage := by
    have hzero : x.unanswered = 0 ↔ ∀ m ∈ x.served, m.type ≠ .addSharedPage := by
      unfold Channel.unanswered
      simp [List.countP_eq_zero, ReqType.resumeNeed_iff]
    rw [hfree, ← hzero]
    unfold ringSlots at *
    omega
  have hroom : x.ringFull = false ↔ x.unanswered ≤ 60 := by
    rw [← Bool.not_eq_true, ringFull_iff (by rw [hfree]; exact Nat.sub_le _ _), hfree]
    unfold ringSlots at *
    omega
  refine ⟨hall, hroom, fun hissued => ?_⟩
  have hnone := (run_plain hrun fun m hm => ReqType.resumeNeed_iff.mpr (hissued m hm)).served
  have hfull := hall.mpr fun m hm => ReqType.resumeNeed_iff.mp (hnone m hm)
  refine ⟨hfull, hroom.mpr ?_⟩
  unfold ringSlots at *
  omega

end

end

/-! ### Runs on a fresh ring -/

/-- A page of zeroes. -/
def blankSlots (_ : Nat) : RingMsg Nat := ⟨.put, 0, 0⟩

/-- The state after events that all happen, each where `P` allows it. -/
def Channel.after (P : Channel Nat → RingEvent Nat → Bool) (x : Channel Nat)
    (l : List (RingEvent Nat)) : Option (Channel Nat) :=
  l.foldlM (fun x e => if P x e then x.step e else none) x

theorem trace_of_after {P : Channel Nat → RingEvent Nat → Bool} {α : Type} {f : Channel Nat → α}
    {v : α} {x : Channel Nat} {l : List (RingEvent Nat)} (h : (x.after P l).map f = some v) :
    ∃ y, Trace (fun x e y => P x e = true ∧ x.step e = some y) x l y ∧ f y = v := by
  obtain ⟨y, hy, hv⟩ := Option.map_eq_some_iff.mp h
  refine ⟨y, (Trace.of_foldlM hy).mono ?_, hv⟩
  intro s e t hst
  by_cases hP : P s e = true
  · rw [if_pos hP] at hst
    exact ⟨hP, hst⟩
  · rw [if_neg hP] at hst
    cases hst

instance (x : Channel Nat) : (e : RingEvent Nat) → Decidable (x.Heeds e)
  | .check => inferInstanceAs (Decidable (x.waiting < 4))
  | .resume => inferInstanceAs (Decidable (x.handed.length < x.answered.length))
  | .stray => inferInstanceAs (Decidable (x.handed.length < x.answered.length))
  | .push _ | .take | .respond _ => inferInstanceAs (Decidable True)

/-- One exchange: a request is put, served, answered and resumed. -/
def exchange (m : RingMsg Nat) : List (RingEvent Nat) :=
  [.check, .push m, .take, .respond 1, .resume]

theorem handed_are_answers_exchange :
    ∃ x, Trace Channel.HeedingMoves (.start blankSlots) (exchange ⟨.put, 5, 0⟩) x ∧
      x.handed = [⟨.put, 5, 1⟩] ∧ x.handed.map (·.key) <+: Channel.answerable x.issued := by
  have hrun : ((Channel.start blankSlots).after (fun x e => decide (x.Heeds e))
      (exchange ⟨.put, 5, 0⟩)).map (·.handed) = some [⟨.put, 5, 1⟩] := by decide +kernel
  obtain ⟨x, htrace, hx⟩ := trace_of_after hrun
  have hheeds : Trace Channel.HeedingMoves _ _ x :=
    htrace.mono fun h => ⟨of_decide_eq_true h.1, h.2⟩
  exact ⟨x, hheeds, hx, (handed_are_answers hheeds).2.2.2.2⟩

/-- On a fresh ring a `RESUME` hypercall consumes a response although no request was ever issued. -/
theorem stray_resume_consumes_nothing :
    ∃ x, Trace Channel.Moves (.start blankSlots) [.stray] x ∧ x.issued = [] ∧ x.answered = [] ∧
      x.handed = [⟨.put, 0, 0⟩] ∧ x.ring.rspProd = 0 ∧ x.ring.rspCons = 1 :=
  ⟨_, .cons rfl (.nil _), rfl, rfl, rfl, rfl, rfl⟩

/-- Sixty requests are on the ring, `k` virtual CPUs test for room, and then all of them put. -/
def crowd (k : Nat) : List (RingEvent Nat) :=
  (List.range 60).flatMap (fun i => [.check, .push ⟨.del, 0, i⟩]) ++
    List.replicate k .check ++ (List.range k).map fun i => .push ⟨.del, 0, 60 + i⟩

/-- Four virtual CPUs fill the ring and no more. -/
theorem ring_never_overflows_four :
    ∃ x, Trace Channel.HeedingMoves (.start blankSlots) (crowd 4) x ∧ x.issued.length = 64 ∧
      (x.ring.reqProdPvt - x.ring.rspCons).toNat ≤ ringSlots := by
  have hrun : ((Channel.start blankSlots).after (fun x e => decide (x.Heeds e)) (crowd 4)).map
      (·.issued.length) = some 64 := by decide +kernel
  obtain ⟨x, htrace, hx⟩ := trace_of_after hrun
  have hheeds : Trace Channel.HeedingMoves _ _ x :=
    htrace.mono fun h => ⟨of_decide_eq_true h.1, h.2⟩
  exact ⟨x, hheeds, hx, (ring_never_overflows hheeds).1⟩

/-- The fifth overwrites a request that the daemon has not read. -/
theorem five_overflow_the_ring :
    ∃ x, Trace Channel.Moves (.start blankSlots) (crowd 5) x ∧ x.served = [] ∧
      (x.ring.reqProdPvt - x.ring.rspCons).toNat = 65 ∧ x.issued[0]? = some ⟨.del, 0, 0⟩ ∧
      x.ring.slot 0 = ⟨.del, 0, 64⟩ := by
  have hrun : ((Channel.start blankSlots).after (fun _ _ => true) (crowd 5)).map (fun x =>
      (x.served, (x.ring.reqProdPvt - x.ring.rspCons).toNat, x.issued[0]?, x.ring.slot 0)) =
        some ([], 65, some ⟨.del, 0, 0⟩, ⟨.del, 0, 64⟩) := by decide +kernel
  obtain ⟨x, htrace, hx⟩ := trace_of_after hrun
  obtain ⟨hserved, hused, hfirst, hslot⟩ : x.served = [] ∧
      (x.ring.reqProdPvt - x.ring.rspCons).toNat = 65 ∧ x.issued[0]? = some ⟨.del, 0, 0⟩ ∧
        x.ring.slot 0 = ⟨.del, 0, 64⟩ := by simpa using hx
  exact ⟨x, htrace.mono fun h => h.2, hserved, hused, hfirst, hslot⟩

instance (x : Channel Nat) : Decidable x.Quiescent :=
  decidable_of_iff
    (x.daemon = .idle ∧ x.ring.reqCons = x.ring.reqProd ∧ x.ring.rspCons = x.ring.rspProd)
    ⟨fun h => ⟨h.1, h.2.1, h.2.2⟩, fun h => ⟨h.idle, h.served, h.consumed⟩⟩

theorem ring_free_exchange :
    ∃ x, Trace Channel.Moves (.start blankSlots)
        (exchange ⟨.put, 5, 0⟩ ++ exchange ⟨.del, 0, 0⟩) x ∧
      x.issued.length = 2 ∧ x.Quiescent ∧ (x.ring.freeRequests ringSlots).toNat = ringSlots := by
  have hrun : ((Channel.start blankSlots).after (fun _ _ => true)
      (exchange ⟨.put, 5, 0⟩ ++ exchange ⟨.del, 0, 0⟩)).map (fun x =>
        (x.issued.length, decide x.Quiescent, x.served.map (·.type))) =
      some (2, true, [.put, .del]) := by decide +kernel
  obtain ⟨x, htrace, hx⟩ := trace_of_after hrun
  obtain ⟨hlen, hquiet, htypes⟩ : x.issued.length = 2 ∧ x.Quiescent ∧
      x.served.map (·.type) = [.put, .del] := by simpa using hx
  have hmoves : Trace Channel.Moves _ _ x := htrace.mono fun h => h.2
  refine ⟨x, hmoves, hlen, hquiet, (ring_free_iff hmoves hquiet).1.mpr ?_⟩
  intro m hm hadd
  have hmem : m.type ∈ x.served.map (·.type) := List.mem_map_of_mem hm
  rw [htypes, hadd] at hmem
  exact absurd hmem (by decide)

/-- Requests to add a page, each of them served. -/
def addRounds (k : Nat) : List (RingEvent Nat) :=
  (List.range k).flatMap fun _ => [.check, .push ⟨.addSharedPage, 0, 1⟩, .take, .respond 0]

/-- One leaves a slot short; after sixty-one the ring stays full although nothing is on it. -/
theorem add_requests_leak_slots :
    (∃ x, Trace Channel.Moves (.start blankSlots) (addRounds 1) x ∧ x.Quiescent ∧
      (x.ring.freeRequests ringSlots).toNat = 63) ∧
    ∃ x, Trace Channel.Moves (.start blankSlots) (addRounds 61) x ∧ x.Quiescent ∧
      x.ringFull = true := by
  constructor
  · have hrun : ((Channel.start blankSlots).after (fun _ _ => true) (addRounds 1)).map (fun x =>
        (decide x.Quiescent, (x.ring.freeRequests ringSlots).toNat)) = some (true, 63) := by
      decide +kernel
    obtain ⟨x, htrace, hx⟩ := trace_of_after hrun
    obtain ⟨hquiet, hfree⟩ : x.Quiescent ∧ (x.ring.freeRequests ringSlots).toNat = 63 := by
      simpa using hx
    exact ⟨x, htrace.mono fun h => h.2, hquiet, hfree⟩
  · have hrun : ((Channel.start blankSlots).after (fun _ _ => true) (addRounds 61)).map (fun x =>
        (decide x.Quiescent, x.ringFull)) = some (true, true) := by decide +kernel
    obtain ⟨x, htrace, hx⟩ := trace_of_after hrun
    obtain ⟨hquiet, hfull⟩ : x.Quiescent ∧ x.ringFull = true := by simpa using hx
    exact ⟨x, htrace.mono fun h => h.2, hquiet, hfull⟩

end UniCache.Transfer
