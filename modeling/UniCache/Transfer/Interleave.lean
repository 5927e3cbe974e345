import UniCache.Base.Trace
import UniCache.Transfer.RoundTrip

/-! One page-out and one page-in at a time, in any order of their steps. -/
namespace UniCache.Transfer
open Base Mcd Buffer

variable {β : Type}

/-- The world and which of the two virtual CPUs has started its transfer. -/
structure Pair (β : Type) where
  world : World β
  outStarted : Bool
  inStarted : Bool

inductive Act
  | pageOut | pageIn | serve | resume
  deriving DecidableEq, Repr

/-- One atomic step: the entry at `a` is paged out, the entry at `b` paged in. -/
def Pair.step (n a b : Nat) (act : Act) (p : Pair β) : Option (Pair β) :=
  match act with
  | .pageOut =>
    if p.outStarted then none
    else match minfPageOut n a p.world with
      | some (y, true) => some { p with world := y, outStarted := true }
      | _ => none
  | .pageIn =>
    if p.inStarted then none
    else match minfPageIn n b p.world with
      | some (y, true) => some { p with world := y, inStarted := true }
      | _ => none
  | .serve => (p.world.serve n).map fun y => { p with world := y }
  | .resume => (p.world.resume n).map fun y => { p with world := y }

def Pair.run (n a b : Nat) : List Act → Pair β → Option (Pair β)
  | [], p => some p
  | act :: acts, p => (p.step n a b act).bind (Pair.run n a b acts)

/-- Neither transfer has started. -/
def Pair.start (x : World β) : Pair β := ⟨x, false, false⟩

/-- Both transfers have started and no message is left. -/
structure Pair.Complete (p : Pair β) : Prop where
  outStarted : p.outStarted = true
  inStarted : p.inStarted = true
  requests : p.world.requests = []
  responses : p.world.responses = []

theorem trace_of_run {n a b : Nat} {acts : List Act} {p q : Pair β}
    (h : p.run n a b acts = some q) : Trace (fun p act q => p.step n a b act = some q) p acts q := by
  induction acts generalizing p with
  | nil =>
    cases h
    exact .nil _
  | cons act acts ih =>
    obtain ⟨r, hr, hrun⟩ := Option.bind_eq_some_iff.mp h
    exact .cons hr (ih hrun)

/-- The messages of one direction, requests and responses. -/
def World.pending (op : Op) (x : World β) : List Msg × List Msg :=
  (x.requests.filter (·.op = op), x.responses.filter (·.op = op))

/-- Where a page-out stands. -/
inductive OutSide (n : Nat) (mh : Entry) (addr : Nat) (kv : Buffer β) (x : World β) : Bool → Prop
  | ready : x.putLock = false → x.pending .put = ([], []) → OutSide n mh addr kv x false
  | sent {m : Msg} {start : Nat} : x.putLock = true → x.pending .put = ([m], []) →
      PutReq n mh addr kv x.sharedPage x.disk m start → OutSide n mh addr kv x true
  | back {m : Msg} : x.putLock = true → x.pending .put = ([], [m]) →
      PutRsp n mh addr kv x.disk m → OutSide n mh addr kv x true
  | done : x.putLock = false → x.pending .put = ([], []) →
      x.disk.files mh.domain mh.hash = some (kv.bytes 0 mh.totsize) → OutSide n mh addr kv x true

/-- Where a page-in stands, with a property `R` of the bytes received so far. -/
inductive InSide (n : Nat) (mh : Entry) (addr : Nat) (R : β → Prop) (x : World β) : Bool → Prop
  | ready : x.getLock = false → x.pending .get = ([], []) → InSide n mh addr R x false
  | sent {m : Msg} {start : Nat} : x.getLock = true → x.pending .get = ([m], []) →
      GetReq n mh addr x.disk m start → (∀ o < start, R (x.keyVal addr o)) → InSide n mh addr R x true
  | back {m : Msg} {start : Nat} : x.getLock = true → x.pending .get = ([], [m]) →
      GetRsp n mh addr x.disk m start → (∀ o < start, R (x.keyVal addr o)) → InSide n mh addr R x true
  | done : x.getLock = false → x.pending .get = ([], []) →
      (∀ o < mh.totsize, R (x.keyVal addr o)) → InSide n mh addr R x true

/-- What a step of the page-out leaves alone. -/
structure OutStep (mh : Entry) (addr : Nat) (x y : World β) : Prop where
  getLock : y.getLock = x.getLock
  pending : y.pending .get = x.pending .get
  entry : y.entry = x.entry
  keyVal : y.keyVal = x.keyVal
  shared : ∀ i, y.sharedPage i = x.sharedPage i ∨ ∃ o < mh.totsize, y.sharedPage i = x.keyVal addr o
  frame : Frame mh.domain mh.hash x.disk y.disk

/-- What a step of the page-in leaves alone. -/
structure InStep (mh : Entry) (addr : Nat) (x y : World β) : Prop where
  putLock : y.putLock = x.putLock
  pending : y.pending .put = x.pending .put
  entry : y.entry = x.entry
  keyVal : ∀ c, c ≠ addr → y.keyVal c = x.keyVal c
  shared : y.sharedPage = x.sharedPage
  frame : Frame mh.domain mh.hash x.disk y.disk

section
variable {n a b : Nat} {mo mi : Entry} {kv : Buffer β} {R : β → Prop} {x y : World β} {s : Bool}

theorem OutSide.of_in (h : OutSide n mo a kv x s) (hstep : InStep mi b x y)
    (hne : mo.hash ≠ mi.hash) : OutSide n mo a kv y s := by
  rcases h with ⟨hl, hp⟩ | ⟨hl, hp, hreq⟩ | ⟨hl, hp, hrsp⟩ | ⟨hl, hp, hfile⟩
  · exact .ready (hstep.putLock.trans hl) (hstep.pending.trans hp)
  · rw [← hstep.shared] at hreq
    exact .sent (hstep.putLock.trans hl) (hstep.pending.trans hp)
      { hreq with carries := hreq.carries.frame hstep.frame hne }
  · refine .back (hstep.putLock.trans hl) (hstep.pending.trans hp) ?_
    have hfile := hstep.frame.files mo.domain mo.hash fun he => hne he.2
    exact { hrsp with
      file := hfile.trans hrsp.file
      next := hrsp.next.imp_right fun ⟨hf, hd, hle, ho⟩ => ⟨hf, hd, hle, ho.frame hstep.frame hne⟩ }
  · refine .done (hstep.putLock.trans hl) (hstep.pending.trans hp) ?_
    exact (hstep.frame.files mo.domain mo.hash fun he => hne he.2).trans hfile

theorem InSide.of_out (h : InSide n mi b R x s) (hstep : OutStep mo a x y)
    (hne : mi.hash ≠ mo.hash) : InSide n mi b R y s := by
  have hkv := hstep.keyVal
  rcases h with ⟨hl, hp⟩ | ⟨hl, hp, hreq, hgot⟩ | ⟨hl, hp, hrsp, hgot⟩ | ⟨hl, hp, hgot⟩
  · exact .ready (hstep.getLock.trans hl) (hstep.pending.trans hp)
  · exact .sent (hstep.getLock.trans hl) (hstep.pending.trans hp)
      { hreq with carries := hreq.carries.frame hstep.frame hne } (hkv ▸ hgot)
  · exact .back (hstep.getLock.trans hl) (hstep.pending.trans hp)
      { hrsp with opened := fun hf => (hrsp.opened hf).frame hstep.frame hne } (hkv ▸ hgot)
  · exact .done (hstep.getLock.trans hl) (hstep.pending.trans hp) (hkv ▸ hgot)

end

section
variable {n a : Nat} {mh : Entry} {kv : Buffer β} {x : World β} {s : Bool} {m : Msg}
  {rest : List Msg}

theorem sent_shared (start : Nat) (hle : start ≤ mh.totsize) (req : Msg) (i : Nat) :
    (x.sent n a start mh req).sharedPage i = x.sharedPage i ∨
      ∃ o < mh.totsize, (x.sent n a start mh req).sharedPage i = x.keyVal a o := by
  have hpart : part n (mh.totsize - start) ≤ mh.totsize - start := Nat.min_le_left ..
  simp only [World.sent, memcpy]
  by_cases hi : 0 ≤ i ∧ i < 0 + part n (mh.totsize - start)
  · rw [if_pos hi]
    exact .inr ⟨start + (i - 0), by omega, rfl⟩
  · rw [if_neg hi]
    exact .inl rfl

theorem OutSide.start (h : OutSide n mh a kv x false) (hn : 0 < n) (hring : x.ringFull = false)
    (hmh : x.entry a = mh) (hkv : x.keyVal a = kv) :
    ∃ y, minfPageOut n a x = some (y, true) ∧ OutSide n mh a kv y true ∧ OutStep mh a x y := by
  obtain ⟨hl, hp⟩ := h
  have hlock : ¬ x.putLock = true := by simp [hl]
  have hzero : 0 = ((none : Option Msg).map (·.accsize)).getD 0 := rfl
  obtain ⟨req, hout, hreq, -⟩ := mcdctlPageOut_spec (x := { x with putLock := true }) hn hring hmh hzero
    (Nat.zero_le _) (Nat.dvd_zero _) (.inl rfl)
  have hstart : minfPageOut n a x =
      some (World.sent n a 0 mh req { x with putLock := true }, true) := by
    simp only [minfPageOut, if_neg hlock, hout]
  refine ⟨_, hstart, .sent rfl ?_ (hkv ▸ hreq), ⟨rfl, ?_, rfl, rfl,
    sent_shared 0 (Nat.zero_le _) req, frame_refl ..⟩⟩
  · simp only [World.pending, Prod.mk.injEq] at hp ⊢
    simp [World.sent, hp, hreq.op]
  · simp [World.pending, World.sent, hreq.op]

theorem OutSide.serve (h : OutSide n mh a kv x s) (hx : x.requests = m :: rest) (hop : m.op = .put)
    (hdir : mh.domain ≠ 0 ∨ x.disk.dir0 = true) :
    ∃ y, x.serve n = some y ∧ OutSide n mh a kv y s ∧ OutStep mh a x y := by
  have hfirst : (x.pending .put).1 = m :: rest.filter (·.op = .put) := by
    simp [World.pending, hx, hop]
  rcases h with ⟨hl, hp⟩ | ⟨hl, hp, hreq⟩ | ⟨hl, hp, hrsp⟩ | ⟨hl, hp, hfile⟩
  case sent =>
    rw [hp] at hfirst
    obtain ⟨hm, hrest⟩ := List.cons.inj hfirst
    subst hm
    obtain ⟨rsp, l, hserve, hrsp, hframe, -⟩ := servePut_spec hreq hdir
    have hnone : x.responses.filter (·.op = .put) = [] := congrArg Prod.snd hp
    have hanswer : x.serve n = some
        { x with requests := rest, responses := x.responses ++ [rsp], disk := l } := by
      simp only [World.serve, hx, World.answer, hop, hserve]
    refine ⟨_, hanswer, .back hl ?_ hrsp, ⟨rfl, ?_, rfl, rfl, fun _ => .inl rfl, hframe⟩⟩
    · simp [World.pending, ← hrest, hnone, hrsp.op]
    · simp [World.pending, hx, hop, hrsp.op]
  all_goals
    rw [hp] at hfirst
    cases hfirst

theorem OutSide.resume (h : OutSide n mh a kv x s) (hn : 0 < n) (hx : x.responses = m :: rest)
    (hop : m.op = .put) (hring : ({ x with responses := rest } : World β).ringFull = false)
    (hmh : x.entry a = mh) (hkv : x.keyVal a = kv) :
    ∃ y, x.resume n = some y ∧ OutSide n mh a kv y s ∧ OutStep mh a x y := by
  have htake : x.resume n = some (mcdEventResume n m { x with responses := rest }) := by
    simp only [World.resume, hx]
  refine ⟨_, htake, ?_⟩
  have hfirst : (x.pending .put).2 = m :: rest.filter (·.op = .put) := by
    simp [World.pending, hx, hop]
  rcases h with ⟨hl, hp⟩ | ⟨hl, hp, hreq⟩ | ⟨hl, hp, hrsp⟩ | ⟨hl, hp, hfile⟩
  case back =>
    rw [hp] at hfirst
    obtain ⟨hm, hrest⟩ := List.cons.inj hfirst
    subst hm
    have hnone : x.requests.filter (·.op = .put) = [] := congrArg Prod.fst hp
    rcases resumePut_spec (x := { x with responses := rest }) hrsp hn hring hmh hkv with
      ⟨-, hacc, heq⟩ | ⟨-, req, heq, hreq⟩
    · rw [heq]
      refine ⟨.done rfl ?_ (hacc ▸ hrsp.file), ⟨rfl, ?_, rfl, rfl, fun _ => .inl rfl, frame_refl ..⟩⟩
      · simp [World.pending, World.unlock, ← hrest, hnone]
      · simp [World.pending, World.unlock, hx, hop]
    · rw [heq]
      refine ⟨.sent hl ?_ hreq, ⟨rfl, ?_, rfl, rfl, sent_shared _ hreq.le req, frame_refl ..⟩⟩
      · simp [World.pending, World.sent, ← hrest, hnone, hreq.op]
      · simp [World.pending, World.sent, hx, hop, hreq.op]
  all_goals
    rw [hp] at hfirst
    cases hfirst

end

section
variable {n b : Nat} {mh : Entry} {R : β → Prop} {x : World β} {s : Bool} {m : Msg}
  {rest : List Msg}

theorem InSide.start (h : InSide n mh b R x false) (hring : x.ringFull = false)
    (hmh : x.entry b = mh) :
    ∃ y, minfPageIn n b x = some (y, true) ∧ InSide n mh b R y true ∧ InStep mh b x y := by
  obtain ⟨hl, hp⟩ := h
  have hlock : ¬ x.getLock = true := by simp [hl]
  obtain ⟨req, hin, hreq⟩ := mcdctlPageIn_spec (n := n) (x := { x with getLock := true }) hring hmh
  have hstart : minfPageIn n b x =
      some ({ x with requests := x.requests ++ [req], getLock := true }, true) := by
    simp only [minfPageIn, if_neg hlock, hin]
  refine ⟨_, hstart, .sent rfl ?_ hreq (fun o ho => absurd ho (Nat.not_lt_zero o)),
    ⟨rfl, ?_, rfl, fun _ _ => rfl, rfl, frame_refl ..⟩⟩
  · simp only [World.pending, Prod.mk.injEq] at hp ⊢
    simp [hp, hreq.op]
  · simp [World.pending, hreq.op]

theorem InSide.serve (h : InSide n mh b R x s) (hn : 0 < n) (hx : x.requests = m :: rest)
    (hop : m.op = .get) (hdir : mh.domain ≠ 0 ∨ x.disk.dir0 = true) :
    ∃ y, x.serve n = some y ∧ InSide n mh b R y s ∧ InStep mh b x y := by
  have hfirst : (x.pending .get).1 = m :: rest.filter (·.op = .get) := by
    simp [World.pending, hx, hop]
  rcases h with ⟨hl, hp⟩ | ⟨hl, hp, hreq, hgot⟩ | ⟨hl, hp, hrsp, hgot⟩ | ⟨hl, hp, hgot⟩
  case sent =>
    rw [hp] at hfirst
    obtain ⟨hm, hrest⟩ := List.cons.inj hfirst
    subst hm
    obtain ⟨rsp, l, hserve, hrsp, hframe⟩ := serveGet_spec hreq hn hdir x.sharedPage
    have hnone : x.responses.filter (·.op = .get) = [] := congrArg Prod.snd hp
    have hanswer : x.serve n = some
        { x with requests := rest, responses := x.responses ++ [rsp], disk := l } := by
      simp only [World.serve, hx, World.answer, hop, hserve]
    refine ⟨_, hanswer, .back hl ?_ hrsp hgot, ⟨rfl, ?_, rfl, fun _ _ => rfl, rfl, hframe⟩⟩
    · simp [World.pending, ← hrest, hnone, hrsp.op]
    · simp [World.pending, hx, hop, hrsp.op]
  all_goals
    rw [hp] at hfirst
    cases hfirst

/-- Bytes copied from the shared pages are as good as those are. -/
theorem received_bytes {start len : Nat} (hgot : ∀ o < start, R (x.keyVal b o))
    (hshared : ∀ i, R (x.sharedPage i)) :
    ∀ o < start + len, R ((x.received b start len).keyVal b o) := by
  intro o ho
  have hkv : (x.received b start len).keyVal b = (x.keyVal b).memcpy start x.sharedPage 0 len :=
    Function.update_self ..
  rw [hkv]
  unfold memcpy
  by_cases hin : start ≤ o ∧ o < start + len
  · rw [if_pos hin]
    exact hshared _
  · rw [if_neg hin]
    exact hgot o (by omega)

theorem InSide.resume (h : InSide n mh b R x s) (hn : 0 < n) (hx : x.responses = m :: rest)
    (hop : m.op = .get) (hring : ({ x with responses := rest } : World β).ringFull = false)
    (hmh : x.entry b = mh) (hshared : ∀ i, R (x.sharedPage i)) :
    ∃ y, x.resume n = some y ∧ InSide n mh b R y s ∧ InStep mh b x y := by
  have htake : x.resume n = some (mcdEventResume n m { x with responses := rest }) := by
    simp only [World.resume, hx]
  refine ⟨_, htake, ?_⟩
  have hfirst : (x.pending .get).2 = m :: rest.filter (·.op = .get) := by
    simp [World.pending, hx, hop]
  rcases h with ⟨hl, hp⟩ | ⟨hl, hp, hreq, hgot⟩ | @⟨m', start, hl, hp, hrsp, hgot⟩ | ⟨hl, hp, hgot⟩
  case back =>
    rw [hp] at hfirst
    obtain ⟨hm, hrest⟩ := List.cons.inj hfirst
    subst hm
    have hnone : x.requests.filter (·.op = .get) = [] := congrArg Prod.fst hp
    have hkeep (len : Nat) (c : Nat) (hc : c ≠ b) :
        (World.received b start len { x with responses := rest }).keyVal c = x.keyVal c :=
      Function.update_of_ne hc ..
    rcases resumeGet_spec (x := { x with responses := rest }) hrsp hn hring hmh with
      ⟨-, heq⟩ | ⟨-, req, hreq, heq⟩
    · rw [heq]
      refine ⟨.done rfl ?_ fun o ho => ?_, ⟨rfl, ?_, rfl, hkeep _, rfl, frame_refl ..⟩⟩
      · simp [World.pending, World.unlock, World.received, ← hrest, hnone]
      · exact received_bytes (x := { x with responses := rest }) hgot hshared o (by omega)
      · simp [World.pending, World.unlock, World.received, hx, hop]
    · rw [heq]
      refine ⟨.sent hl ?_ hreq ?_, ⟨rfl, ?_, rfl, hkeep _, rfl, frame_refl ..⟩⟩
      · simp [World.pending, World.received, ← hrest, hnone, hreq.op]
      · exact received_bytes (x := { x with responses := rest }) hgot hshared
      · simp [World.pending, World.received, hx, hop, hreq.op]
  all_goals
    rw [hp] at hfirst
    cases hfirst

end
theorem length_by_op (l : List Msg) :
    l.length = (l.filter (·.op = .put)).length + (l.filter (·.op = .get)).length := by
  induction l with
  | nil => rfl
  | cons m l ih =>
    cases hop : m.op <;> simp [hop] <;> omega

/-- A byte of the first shared pages or of the entry that is paged out. -/
def Foreign (x : World β) (a : Nat) (c : β) : Prop :=
  (∃ i, c = x.sharedPage i) ∨ ∃ o < (x.entry a).totsize, c = x.keyVal a o

/-- What holds between the steps of two transfers that started in `x`. -/
structure Safe (n a b : Nat) (x : World β) (p : Pair β) : Prop where
  entry : p.world.entry = x.entry
  keyVal : p.world.keyVal a = x.keyVal a
  dir0 : p.world.disk.dir0 = x.disk.dir0
  shared : ∀ i, Foreign x a (p.world.sharedPage i)
  out : OutSide n (x.entry a) a (x.keyVal a) p.world p.outStarted
  inn : InSide n (x.entry b) b (Foreign x a) p.world p.inStarted

section
variable {n a b : Nat} {x y : World β} {p q : Pair β} {s : Bool} {act : Act}

theorem Safe.of_out (h : Safe n a b x p) (hne : (x.entry a).hash ≠ (x.entry b).hash)
    (hout : OutSide n (x.entry a) a (x.keyVal a) y s) (hstep : OutStep (x.entry a) a p.world y) :
    Safe n a b x { p with world := y, outStarted := s } where
  entry := hstep.entry.trans h.entry
  keyVal := (congrFun hstep.keyVal a).trans h.keyVal
  dir0 := hstep.frame.dir0.trans h.dir0
  shared i := by
    rcases hstep.shared i with he | ⟨o, ho, he⟩
    · rw [he]
      exact h.shared i
    · rw [he, h.keyVal]
      exact .inr ⟨o, ho, rfl⟩
  out := hout
  inn := h.inn.of_out hstep hne.symm

theorem Safe.of_in (h : Safe n a b x p) (hne : (x.entry a).hash ≠ (x.entry b).hash)
    (hinn : InSide n (x.entry b) b (Foreign x a) y s) (hstep : InStep (x.entry b) b p.world y) :
    Safe n a b x { p with world := y, inStarted := s } where
  entry := hstep.entry.trans h.entry
  keyVal := (hstep.keyVal a fun he => hne (congrArg (fun c => (x.entry c).hash) he)).trans h.keyVal
  dir0 := hstep.frame.dir0.trans h.dir0
  shared i := by
    rw [hstep.shared]
    exact h.shared i
  out := h.out.of_in hstep hne
  inn := hinn

theorem OutSide.count {mh : Entry} {kv : Buffer β} (h : OutSide n mh a kv x s) :
    (x.requests.filter (·.op = .put)).length + (x.responses.filter (·.op = .put)).length ≤ 1 := by
  rcases h with ⟨-, hp⟩ | ⟨-, hp, -⟩ | ⟨-, hp, -⟩ | ⟨-, hp, -⟩ <;>
    obtain ⟨hreq, hrsp⟩ := Prod.mk.inj hp <;> simp [hreq, hrsp]

theorem InSide.count {mh : Entry} {R : β → Prop} (h : InSide n mh b R x s) :
    (x.requests.filter (·.op = .get)).length + (x.responses.filter (·.op = .get)).length ≤ 1 := by
  rcases h with ⟨-, hp⟩ | ⟨-, hp, -⟩ | ⟨-, hp, -⟩ | ⟨-, hp, -⟩ <;>
    obtain ⟨hreq, hrsp⟩ := Prod.mk.inj hp <;> simp [hreq, hrsp]

/-- At most one message of each direction is on the ring. -/
theorem Safe.count (h : Safe n a b x p) :
    p.world.requests.length + p.world.responses.length ≤ 2 := by
  have hout := h.out.count
  have hinn := h.inn.count
  have hreq := length_by_op p.world.requests
  have hrsp := length_by_op p.world.responses
  omega

theorem ringFull_of_count (h : x.requests.length + x.responses.length ≤ 2) :
    x.ringFull = false := by
  unfold World.ringFull ringSlots
  exact decide_eq_false (by omega)

theorem Safe.step (h : Safe n a b x p) (hn : 0 < n)
    (hne : (x.entry a).hash ≠ (x.entry b).hash)
    (hdira : (x.entry a).domain ≠ 0 ∨ x.disk.dir0 = true)
    (hdirb : (x.entry b).domain ≠ 0 ∨ x.disk.dir0 = true)
    (hstep : p.step n a b act = some q) : Safe n a b x q := by
  rw [← h.dir0] at hdira hdirb
  have hcount := h.count
  have hring := ringFull_of_count hcount
  cases act with
  | pageOut =>
    have hout := h.out
    cases hs : p.outStarted with
    | true => simp [Pair.step, hs] at hstep
    | false =>
      rw [hs] at hout
      obtain ⟨y, hy, hside, hkeep⟩ := hout.start hn hring (congrFun h.entry a) h.keyVal
      simp only [Pair.step, hs, hy] at hstep
      cases hstep
      exact h.of_out hne hside hkeep
  | pageIn =>
    have hinn := h.inn
    cases hs : p.inStarted with
    | true => simp [Pair.step, hs] at hstep
    | false =>
      rw [hs] at hinn
      obtain ⟨y, hy, hside, hkeep⟩ := hinn.start hring (congrFun h.entry b)
      simp only [Pair.step, hs, hy] at hstep
      cases hstep
      exact h.of_in hne hside hkeep
  | serve =>
    obtain ⟨y, hy, rfl⟩ := Option.map_eq_some_iff.mp hstep
    cases hreq : p.world.requests with
    | nil => simp [World.serve, hreq] at hy
    | cons m rest =>
      cases hop : m.op with
      | put =>
        obtain ⟨z, hz, hside, hkeep⟩ := h.out.serve hreq hop hdira
        cases hy.symm.trans hz
        exact h.of_out hne hside hkeep
      | get =>
        obtain ⟨z, hz, hside, hkeep⟩ := h.inn.serve hn hreq hop hdirb
        cases hy.symm.trans hz
        exact h.of_in hne hside hkeep
  | resume =>
    obtain ⟨y, hy, rfl⟩ := Option.map_eq_some_iff.mp hstep
    cases hrsp : p.world.responses with
    | nil => simp [World.resume, hrsp] at hy
    | cons m rest =>
      have hring' : ({ p.world with responses := rest } : World β).ringFull = false := by
        rw [hrsp, List.length_cons] at hcount
        exact ringFull_of_count (by simp only; omega)
      cases hop : m.op with
      | put =>
        obtain ⟨z, hz, hside, hkeep⟩ :=
          h.out.resume hn hrsp hop hring' (congrFun h.entry a) h.keyVal
        cases hy.symm.trans hz
        exact h.of_out hne hside hkeep
      | get =>
        obtain ⟨z, hz, hside, hkeep⟩ :=
          h.inn.resume hn hrsp hop hring' (congrFun h.entry b) h.shared
        cases hy.symm.trans hz
        exact h.of_in hne hside hkeep

theorem safe_start (hidle : x.Idle) : Safe n a b x (Pair.start x) where
  entry := rfl
  keyVal := rfl
  dir0 := rfl
  shared i := .inl ⟨i, rfl⟩
  out := .ready hidle.putLock (by simp [World.pending, Pair.start, hidle.requests, hidle.responses])
  inn := .ready hidle.getLock (by simp [World.pending, Pair.start, hidle.requests, hidle.responses])

theorem OutSide.file_of_nil {mh : Entry} {kv : Buffer β} (h : OutSide n mh a kv x true)
    (hreq : x.requests = []) (hrsp : x.responses = []) :
    x.disk.files mh.domain mh.hash = some (kv.bytes 0 mh.totsize) := by
  have hnil : x.pending .put = ([], []) := by simp [World.pending, hreq, hrsp]
  rcases h with - | ⟨-, hp, -⟩ | ⟨-, hp, -⟩ | ⟨-, -, hfile⟩
  · simp [hnil] at hp
  · simp [hnil] at hp
  · exact hfile

theorem InSide.got_of_nil {mh : Entry} {R : β → Prop} (h : InSide n mh b R x true)
    (hreq : x.requests = []) (hrsp : x.responses = []) : ∀ o < mh.totsize, R (x.keyVal b o) := by
  have hnil : x.pending .get = ([], []) := by simp [World.pending, hreq, hrsp]
  rcases h with - | ⟨-, hp, -, -⟩ | ⟨-, hp, -, -⟩ | ⟨-, -, hgot⟩
  · simp [hnil] at hp
  · simp [hnil] at hp
  · exact hgot

/-- Every interleaving of a page-out and a page-in of different hashes writes the file of the
page-out right. All the page-in receives are bytes of the first shared pages and of the entry that
is paged out, so, where these can be told from the bytes of its own file, it receives only bytes of
its own file exactly when it receives nothing. -/
theorem interleaved_transfers {acts : List Act} (hn : 1 ≤ n) (hidle : x.Idle)
    (hne : (x.entry a).hash ≠ (x.entry b).hash)
    (hdira : (x.entry a).domain ≠ 0 ∨ x.disk.dir0 = true)
    (hdirb : (x.entry b).domain ≠ 0 ∨ x.disk.dir0 = true)
    (hsizea : (x.entry a).size < 2 ^ 32) (hsizeb : (x.entry b).size < 2 ^ 32)
    (hrun : (Pair.start x).run n a b acts = some q) (hq : q.Complete) :
    q.world.disk.files (x.entry a).domain (x.entry a).hash =
        some ((x.keyVal a).bytes 0 (x.entry a).size) ∧
      (∀ o < (x.entry b).size, Foreign x a (q.world.keyVal b o)) ∧
      ∀ own, x.disk.files (x.entry b).domain (x.entry b).hash = some own →
        (∀ c, Foreign x a c → c ∉ own) →
          ((∀ o < (x.entry b).size, q.world.keyVal b o ∈ own) ↔ (x.entry b).size = 0) := by
  have hsafe : Safe n a b x q := (trace_of_run hrun).invariant (I := Safe n a b x)
    (fun h hstep => h.step hn hne hdira hdirb hstep) (safe_start hidle)
  have hout := hsafe.out
  have hinn := hsafe.inn
  rw [hq.outStarted] at hout
  rw [hq.inStarted] at hinn
  have hfile := hout.file_of_nil hq.requests hq.responses
  have hgot := hinn.got_of_nil hq.requests hq.responses
  rw [totsize_eq hsizea] at hfile
  rw [totsize_eq hsizeb] at hgot
  refine ⟨hfile, hgot, fun own _ hown => ⟨fun h => ?_, fun h0 o ho => ?_⟩⟩
  · by_contra hpos
    have ho : 0 < (x.entry b).size := Nat.pos_of_ne_zero hpos
    exact hown _ (hgot 0 ho) (h 0 ho)
  · rw [h0] at ho
    exact absurd ho (Nat.not_lt_zero o)

end

/-- The entry at 0 holds 1, 2; the entry at 1 is to be filled from a file of 3, 4. -/
def World.two : World UInt8 where
  entry := fun addr => if addr = 0 then ⟨1, 7, 1, 1⟩ else ⟨1, 8, 1, 1⟩
  keyVal := fun addr o => if addr = 0 then (if o = 0 then 1 else 2) else 0
  sharedPage := fun _ => 0
  requests := []
  responses := []
  putLock := false
  getLock := false
  disk :=
    { files := fun d h => if d = 1 ∧ h = 8 then some [3, 4] else none
      fds := fun _ => none, nextFd := 3, dir0 := false }

/-- The daemon has answered the page-in when the page-out fills the shared pages. -/
def overtaken : List Act := [.pageIn, .serve, .pageOut, .resume, .serve, .resume]

/-- What the run of `overtaken` leaves: both transfers are over, with the bytes of the entry at 1. -/
theorem run_overtaken :
    ((Pair.start World.two).run 1 0 1 overtaken).map
        (fun q => (q.outStarted, q.inStarted, q.world.requests, q.world.responses,
          (q.world.keyVal 1).bytes 0 2)) = some (true, true, [], [], [1, 2]) := by
  decide +kernel

theorem not_foreign_two {c : UInt8} (h : Foreign World.two 0 c) : c ∉ [3, 4] := by
  rcases h with ⟨i, rfl⟩ | ⟨o, -, rfl⟩
  · show (0 : UInt8) ∉ [3, 4]
    decide
  · show (if o = 0 then (1 : UInt8) else 2) ∉ [3, 4]
    by_cases h0 : o = 0
    · rw [if_pos h0]
      decide
    · rw [if_neg h0]
      decide

theorem interleaved_transfers_overtaken :
    ∃ q, (Pair.start World.two).run 1 0 1 overtaken = some q ∧
      q.world.disk.files 1 7 = some [1, 2] ∧ ¬ ∀ o < 2, q.world.keyVal 1 o ∈ [3, 4] := by
  obtain ⟨q, hq, heq⟩ := Option.map_eq_some_iff.mp run_overtaken
  simp only [Prod.mk.injEq] at heq
  obtain ⟨hfile, -, hown⟩ := interleaved_transfers (x := World.two) (n := 1) (Nat.le_refl 1)
    ⟨rfl, rfl, rfl, rfl⟩ (by decide) (by decide) (by decide) (by decide) (by decide) hq
    ⟨heq.1, heq.2.1, heq.2.2.1, heq.2.2.2.1⟩
  refine ⟨q, hq, hfile, fun h => ?_⟩
  have hzero := (hown [3, 4] rfl fun c hc => not_foreign_two hc).mp h
  exact absurd hzero (by decide)

/-- The daemon has answered the page-in with the file of 3, 4 when the page-out copies 1, 2 into the
shared pages: 1, 2 is what the page-in receives. -/
theorem page_in_receives_page_out :
    ((Pair.start World.two).run 1 0 1 overtaken).map (fun q => (q.world.keyVal 1).bytes 0 2) =
        some ((World.two.keyVal 0).bytes 0 2) ∧
      (World.two.keyVal 0).bytes 0 2 = [1, 2] ∧ World.two.disk.files 1 8 = some [3, 4] := by
  decide +kernel

end UniCache.Transfer
