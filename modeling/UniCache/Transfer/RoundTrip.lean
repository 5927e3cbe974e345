import UniCache.Transfer.Exchange

/-! A page-out and then a page-in, each run to its end with nothing else in flight. -/
namespace UniCache.Transfer
open Base Mcd Buffer

variable {β : Type}

/-- The daemon and Xen take turns until no request is left; `none` when the fuel runs out. -/
def drive (n : Nat) : Nat → World β → Option (World β)
  | 0, _ => none
  | fuel + 1, x =>
    match x.serve n with
    | none => some x
    | some y => (y.resume n).bind (drive n fuel)

/-- A whole `PUT` exchange of the entry at `addr`. -/
def putExchange (n fuel addr : Nat) (x : World β) : Option (World β) :=
  match minfPageOut n addr x with
  | some (y, true) => drive n fuel y
  | _ => none

/-- A whole `GET` exchange into the entry at `addr`. -/
def getExchange (n fuel addr : Nat) (x : World β) : Option (World β) :=
  match minfPageIn n addr x with
  | some (y, true) => drive n fuel y
  | _ => none

/-- The entry at `a` is paged out, and its file paged in at `b`. -/
def roundTrip (n fuel a b : Nat) (x : World β) : Option (World β) :=
  (putExchange n fuel a x).bind (getExchange n fuel b)

/-- No message is on the ring and no transfer holds a lock. -/
structure World.Idle (x : World β) : Prop where
  requests : x.requests = []
  responses : x.responses = []
  putLock : x.putLock = false
  getLock : x.getLock = false

/-- Each of the first `s` cells of the shared pages holds a byte of `kv` that belongs there. -/
def Area (n : Nat) (kv : Buffer β) (shared : Buffer β) (s : Nat) : Prop :=
  ∀ p < pageBytes * n, p < s → ∃ o < s, o % (pageBytes * n) = p ∧ shared p = kv o

theorem Area.memcpy {n start c : Nat} {kv shared : Buffer β} (h : Area n kv shared start)
    (hdvd : pageBytes * n ∣ start) :
    Area n kv (shared.memcpy 0 kv start c) (start + c) := by
  intro p hp hps
  unfold Buffer.memcpy
  by_cases hlt : p < c
  · refine ⟨start + p, by omega, ?_, ?_⟩
    · obtain ⟨k, rfl⟩ := hdvd
      rw [Nat.mul_add_mod, Nat.mod_eq_of_lt hp]
    · rw [if_pos (by omega), Nat.sub_zero]
  · -- the part is the last one, and earlier parts filled all cells
    have hpos : 0 < start := by omega
    have hge := Nat.le_of_dvd hpos hdvd
    obtain ⟨o, ho, hmod, heq⟩ := h p hp (by omega)
    exact ⟨o, by omega, hmod, by rw [if_neg (by omega), heq]⟩

/-- Entries, their bytes, the other lock and the directory are as before. -/
structure PutKept (x y : World β) : Prop where
  entry : y.entry = x.entry
  keyVal : y.keyVal = x.keyVal
  getLock : y.getLock = x.getLock
  dir0 : y.disk.dir0 = x.disk.dir0

theorem PutKept.trans {x y z : World β} (h₁ : PutKept x y) (h₂ : PutKept y z) : PutKept x z where
  entry := h₂.entry.trans h₁.entry
  keyVal := h₂.keyVal.trans h₁.keyVal
  getLock := h₂.getLock.trans h₁.getLock
  dir0 := h₂.dir0.trans h₁.dir0

/-- A page-out whose request is the only message. -/
structure Sending (n : Nat) (mh : Entry) (addr : Nat) (x : World β) (m : Msg) (start : Nat) :
    Prop where
  requests : x.requests = [m]
  responses : x.responses = []
  req : PutReq n mh addr (x.keyVal addr) x.sharedPage x.disk m start
  area : Area n (x.keyVal addr) x.sharedPage m.accsize
  entry : x.entry addr = mh
  dir : mh.domain ≠ 0 ∨ x.disk.dir0 = true

/-- The page-out is over. -/
structure PutDone (n : Nat) (mh : Entry) (addr : Nat) (x z : World β) : Prop
    extends PutKept x z where
  requests : z.requests = []
  responses : z.responses = []
  putLock : z.putLock = false
  file : z.disk.files mh.domain mh.hash = some ((x.keyVal addr).bytes 0 mh.totsize)
  area : Area n (x.keyVal addr) z.sharedPage mh.totsize

section
variable {n addr start : Nat} {mh : Entry} {x : World β} {m : Msg}

theorem PutKept.done {y z : World β} (h : PutKept x y) (hd : PutDone n mh addr y z) :
    PutDone n mh addr x z :=
  { hd with
    toPutKept := h.trans hd.toPutKept
    file := h.keyVal ▸ hd.file
    area := h.keyVal ▸ hd.area }

theorem ringFull_of_nil (hreq : x.requests = []) (hrsp : x.responses = []) :
    x.ringFull = false := by
  unfold World.ringFull
  rw [hreq, hrsp]
  rfl

/-- One turn of a page-out ends it or sends the next part. -/
theorem Sending.round (h : Sending n mh addr x m start) (hn : 0 < n) :
    ∃ y z, x.serve n = some y ∧ y.resume n = some z ∧
      (mh.totsize - start ≤ pageBytes * n ∧ PutDone n mh addr x z ∨
        ¬ mh.totsize - start ≤ pageBytes * n ∧
          PutKept x z ∧ ∃ m', Sending n mh addr z m' (start + pageBytes * n)) := by
  obtain ⟨rsp, l, hserve, hrsp, hframe, hacc, hfinal⟩ := servePut_spec h.req h.dir
  let y : World β := { x with requests := [], responses := [], disk := l }
  have hput : x.serve n = some { y with responses := [rsp] } := by
    simp only [World.serve, h.requests, World.answer, h.req.op, hserve, h.responses]
    rfl
  refine ⟨_, mcdEventResume n rsp y, hput, rfl, ?_⟩
  have harea : Area n (x.keyVal addr) x.sharedPage rsp.accsize := hacc ▸ h.area
  have hring : y.ringFull = false := ringFull_of_nil rfl rfl
  rcases resumePut_spec (x := y) hrsp hn hring h.entry rfl with
    ⟨hfin, htot, heq⟩ | ⟨hfin, req, heq, hreq⟩
  · left
    rw [heq]
    rw [htot] at harea
    rw [hfinal, h.req.final] at hfin
    refine ⟨of_decide_eq_true hfin, ⟨rfl, rfl, rfl, hframe.dir0⟩, rfl, rfl, rfl, ?_, harea⟩
    rw [← htot]
    exact hrsp.file
  · right
    rw [hfinal, h.req.final] at hfin
    have hmore := of_decide_eq_false hfin
    have hstart : rsp.accsize = start + pageBytes * n := by
      rw [hacc, h.req.acc, part_of_not_le hmore]
    rw [heq, ← hstart]
    refine ⟨hmore, ⟨rfl, rfl, rfl, hframe.dir0⟩, req, rfl, rfl, hreq, ?_, h.entry, ?_⟩
    · rw [hreq.acc]
      exact harea.memcpy hreq.dvd
    · exact h.dir.imp_right hframe.dir0.trans

theorem drive_of_nil {fuel : Nat} (h : x.requests = []) : drive n (fuel + 1) x = some x := by
  simp only [drive, World.serve, h]

theorem drive_turn {fuel : Nat} {y z : World β} (hy : x.serve n = some y)
    (hz : y.resume n = some z) : drive n (fuel + 1) x = drive n fuel z := by
  simp only [drive, hy, hz, Option.bind_some]

/-- An exchange that ends or moves a part of `size` bytes at each turn comes to its end. -/
theorem drive_ends (size : Nat) {P : Nat → World β → Prop} {Q : World β → Prop}
    (hturn : ∀ left y, P left y → ∃ u z, y.serve n = some u ∧ u.resume n = some z ∧
      (z.requests = [] ∧ Q z ∨ size < left ∧ P (left - size) z))
    (r : Nat) {left : Nat} (h : P left x) (hleft : left ≤ size * (r + 1)) {fuel : Nat}
    (hfuel : r + 2 ≤ fuel) : ∃ z, drive n fuel x = some z ∧ Q z := by
  -- on the number of further turns that may be needed
  induction r generalizing x left fuel with
  | zero =>
    obtain ⟨fuel, rfl⟩ := Nat.exists_eq_add_of_le' hfuel
    obtain ⟨u, z, hu, hz, ⟨hnil, hq⟩ | ⟨hlt, -⟩⟩ := hturn left x h
    · exact ⟨z, (drive_turn hu hz).trans (drive_of_nil hnil), hq⟩
    · omega
  | succ r ih =>
    obtain ⟨fuel, rfl⟩ := Nat.exists_eq_add_of_le' hfuel
    obtain ⟨u, z, hu, hz, ⟨hnil, hq⟩ | ⟨-, hp⟩⟩ := hturn left x h
    · exact ⟨z, (drive_turn hu hz).trans (drive_of_nil hnil), hq⟩
    · have hrest : left - size ≤ size * (r + 1) := by
        rw [Nat.mul_succ] at hleft
        omega
      have hf : r + 2 ≤ fuel + (r + 1) + 1 := by omega
      obtain ⟨w, hw, hq⟩ := ih hp hrest hf
      exact ⟨w, (drive_turn hu hz).trans hw, hq⟩

/-- A page-out comes to its end. -/
theorem drive_put (hn : 0 < n) (h : Sending n mh addr x m 0) {fuel : Nat}
    (hfuel : mh.totsize / (pageBytes * n) + 2 ≤ fuel) :
    ∃ z, drive n fuel x = some z ∧ PutDone n mh addr x z := by
  have hsize : 0 < pageBytes * n := Nat.mul_pos (by decide) hn
  have hstart : PutKept x x ∧ ∃ m s, Sending n mh addr x m s ∧ mh.totsize = mh.totsize - s :=
    ⟨⟨rfl, rfl, rfl, rfl⟩, m, 0, h, rfl⟩
  refine drive_ends (pageBytes * n)
    (P := fun left y => PutKept x y ∧ ∃ m s, Sending n mh addr y m s ∧ left = mh.totsize - s)
    ?_ _ hstart (Nat.le_of_lt (Nat.lt_mul_div_succ _ hsize)) hfuel
  rintro left y ⟨hkept, m, s, hs, rfl⟩
  obtain ⟨u, z, hu, hz, ⟨-, hdone⟩ | ⟨hmore, hk, m', hs'⟩⟩ := hs.round hn
  · exact ⟨u, z, hu, hz, .inl ⟨hdone.requests, hkept.done hdone⟩⟩
  · exact ⟨u, z, hu, hz, .inr ⟨by omega, hkept.trans hk, m', _, hs', by omega⟩⟩

end

/-- The first `s` bytes of an entry are the cells of the shared pages, over and over. -/
def Taken (n : Nat) (kv shared : Buffer β) (s : Nat) : Prop :=
  ∀ o < s, kv o = shared (o % (pageBytes * n))

theorem Taken.memcpy {n start len : Nat} {kv shared : Buffer β} (h : Taken n kv shared start)
    (hdvd : pageBytes * n ∣ start) (hlen : len ≤ pageBytes * n) :
    Taken n (kv.memcpy start shared 0 len) shared (start + len) := by
  intro o ho
  unfold Buffer.memcpy
  by_cases hlt : o < start
  · rw [if_neg (by omega), h o hlt]
  · rw [if_pos (by omega), Nat.zero_add]
    obtain ⟨q, rfl⟩ := hdvd
    have hmod : o % (pageBytes * n) = o - pageBytes * n * q := by
      rw [← Nat.sub_mul_mod (Nat.le_of_not_lt hlt), Nat.mod_eq_of_lt (by omega)]
    rw [hmod]

/-- Entries, the shared pages, the other lock and the directory are as before. -/
structure GetKept (x y : World β) : Prop where
  entry : y.entry = x.entry
  sharedPage : y.sharedPage = x.sharedPage
  putLock : y.putLock = x.putLock
  dir0 : y.disk.dir0 = x.disk.dir0

theorem GetKept.trans {x y z : World β} (h₁ : GetKept x y) (h₂ : GetKept y z) : GetKept x z where
  entry := h₂.entry.trans h₁.entry
  sharedPage := h₂.sharedPage.trans h₁.sharedPage
  putLock := h₂.putLock.trans h₁.putLock
  dir0 := h₂.dir0.trans h₁.dir0

/-- A page-in whose request is the only message. -/
structure Asking (n : Nat) (mh : Entry) (addr : Nat) (x : World β) (m : Msg) (start : Nat) :
    Prop where
  requests : x.requests = [m]
  responses : x.responses = []
  req : GetReq n mh addr x.disk m start
  taken : Taken n (x.keyVal addr) x.sharedPage start
  entry : x.entry addr = mh
  dir : mh.domain ≠ 0 ∨ x.disk.dir0 = true

/-- The page-in is over. -/
structure GetDone (n : Nat) (mh : Entry) (addr : Nat) (x z : World β) : Prop
    extends GetKept x z where
  requests : z.requests = []
  responses : z.responses = []
  getLock : z.getLock = false
  taken : Taken n (z.keyVal addr) x.sharedPage mh.totsize

section
variable {n addr start : Nat} {mh : Entry} {x : World β} {m : Msg}

theorem GetKept.done {y z : World β} (h : GetKept x y) (hd : GetDone n mh addr y z) :
    GetDone n mh addr x z :=
  { hd with
    toGetKept := h.trans hd.toGetKept
    taken := h.sharedPage ▸ hd.taken }

/-- One turn of a page-in ends it or asks for the next part. -/
theorem Asking.round (h : Asking n mh addr x m start) (hn : 0 < n) :
    ∃ y z, x.serve n = some y ∧ y.resume n = some z ∧
      (y.requests = [] ∧ ∃ rsp, y.responses = [rsp] ∧ GetRsp n mh addr y.disk rsp start) ∧
      (mh.totsize - start ≤ pageBytes * n ∧ GetDone n mh addr x z ∨
        ¬ mh.totsize - start ≤ pageBytes * n ∧
          GetKept x z ∧ ∃ m', Asking n mh addr z m' (start + pageBytes * n)) := by
  obtain ⟨rsp, l, hserve, hrsp, hframe⟩ := serveGet_spec h.req hn h.dir x.sharedPage
  let y : World β := { x with requests := [], responses := [], disk := l }
  have hget : x.serve n = some { y with responses := [rsp] } := by
    simp only [World.serve, h.requests, World.answer, h.req.op, hserve, h.responses]
    rfl
  refine ⟨_, mcdEventResume n rsp y, hget, rfl, ⟨rfl, rsp, rfl, hrsp⟩, ?_⟩
  have hring : y.ringFull = false := ringFull_of_nil rfl rfl
  have htaken (len : Nat) (hlen : len ≤ pageBytes * n) :
      Taken n ((y.received addr start len).keyVal addr) x.sharedPage (start + len) := by
    have hkv : (y.received addr start len).keyVal addr =
        (x.keyVal addr).memcpy start x.sharedPage 0 len := Function.update_self ..
    rw [hkv]
    exact h.taken.memcpy hrsp.dvd hlen
  rcases resumeGet_spec (x := y) hrsp hn hring h.entry with ⟨hfin, heq⟩ | ⟨hmore, req, hreq, heq⟩
  · left
    rw [heq]
    refine ⟨hfin, ⟨rfl, rfl, rfl, hframe.dir0⟩, rfl, rfl, rfl, fun o ho => ?_⟩
    exact htaken _ hfin o (by omega)
  · right
    rw [heq]
    exact ⟨hmore, ⟨rfl, rfl, rfl, hframe.dir0⟩, req, rfl, rfl, hreq, htaken _ (Nat.le_refl _),
      h.entry, h.dir.imp_right hframe.dir0.trans⟩

/-- A page-in comes to its end. -/
theorem drive_get (hn : 0 < n) (h : Asking n mh addr x m 0) {fuel : Nat}
    (hfuel : mh.totsize / (pageBytes * n) + 2 ≤ fuel) :
    ∃ z, drive n fuel x = some z ∧ GetDone n mh addr x z := by
  have hsize : 0 < pageBytes * n := Nat.mul_pos (by decide) hn
  have hstart : GetKept x x ∧ ∃ m s, Asking n mh addr x m s ∧ mh.totsize = mh.totsize - s :=
    ⟨⟨rfl, rfl, rfl, rfl⟩, m, 0, h, rfl⟩
  refine drive_ends (pageBytes * n)
    (P := fun left y => GetKept x y ∧ ∃ m s, Asking n mh addr y m s ∧ left = mh.totsize - s)
    ?_ _ hstart (Nat.le_of_lt (Nat.lt_mul_div_succ _ hsize)) hfuel
  rintro left y ⟨hkept, m, s, hs, rfl⟩
  obtain ⟨u, z, hu, hz, -, ⟨-, hdone⟩ | ⟨hmore, hk, m', hs'⟩⟩ := hs.round hn
  · exact ⟨u, z, hu, hz, .inl ⟨hdone.requests, hkept.done hdone⟩⟩
  · exact ⟨u, z, hu, hz, .inr ⟨by omega, hkept.trans hk, m', _, hs', by omega⟩⟩

/-- A page-out that starts in an idle world. -/
theorem minfPageOut_spec (hn : 0 < n) (hidle : x.Idle)
    (hdir : (x.entry addr).domain ≠ 0 ∨ x.disk.dir0 = true) :
    ∃ y req, minfPageOut n addr x = some (y, true) ∧ PutKept x y ∧
      Sending n (x.entry addr) addr y req 0 ∧ req.flags.new = true := by
  let y : World β := { x with putLock := true }
  have hring : y.ringFull = false := ringFull_of_nil hidle.requests hidle.responses
  have hzero : 0 = ((none : Option Msg).map (·.accsize)).getD 0 := rfl
  obtain ⟨req, hout, hreq, hnew⟩ := mcdctlPageOut_spec (x := y) hn hring rfl hzero
    (Nat.zero_le _) (Nat.dvd_zero _) (.inl rfl)
  have hlock : ¬ x.putLock = true := by simp [hidle.putLock]
  refine ⟨y.sent n addr 0 (x.entry addr) req, req, ?_, ⟨rfl, rfl, rfl, rfl⟩, ?_, hnew⟩
  · simp only [minfPageOut, if_neg hlock]
    rw [hout]
  · refine ⟨?_, hidle.responses, hreq, ?_, rfl, hdir⟩
    · show x.requests ++ [req] = [req]
      rw [hidle.requests, List.nil_append]
    · have hnone : Area n (y.keyVal addr) y.sharedPage 0 := fun p _ hp => absurd hp (Nat.not_lt_zero p)
      rw [hreq.acc]
      exact hnone.memcpy (Nat.dvd_zero _)

theorem putExchange_spec (hn : 0 < n) (hidle : x.Idle)
    (hdir : (x.entry addr).domain ≠ 0 ∨ x.disk.dir0 = true) {fuel : Nat}
    (hfuel : (x.entry addr).totsize / (pageBytes * n) + 2 ≤ fuel) :
    ∃ z, putExchange n fuel addr x = some z ∧ PutDone n (x.entry addr) addr x z := by
  obtain ⟨y, req, hout, hkept, hstart, -⟩ := minfPageOut_spec hn hidle hdir
  obtain ⟨z, hz, hdone⟩ := drive_put hn hstart hfuel
  refine ⟨z, ?_, hkept.done hdone⟩
  rw [putExchange, hout]
  exact hz

/-- A page-in that starts in an idle world. -/
theorem minfPageIn_spec (hidle : x.Idle) (hdir : (x.entry addr).domain ≠ 0 ∨ x.disk.dir0 = true) :
    ∃ y req, minfPageIn n addr x = some (y, true) ∧ GetKept x y ∧
      Asking n (x.entry addr) addr y req 0 := by
  let y : World β := { x with getLock := true }
  have hring : y.ringFull = false := ringFull_of_nil hidle.requests hidle.responses
  obtain ⟨req, hin, hreq⟩ := mcdctlPageIn_spec (n := n) (x := y) hring rfl
  have hlock : ¬ x.getLock = true := by simp [hidle.getLock]
  refine ⟨{ y with requests := y.requests ++ [req] }, req, ?_, ⟨rfl, rfl, rfl, rfl⟩, ?_⟩
  · simp only [minfPageIn, if_neg hlock]
    rw [hin]
  · refine ⟨?_, hidle.responses, hreq, fun o ho => absurd ho (Nat.not_lt_zero o), rfl, hdir⟩
    show x.requests ++ [req] = [req]
    rw [hidle.requests, List.nil_append]

theorem getExchange_spec (hn : 0 < n) (hidle : x.Idle)
    (hdir : (x.entry addr).domain ≠ 0 ∨ x.disk.dir0 = true) {fuel : Nat}
    (hfuel : (x.entry addr).totsize / (pageBytes * n) + 2 ≤ fuel) :
    ∃ z, getExchange n fuel addr x = some z ∧ GetDone n (x.entry addr) addr x z := by
  obtain ⟨y, req, hin, hkept, hstart⟩ := minfPageIn_spec (n := n) hidle hdir
  obtain ⟨z, hz, hdone⟩ := drive_get hn hstart hfuel
  refine ⟨z, ?_, hkept.done hdone⟩
  rw [getExchange, hin]
  exact hz

end

/-- The first `tot` bytes repeat with period `size`. -/
def Periodic (size tot : Nat) (kv : Buffer β) : Prop :=
  ∀ o, o + size < tot → kv o = kv (o + size)

theorem Periodic.eq_mod {size tot : Nat} {kv : Buffer β} (h : Periodic size tot kv) {o : Nat}
    (ho : o < tot) : kv o = kv (o % size) := by
  induction o using Nat.strongRecOn with
  | _ o ih =>
    by_cases hlt : o < size
    · rw [Nat.mod_eq_of_lt hlt]
    · by_cases h0 : size = 0
      · rw [h0, Nat.mod_zero]
      · have hback : o - size + size = o := Nat.sub_add_cancel (Nat.le_of_not_lt hlt)
        have hstep := h (o - size) (by omega)
        rw [hback] at hstep
        rw [← hstep, ih (o - size) (by omega) (by omega), Nat.mod_eq_sub_mod (Nat.le_of_not_lt hlt)]

/-- What a page-in takes out of the shared pages is what a page-out left there. -/
theorem taken_eq_iff {n tot : Nat} (hn : 0 < n) {kv kv' shared : Buffer β}
    (harea : Area n kv shared tot) (htaken : Taken n kv' shared tot) :
    kv'.bytes 0 tot = kv.bytes 0 tot ↔ Periodic (pageBytes * n) tot kv := by
  have hsize : 0 < pageBytes * n := Nat.mul_pos (by decide) hn
  constructor
  · intro heq o ho
    have hcell (o : Nat) (ho : o < tot) : kv o = shared (o % (pageBytes * n)) := by
      have h := bytes_inj heq ho
      rw [Nat.zero_add] at h
      rw [← h, htaken o ho]
    rw [hcell o (by omega), hcell _ ho, Nat.add_mod_right]
  · intro hper
    refine bytes_congr fun o ho => ?_
    rw [Nat.zero_add, htaken o ho]
    obtain ⟨o', ho', hmod, hcell⟩ := harea _ (Nat.mod_lt o hsize) (Nat.lt_of_le_of_lt (Nat.mod_le ..) ho)
    rw [hcell, hper.eq_mod ho', hper.eq_mod ho, hmod]

/-- `key_size + val_size`, where the code's sum of 32-bit words may wrap. -/
def Entry.size (mh : Entry) : Nat := mh.keySize.toNat + mh.valSize.toNat

theorem totsize_eq {mh : Entry} (h : mh.size < 2 ^ 32) : mh.totsize = mh.size := by
  unfold Entry.totsize Entry.size at *
  rw [UInt32.toNat_add, Nat.mod_eq_of_lt h]

/-- A page-out and a page-in into an entry of the same sizes both end, and give the entry back
exactly when its bytes repeat with the size of the shared pages: the file is truncated when it is
opened for reading, so the page-in is left with what the page-out left in the shared pages. -/
theorem roundTrip_eq_iff_periodic {n a b : Nat} {x : World β} (hn : 1 ≤ n) (hidle : x.Idle)
    (hdom : (x.entry a).domain ≠ 0) (hsize : (x.entry a).size < 2 ^ 32)
    (hfresh : x.entry b = x.entry a) {fuel : Nat}
    (hfuel : (x.entry a).size / (pageBytes * n) + 2 ≤ fuel) :
    ∃ z, roundTrip n fuel a b x = some z ∧ z.Idle ∧
      ((z.keyVal b).bytes 0 (x.entry a).size = (x.keyVal a).bytes 0 (x.entry a).size ↔
        Periodic (pageBytes * n) (x.entry a).size (x.keyVal a)) := by
  have htot := totsize_eq hsize
  rw [← htot] at hfuel ⊢
  obtain ⟨y, hput, hy⟩ := putExchange_spec hn hidle (.inl hdom) hfuel
  have hentry : y.entry b = x.entry a := by rw [hy.entry, hfresh]
  have hidle' : y.Idle := ⟨hy.requests, hy.responses, hy.putLock, hy.getLock.trans hidle.getLock⟩
  rw [← hentry] at hdom hfuel
  obtain ⟨z, hget, hz⟩ := getExchange_spec hn hidle' (.inl hdom) hfuel
  rw [hentry] at hz
  refine ⟨z, ?_, ⟨hz.requests, hz.responses, hz.putLock.trans hy.putLock, hz.getLock⟩, ?_⟩
  · rw [roundTrip, hput, Option.bind_some, hget]
  · exact taken_eq_iff hn hy.area hz.taken

/-- An idle world of entries that share one header. -/
def World.quiet (mh : Entry) (kv : Nat → Buffer UInt8) : World UInt8 where
  entry := fun _ => mh
  keyVal := kv
  sharedPage := fun _ => 0
  requests := []
  responses := []
  putLock := false
  getLock := false
  disk := { files := fun _ _ => none, fds := fun _ => none, nextFd := 3, dir0 := false }

/-- The entry at address 0 starts with a byte 1; all other bytes are 0. -/
def oneByte : Nat → Buffer UInt8 := fun addr o => if addr = 0 ∧ o = 0 then 1 else 0

/-- An entry of two bytes comes back. -/
theorem roundTrip_small :
    ∃ z, roundTrip 1 2 0 1 (World.quiet ⟨1, 7, 1, 1⟩ oneByte) = some z ∧
      (z.keyVal 1).bytes 0 2 = [1, 0] := by
  obtain ⟨z, hz, -, heq⟩ := roundTrip_eq_iff_periodic (n := 1) (a := 0) (b := 1)
    (x := World.quiet ⟨1, 7, 1, 1⟩ oneByte) (Nat.le_refl 1) ⟨rfl, rfl, rfl, rfl⟩ (by decide)
    (by decide) rfl (Nat.le_refl 2)
  refine ⟨z, hz, heq.mpr fun o ho => ?_⟩
  exact absurd ho (Nat.not_lt.mpr (Nat.le_trans (by decide : 2 ≤ pageBytes * 1) (Nat.le_add_left ..)))

/-- A key of one byte and a value of a page are one byte more than the shared page: the last byte of
the value comes back in place of the key. -/
theorem roundTrip_page_and_byte :
    (roundTrip 1 3 0 1 (World.quiet ⟨1, 7, 1, 4096⟩ oneByte)).map (fun z => z.keyVal 1 0) = some 0 ∧
      (World.quiet ⟨1, 7, 1, 4096⟩ oneByte).keyVal 0 0 = 1 := by
  decide +kernel

end UniCache.Transfer
