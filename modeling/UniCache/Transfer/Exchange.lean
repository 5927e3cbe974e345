import UniCache.Transfer.Chunks

/-! The messages in flight of a page-out and of a page-in, and what each step makes of them. -/
namespace UniCache.Transfer
open Base Mcd Buffer

variable {β : Type}

/-- From `k` to `l` at most the file `(d, h)`, descriptors of it, and fresh descriptors changed. -/
structure Frame (d : Domid) (h : UInt32) (k l : Disk β) : Prop where
  dir0 : l.dir0 = k.dir0
  nextFd : k.nextFd ≤ l.nextFd
  files : ∀ d' h', ¬ (d' = d ∧ h' = h) → l.files d' h' = k.files d' h'
  fds : ∀ fd, fd < k.nextFd → (∀ off, k.fds fd ≠ some ((d, h), off)) → l.fds fd = k.fds fd

theorem frame_refl (d : Domid) (h : UInt32) (k : Disk β) : Frame d h k k :=
  ⟨rfl, Nat.le_refl _, fun _ _ _ => rfl, fun _ _ _ => rfl⟩

theorem Frame.trans {d : Domid} {h : UInt32} {k l j : Disk β} (h₁ : Frame d h k l)
    (h₂ : Frame d h l j) : Frame d h k j where
  dir0 := h₂.dir0.trans h₁.dir0
  nextFd := Nat.le_trans h₁.nextFd h₂.nextFd
  files d' h' hne := (h₂.files d' h' hne).trans (h₁.files d' h' hne)
  fds fd hlt hne := by
    have he := h₁.fds fd hlt hne
    rw [← he] at hne ⊢
    exact h₂.fds fd (Nat.lt_of_lt_of_le hlt h₁.nextFd) hne

section
variable {k : Disk β} {fd : Nat} {d : Domid} {h : UInt32} {file : List β}

theorem frame_setFile (k : Disk β) (d : Domid) (h : UInt32) (c : Option (List β)) :
    Frame d h k (k.setFile d h c) :=
  ⟨rfl, Nat.le_refl _, fun _ _ hne => if_neg hne, fun _ _ _ => rfl⟩

/-- Moving or closing a descriptor of the file. -/
theorem frame_setFd (hfd : ∃ off, k.fds fd = some ((d, h), off))
    (c : Option ((Domid × UInt32) × Nat)) :
    Frame d h k { k with fds := Function.update k.fds fd c } where
  dir0 := rfl
  nextFd := Nat.le_refl _
  files _ _ _ := rfl
  fds fd' _ hne := by
    obtain ⟨off, hoff⟩ := hfd
    refine Function.update_of_ne ?_ ..
    rintro rfl
    exact hne off hoff

theorem frame_appended (hk : AtEnd k fd d h file) (data : List β) :
    Frame d h k (k.appended fd d h file data) := by
  have hfd : ∃ off, (k.setFile d h (some (file ++ data))).fds fd = some ((d, h), off) := ⟨_, hk.fd⟩
  exact (frame_setFile k d h _).trans (frame_setFd hfd _)

theorem frame_close (hfd : ∃ off, k.fds fd = some ((d, h), off)) : Frame d h k (k.close fd) := by
  unfold Disk.close
  by_cases h0 : fd = 0
  · rw [if_pos h0]
    exact frame_refl d h k
  · rw [if_neg h0]
    exact frame_setFd hfd none

@[simp] theorem close_files (k : Disk β) (fd : Nat) : (k.close fd).files = k.files := by
  unfold Disk.close
  by_cases h0 : fd = 0
  · rw [if_pos h0]
  · rw [if_neg h0]

/-- A descriptor that is open at the end of its file. -/
structure Opened (k : Disk β) (i : Nat) (d : Domid) (h : UInt32) (c : List β) : Prop
    extends AtEnd k i d h c where
  lt : i < k.nextFd

/-- Steps of another file leave a descriptor alone. -/
theorem Opened.frame {l : Disk β} {d' : Domid} {h' : UInt32} (ho : Opened k fd d h file)
    (hf : Frame d' h' k l) (hne : h ≠ h') : Opened l fd d h file where
  fd := by
    rw [hf.fds fd ho.lt ?_, ho.fd]
    intro off he
    rw [ho.fd] at he
    exact hne (congrArg (fun e => (e.map (·.1.2)).getD h) he)
  file := by rw [hf.files d h (fun he => hne he.2), ho.file]
  lt := Nat.lt_of_lt_of_le ho.lt hf.nextFd

/-- A request whose file holds `file`: it opens it anew, or brings the descriptor along. -/
def Carries (k : Disk β) (m : Msg) (d : Domid) (h : UInt32) (file : List β) : Prop :=
  m.flags.new = true ∧ file = [] ∨ m.flags.new = false ∧ Opened k m.fd d h file

theorem Carries.frame {l : Disk β} {m : Msg} {d' : Domid} {h' : UInt32}
    (hc : Carries k m d h file) (hf : Frame d' h' k l) (hne : h ≠ h') : Carries l m d h file :=
  hc.imp_right fun ho => ⟨ho.1, ho.2.frame hf hne⟩

theorem fdFor_spec {m : Msg} (hdir : m.domain ≠ 0 ∨ k.dir0 = true)
    (hm : Carries k m m.domain m.hash file) :
    ∃ fd l, k.fdFor m = some (fd, l) ∧ Opened l fd m.domain m.hash file ∧
      Frame m.domain m.hash k l := by
  unfold Disk.fdFor
  rcases hm with ⟨hnew, rfl⟩ | ⟨hold, hend⟩
  · have hopen : ¬ (m.domain = 0 ∧ ¬ k.dir0 = true) := by
      rintro ⟨h0, hd⟩
      exact hdir.elim (fun h => h h0) hd
    rw [if_pos hnew, Disk.openFile, if_neg hopen]
    refine ⟨k.nextFd, _, rfl,
      ⟨⟨Function.update_self .., if_pos ⟨rfl, rfl⟩⟩, Nat.lt_succ_self _⟩, ?_⟩
    have hf := frame_setFile k m.domain m.hash (some [])
    exact { hf with
      nextFd := Nat.le_succ _
      fds := fun fd hlt _ => Function.update_of_ne (Nat.ne_of_lt hlt) .. }
  · have hnot : ¬ m.flags.new = true := by
      rw [hold]
      exact Bool.false_ne_true
    rw [if_neg hnot]
    exact ⟨m.fd, k, rfl, hend, frame_refl ..⟩

end

/-- The flags of a message that is neither an error nor an end, with some bit set. -/
structure Flags.Good (f : Flags) : Prop where
  error : f.error = false
  ended : f.ended = false
  some : f.final = true ∨ f.cont = true

theorem Flags.Good.ne_empty {f : Flags} (h : f.Good) : f ≠ {} := by
  rintro rfl
  rcases h.some with hs | hs <;> exact Bool.false_ne_true hs

/-- A `PUT` request that carries the bytes of `kv` from `start` on. -/
structure PutReq (n : Nat) (mh : Entry) (addr : Nat) (kv shared : Buffer β) (k : Disk β) (m : Msg)
    (start : Nat) : Prop where
  op : m.op = .put
  domain : m.domain = mh.domain
  hash : m.hash = mh.hash
  addr : m.mcdData = addr
  le : start ≤ mh.totsize
  dvd : pageBytes * n ∣ start
  cur : m.cursize = part n (mh.totsize - start)
  acc : m.accsize = start + part n (mh.totsize - start)
  final : m.flags.final = decide (mh.totsize - start ≤ pageBytes * n)
  good : m.flags.Good
  data : shared.bytes 0 m.cursize = kv.bytes start m.cursize
  carries : Carries k m mh.domain mh.hash (kv.bytes 0 start)

/-- A `PUT` response: the file holds the first `accsize` bytes of `kv`. -/
structure PutRsp (n : Nat) (mh : Entry) (addr : Nat) (kv : Buffer β) (k : Disk β) (m : Msg) :
    Prop where
  op : m.op = .put
  addr : m.mcdData = addr
  good : m.flags.Good
  file : k.files mh.domain mh.hash = some (kv.bytes 0 m.accsize)
  next : m.flags.final = true ∧ m.accsize = mh.totsize ∨
    m.flags.final = false ∧ pageBytes * n ∣ m.accsize ∧ m.accsize ≤ mh.totsize ∧
      Opened k m.fd mh.domain mh.hash (kv.bytes 0 m.accsize)

/-- A `GET` request for the bytes from `start` on, of a file that is empty once it is open. -/
structure GetReq (n : Nat) (mh : Entry) (addr : Nat) (k : Disk β) (m : Msg) (start : Nat) :
    Prop where
  op : m.op = .get
  domain : m.domain = mh.domain
  hash : m.hash = mh.hash
  addr : m.mcdData = addr
  tot : m.totsize = mh.totsize
  acc : m.accsize = start
  dvd : pageBytes * n ∣ start
  final : m.flags.final = false
  error : m.flags.error = false
  ended : m.flags.ended = false
  carries : Carries k m mh.domain mh.hash []

/-- A `GET` response with the part at `start`. -/
structure GetRsp (n : Nat) (mh : Entry) (addr : Nat) (k : Disk β) (m : Msg) (start : Nat) :
    Prop where
  op : m.op = .get
  addr : m.mcdData = addr
  acc : m.accsize = start
  dvd : pageBytes * n ∣ start
  cur : m.cursize = part n (mh.totsize - start)
  final : m.flags.final = decide (mh.totsize - start ≤ pageBytes * n)
  good : m.flags.Good
  opened : m.flags.final = false → Opened k m.fd mh.domain mh.hash []

section
variable {n addr start : Nat} {kv shared : Buffer β} {k : Disk β} {x : World β} {mh : Entry}
  {m : Msg}

/-- The daemon appends what a `PUT` request carries. -/
theorem servePut_spec (hreq : PutReq n mh addr kv shared k m start)
    (hdir : mh.domain ≠ 0 ∨ k.dir0 = true) :
    ∃ rsp l, servePut n m shared k = (rsp, l) ∧ PutRsp n mh addr kv l rsp ∧
      Frame mh.domain mh.hash k l ∧ rsp.accsize = m.accsize ∧
      rsp.flags.final = m.flags.final := by
  obtain ⟨fd, l, hfd, hopen, hframe⟩ := fdFor_spec (by rw [hreq.domain]; exact hdir)
    (by rw [hreq.domain, hreq.hash]; exact hreq.carries)
  have hw := writePages_spec shared hopen.toAtEnd n 0 m.cursize
    (by rw [hreq.cur]; exact part_le ..)
  rw [hreq.domain, hreq.hash] at hopen hframe hw
  -- what was there and what is appended are one prefix of `kv`
  have hbytes : kv.bytes 0 start ++ shared.bytes (pageBytes * 0) m.cursize =
      kv.bytes 0 m.accsize := by
    rw [Nat.mul_zero, hreq.data, hreq.acc, ← hreq.cur, bytes_add, Nat.zero_add]
  have hatEnd := appended_atEnd l fd mh.domain mh.hash (kv.bytes 0 start)
    (shared.bytes (pageBytes * 0) m.cursize)
  rw [← hw, hbytes] at hatEnd
  have happ := frame_appended hopen.toAtEnd (shared.bytes (pageBytes * 0) m.cursize)
  rw [← hw] at happ
  have hgood : ({ m.flags with new := false } : Flags).Good := ⟨hreq.good.1, hreq.good.2, hreq.good.3⟩
  simp only [servePut, hfd]
  by_cases hfin : m.flags.final = true
  · have hall : mh.totsize - start ≤ pageBytes * n := of_decide_eq_true (hreq.final ▸ hfin)
    have hacc : m.accsize = mh.totsize := by
      rw [hreq.acc, part_of_le_pages hall, Nat.add_sub_cancel' hreq.le]
    rw [if_pos hfin]
    refine ⟨_, _, rfl, ⟨hreq.op, hreq.addr, hgood, ?_, .inl ⟨hfin, hacc⟩⟩,
      (hframe.trans happ).trans (frame_close ⟨_, hatEnd.fd⟩), rfl, rfl⟩
    rw [close_files]
    exact hatEnd.file
  · have hmore : ¬ mh.totsize - start ≤ pageBytes * n := by
      rw [hreq.final] at hfin
      exact of_decide_eq_false (Bool.eq_false_iff.mpr hfin)
    have hacc : m.accsize = start + pageBytes * n := by rw [hreq.acc, part_of_not_le hmore]
    rw [if_neg hfin]
    refine ⟨_, _, rfl, ⟨hreq.op, hreq.addr, hgood, hatEnd.file,
      .inr ⟨Bool.eq_false_iff.mpr hfin, ?_, ?_, ?_⟩⟩, hframe.trans happ, rfl, rfl⟩
    · rw [hacc]
      exact Nat.dvd_add hreq.dvd (Nat.dvd_refl _)
    · show m.accsize ≤ mh.totsize
      omega
    · exact ⟨hatEnd, Nat.lt_of_lt_of_le hopen.lt happ.nextFd⟩

theorem content_of_atEnd {fd : Nat} {d : Domid} {h : UInt32} {file : List β}
    (hk : AtEnd k fd d h file) : k.content fd = file := by
  simp only [Disk.content, hk.fd, hk.file, Option.getD_some]

/-- The daemon's answer to a `GET`: opening has emptied the file, so nothing is read. -/
theorem serveGet_spec (hreq : GetReq n mh addr k m start) (hn : 0 < n)
    (hdir : mh.domain ≠ 0 ∨ k.dir0 = true) (shared : Buffer β) :
    ∃ rsp l, serveGet n m shared k = (rsp, shared, l) ∧ GetRsp n mh addr l rsp start ∧
      Frame mh.domain mh.hash k l := by
  obtain ⟨fd, l, hfd, hopen, hframe⟩ := fdFor_spec (by rw [hreq.domain]; exact hdir)
    (by rw [hreq.domain, hreq.hash]; exact hreq.carries)
  rw [hreq.domain, hreq.hash] at hopen hframe
  obtain ⟨cont, hread, hor⟩ := readPages_nil n 0 (m.totsize - m.accsize)
    (if m.accsize = 0 then 0 else m.accsize + 1)
    { m with flags := { m.flags with new := false }, fd := fd, cursize := 0 } shared hreq.final
    (fun h => absurd h (Nat.pos_iff_ne_zero.mp hn))
  simp only [serveGet, hfd, content_of_atEnd hopen.toAtEnd, hread]
  simp only [hreq.tot, hreq.acc, decide_eq_true_eq] at hor ⊢
  by_cases hfin : mh.totsize - start ≤ pageBytes * n
  · rw [if_pos hfin, hreq.domain, hreq.hash]
    refine ⟨_, _, rfl, ⟨hreq.op, hreq.addr, rfl, hreq.dvd, Nat.zero_add _, rfl,
      ⟨hreq.error, hreq.ended, .inl (decide_eq_true hfin)⟩, fun h => ?_⟩,
      (hframe.trans (frame_close ⟨_, hopen.fd⟩)).trans (frame_setFile ..)⟩
    exact absurd (h.symm.trans (decide_eq_true hfin)) Bool.false_ne_true
  · rw [if_neg hfin]
    exact ⟨_, _, rfl, ⟨hreq.op, hreq.addr, rfl, hreq.dvd, Nat.zero_add _, rfl,
      ⟨hreq.error, hreq.ended, .inr (hor.resolve_left hfin)⟩, fun _ => hopen⟩, hframe⟩

/-- The world after `mcdctl_page_out` copied the part at `start` and sent `req`. -/
def World.sent (n addr start : Nat) (mh : Entry) (req : Msg) (x : World β) : World β :=
  { x with
    sharedPage := x.sharedPage.memcpy 0 (x.keyVal addr) start (part n (mh.totsize - start))
    requests := x.requests ++ [req] }

/-- The request `mcdctl_page_out` sends, and the copy it makes into the shared pages. -/
theorem mcdctlPageOut_spec {rsp : Option Msg} (hn : 0 < n) (hring : x.ringFull = false)
    (hmh : x.entry addr = mh) (hstart : start = (rsp.map (·.accsize)).getD 0)
    (hle : start ≤ mh.totsize) (hdvd : pageBytes * n ∣ start)
    (hfile : rsp = none ∨ ∃ r, rsp = some r ∧
      Opened x.disk r.fd mh.domain mh.hash ((x.keyVal addr).bytes 0 start)) :
    ∃ req, mcdctlPageOut n addr rsp x = some (x.sent n addr start mh req) ∧
      PutReq n mh addr (x.keyVal addr) (x.sent n addr start mh req).sharedPage x.disk req start ∧
      req.flags.new = rsp.isNone := by
  obtain ⟨cont, hfill, hor⟩ := fillPages_spec (x.keyVal addr) n 0
    { op := .put, domain := mh.domain, flags := { new := rsp.isNone }, hash := mh.hash
      totsize := mh.totsize, accsize := start, cursize := 0, fd := (rsp.map (·.fd)).getD 0
      mcdData := addr } x.sharedPage rfl (fun h => absurd h (Nat.pos_iff_ne_zero.mp hn))
  have hnot : ¬ x.ringFull = true := by simp [hring]
  simp only [mcdctlPageOut, if_neg hnot, hmh, ← hstart, hfill]
  refine ⟨_, rfl,
    ⟨rfl, rfl, rfl, rfl, hle, hdvd, Nat.zero_add _, rfl, rfl, ⟨rfl, rfl, ?_⟩, ?_, ?_⟩, rfl⟩
  · exact hor.imp_left decide_eq_true
  · refine bytes_congr fun p hp => ?_
    have hp' : p < part n (mh.totsize - start) := by simpa using hp
    simp only [World.sent, memcpy]
    rw [if_pos (by omega)]
    congr 1
    omega
  · rcases hfile with rfl | ⟨r, rfl, ho⟩
    · have h0 : start = 0 := hstart
      exact .inl ⟨rfl, by rw [h0]; rfl⟩
    · exact .inr ⟨rfl, ho⟩

/-- Xen's answer to a `PUT` response: the lock is released, or the next part is sent. -/
theorem resumePut_spec (hrsp : PutRsp n mh addr kv x.disk m) (hn : 0 < n)
    (hring : x.ringFull = false) (hmh : x.entry addr = mh) (hkv : x.keyVal addr = kv) :
    m.flags.final = true ∧ m.accsize = mh.totsize ∧ mcdEventResume n m x = x.unlock .put ∨
      m.flags.final = false ∧ ∃ req, mcdEventResume n m x = x.sent n addr m.accsize mh req ∧
        PutReq n mh addr kv (x.sent n addr m.accsize mh req).sharedPage x.disk req m.accsize := by
  have herror : ¬ m.flags.error = true := by simp [hrsp.good.error]
  have hended : ¬ m.flags.ended = true := by simp [hrsp.good.ended]
  simp only [mcdEventResume, if_neg hrsp.good.ne_empty, if_neg herror, if_neg hended, hrsp.op]
  rcases hrsp.next with ⟨hfin, hacc⟩ | ⟨hfin, hdvd, hle, hopen⟩
  · left
    rw [if_pos hfin]
    exact ⟨hfin, hacc, rfl⟩
  · right
    have hnot : ¬ m.flags.final = true := by simp [hfin]
    subst hkv
    have hstart : m.accsize = ((some m).map (·.accsize)).getD 0 := rfl
    obtain ⟨req, hout, hreq, -⟩ := mcdctlPageOut_spec hn hring hmh hstart hle hdvd
      (.inr ⟨m, rfl, hopen⟩)
    rw [if_neg hnot, hrsp.addr, hout]
    exact ⟨hfin, req, rfl, hreq⟩

/-- The request that opens a page-in. -/
theorem mcdctlPageIn_spec (hring : x.ringFull = false) (hmh : x.entry addr = mh) :
    ∃ req, mcdctlPageIn n addr none x = some { x with requests := x.requests ++ [req] } ∧
      GetReq n mh addr x.disk req 0 := by
  have hnot : ¬ x.ringFull = true := by simp [hring]
  simp only [mcdctlPageIn, if_neg hnot, hmh]
  exact ⟨_, rfl, rfl, rfl, rfl, rfl, rfl, rfl, Nat.dvd_zero _, rfl, rfl, rfl, .inl ⟨rfl, rfl⟩⟩

/-- The world after `len` bytes of the shared pages were copied into an entry at `start`. -/
def World.received (addr start len : Nat) (x : World β) : World β :=
  { x with
    keyVal := Function.update x.keyVal addr ((x.keyVal addr).memcpy start x.sharedPage 0 len) }

theorem received_zero (x : World β) (addr start : Nat) : x.received addr start 0 = x := by
  simp only [World.received, memcpy_zero, Function.update_eq_self]

/-- Xen's answer to a `GET` response: the part is copied, and the lock released or more asked for. -/
theorem resumeGet_spec (hrsp : GetRsp n mh addr x.disk m start) (hn : 0 < n)
    (hring : x.ringFull = false) (hmh : x.entry addr = mh) :
    mh.totsize - start ≤ pageBytes * n ∧
        mcdEventResume n m x = (x.received addr start (mh.totsize - start)).unlock .get ∨
      ¬ mh.totsize - start ≤ pageBytes * n ∧
        ∃ req, GetReq n mh addr x.disk req (start + pageBytes * n) ∧
          mcdEventResume n m x =
            { x.received addr start (pageBytes * n) with requests := x.requests ++ [req] } := by
  have hnot : ¬ x.ringFull = true := by simp [hring]
  have herror : ¬ m.flags.error = true := by simp [hrsp.good.error]
  have hended : ¬ m.flags.ended = true := by simp [hrsp.good.ended]
  simp only [mcdEventResume, if_neg hrsp.good.ne_empty, if_neg herror, if_neg hended, hrsp.op,
    mcdctlPageIn, if_neg hnot, hrsp.addr, hmh]
  obtain ⟨hcopy, hacc⟩ := takePages_spec x.sharedPage m.cursize n 0 m.accsize m.cursize
    (x.keyVal addr) (by rw [hrsp.cur]; exact part_le ..) hn
  rw [Nat.mul_zero] at hcopy
  by_cases hfin : mh.totsize - start ≤ pageBytes * n
  · left
    have hflag : m.flags.final = true := by rw [hrsp.final, decide_eq_true hfin]
    have hcur : m.cursize = mh.totsize - start := by rw [hrsp.cur, part_of_le_pages hfin]
    refine ⟨hfin, ?_⟩
    by_cases h0 : m.cursize = 0
    · -- a size of zero is refused, which releases the lock as well
      rw [if_pos h0, ← hcur, h0, received_zero]
    · rw [if_neg h0, if_pos hflag, hcopy, hrsp.acc, hcur]
      simp only [if_pos hflag]
      rfl
  · right
    have hflag : m.flags.final = false := by rw [hrsp.final, decide_eq_false hfin]
    have hcur : m.cursize = pageBytes * n := by rw [hrsp.cur, part_of_not_le hfin]
    have h0 : ¬ m.cursize = 0 := by
      unfold pageBytes at hcur
      omega
    have hoff : ¬ m.flags.final = true := by simp [hflag]
    rw [if_neg h0, if_neg hoff, hcopy, hacc hcur, hrsp.acc, hcur]
    simp only [if_neg hoff]
    refine ⟨hfin, _, ?_, rfl⟩
    exact ⟨rfl, rfl, rfl, rfl, rfl, rfl, Nat.dvd_add hrsp.dvd (Nat.dvd_refl _), rfl, rfl, rfl,
      .inr ⟨rfl, hrsp.opened hflag⟩⟩

end

end UniCache.Transfer
