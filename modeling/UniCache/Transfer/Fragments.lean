import UniCache.Base.Parts
import UniCache.Transfer.RoundTrip

/-! The parts of a page-out and of a page-in: which requests are made, what the daemon writes and
reads, and what Xen copies. -/
namespace UniCache.Transfer
open Base Mcd Buffer

variable {β γ : Type}

/-- `drive` with a log. Of each turn `f` notes something about the request, the world before it is
served, and the world with the response. -/
def driveLog (n : Nat) (f : Msg → World β → World β → γ) : Nat → World β → Option (List γ × World β)
  | 0, _ => none
  | fuel + 1, x =>
    match x.requests with
    | [] => some ([], x)
    | req :: _ => (x.serve n).bind fun y => (y.resume n).bind fun z =>
      (driveLog n f fuel z).map fun r => (f req x y :: r.1, r.2)

section
variable {n fuel : Nat} {f : Msg → World β → World β → γ} {x : World β}

theorem driveLog_snd : (driveLog n f fuel x).map (·.2) = drive n fuel x := by
  induction fuel generalizing x with
  | zero => rfl
  | succ fuel ih =>
    unfold driveLog drive
    cases hreq : x.requests with
    | nil => simp [World.serve, hreq]
    | cons req rest =>
      cases hserve : x.serve n with
      | none => simp [World.serve, hreq] at hserve
      | some y =>
        cases hz : y.resume n with
        | none => simp [hz]
        | some z =>
          simp only [hz, Option.bind_some, Option.map_map, ← ih]
          rfl

/-- The log of an exchange that ends, or moves a part of `size` bytes, at each turn. -/
theorem driveLog_parts {size tot : Nat} {P : Nat → γ → Prop} {I : Nat → World β → Prop}
    {Q : World β → Prop}
    (hturn : ∀ start y, I start y → start < tot →
      ∃ req u z, y.requests = [req] ∧ y.serve n = some u ∧ u.resume n = some z ∧
        P start (f req y u) ∧
        (tot - start ≤ size ∧ z.requests = [] ∧ Q z ∨ size < tot - start ∧ I (start + size) z))
    (r : Nat) {start : Nat} (h : I start x) (hlt : start < tot) (hle : tot - start ≤ size * (r + 1))
    (hfuel : r + 2 ≤ fuel) :
    ∃ log z, driveLog n f fuel x = some (log, z) ∧ Parts size tot P start log ∧ Q z := by
  -- on the number of further turns that may be needed
  induction r generalizing x start fuel with
  | zero =>
    obtain ⟨fuel, rfl⟩ := Nat.exists_eq_add_of_le' hfuel
    obtain ⟨req, u, z, hreq, hu, hz, hp, ⟨hend, hnil, hq⟩ | ⟨hmore, -⟩⟩ := hturn start x h hlt
    · refine ⟨[f req x u], z, ?_, .last hlt hend hp, hq⟩
      simp [driveLog, hreq, hu, hz, hnil]
    · omega
  | succ r ih =>
    obtain ⟨fuel, rfl⟩ := Nat.exists_eq_add_of_le' hfuel
    obtain ⟨req, u, z, hreq, hu, hz, hp, ⟨hend, hnil, hq⟩ | ⟨hmore, hi⟩⟩ := hturn start x h hlt
    · refine ⟨[f req x u], z, ?_, .last hlt hend hp, hq⟩
      simp [driveLog, hreq, hu, hz, hnil]
    · have hrest : tot - (start + size) ≤ size * (r + 1) := by
        rw [Nat.mul_succ] at hle
        omega
      have hf : r + 2 ≤ fuel + (r + 1) + 1 := by omega
      obtain ⟨log, w, hlog, hparts, hq⟩ := ih hi (by omega) hrest hf
      refine ⟨f req x u :: log, w, ?_, .more hmore hp hparts, hq⟩
      have hstep : driveLog n f (fuel + (r + 1) + 2) x =
          (driveLog n f (fuel + (r + 1) + 1) z).map fun r => (f req x u :: r.1, r.2) := by
        rw [driveLog]
        simp [hreq, hu, hz]
      rw [show fuel + (r + 1 + 2) = fuel + (r + 1) + 2 by omega, hstep, hlog]
      rfl

end

/-! ### A page-out -/

/-- The blocks that the loop of the `PUT` case writes. -/
def blocks (shared : Buffer β) : Nat → Nat → Nat → List (List β)
  | 0, _, _ => []
  | left + 1, page, cur =>
    if cur ≥ pageBytes then
      shared.bytes (pageBytes * page) pageBytes ::
        (if cur - pageBytes ≤ 0 then [] else blocks shared left (page + 1) (cur - pageBytes))
    else [shared.bytes (pageBytes * page) cur]

theorem writePages_blocks (fd : Nat) (shared : Buffer β) (left page cur : Nat) (k : Disk β) :
    (writePages fd shared left page cur k).2 =
      (blocks shared left page cur).foldl (fun k data => k.write fd data) k := by
  induction left generalizing page cur k with
  | zero => rfl
  | succ left ih =>
    unfold writePages blocks
    by_cases hbig : cur ≥ pageBytes
    · by_cases hend : cur - pageBytes ≤ 0
      · simp [hbig, hend]
      · simp only [if_pos hbig, if_neg hend, ih, List.foldl_cons]
    · simp [hbig]

theorem flatten_blocks (shared : Buffer β) (page : Nat) {left cur : Nat} (hcur : cur ≤ pageBytes * left) :
    (blocks shared left page cur).flatten = shared.bytes (pageBytes * page) cur := by
  induction left generalizing page cur with
  | zero =>
    have hzero : cur = 0 := by omega
    rw [hzero]
    rfl
  | succ left ih =>
    unfold blocks
    by_cases hbig : cur ≥ pageBytes
    · by_cases hend : cur - pageBytes ≤ 0
      · have hone : cur = pageBytes := by omega
        simp [hone]
      · have hrest : cur - pageBytes ≤ pageBytes * left := by
          unfold pageBytes at *
          omega
        have hadd := bytes_add shared (pageBytes * page) pageBytes (cur - pageBytes)
        rw [Nat.add_sub_cancel' hbig] at hadd
        rw [if_pos hbig, if_neg hend, List.flatten_cons, ih (page + 1) hrest, hadd]
        rfl
    · simp [hbig]

/-- A turn of a page-out: the request, and what the daemon writes for it. -/
structure PutTurn (β : Type) where
  req : Msg
  writes : List (List β)

def putTurn (n : Nat) (req : Msg) (x _y : World β) : PutTurn β where
  req := req
  writes := match x.disk.fdFor req with
    | none => []
    | some _ => blocks x.sharedPage n 0 req.cursize

/-- The writes of the log are what the daemon makes of the file it has opened or goes on with. -/
theorem serve_writes {n : Nat} {req : Msg} {rest : List Msg} {x y : World β}
    (hreq : x.requests = req :: rest) (hop : req.op = .put) (hy : x.serve n = some y) :
    y.disk.files = match x.disk.fdFor req with
      | none => x.disk.files
      | some (fd, k) => ((putTurn n req x y).writes.foldl (fun k data => k.write fd data) k).files := by
  simp only [World.serve, hreq, World.answer, hop, Option.some.injEq] at hy
  rw [← hy]
  unfold putTurn servePut
  cases hfd : x.disk.fdFor req with
  | none => rfl
  | some p =>
    simp only [← writePages_blocks]
    by_cases hfin : req.flags.final = true
    · simp [hfin]
    · simp [hfin]

/-- `putExchange` with the log of its turns. -/
def putLog (n fuel addr : Nat) (x : World β) : Option (List (PutTurn β) × World β) :=
  match minfPageOut n addr x with
  | some (y, true) => driveLog n (putTurn n) fuel y
  | _ => none

theorem putLog_snd (n fuel addr : Nat) (x : World β) :
    (putLog n fuel addr x).map (·.2) = putExchange n fuel addr x := by
  unfold putLog putExchange
  rcases minfPageOut n addr x with _ | ⟨y, _ | _⟩
  · rfl
  · rfl
  · exact driveLog_snd

/-- The turn that sends the part of `kv` at `start`. -/
structure PutPart (n tot : Nat) (kv : Buffer β) (start : Nat) (t : PutTurn β) : Prop where
  new : t.req.flags.new = decide (start = 0)
  final : t.req.flags.final = decide (tot - start ≤ pageBytes * n)
  cur : t.req.cursize ≤ pageBytes * n
  writes : t.writes.flatten = kv.bytes start (min (tot - start) (pageBytes * n))

section
variable {n addr start : Nat} {mh : Entry} {x : World β} {m : Msg}

/-- A later request does not open the file again. -/
theorem Sending.new_eq (h : Sending n mh addr x m start) (hpos : 0 < start) :
    m.flags.new = false := by
  rcases h.req.carries with ⟨-, hnil⟩ | ⟨hnew, -⟩
  · have hlen := congrArg List.length hnil
    rw [length_bytes, List.length_nil] at hlen
    omega
  · exact hnew

theorem Sending.putPart (h : Sending n mh addr x m start) (hnew : start = 0 → m.flags.new = true)
    (y : World β) : PutPart n mh.totsize (x.keyVal addr) start (putTurn n m x y) := by
  have hcur : m.cursize ≤ pageBytes * n := by
    rw [h.req.cur]
    exact part_le ..
  constructor
  · by_cases hz : start = 0
    · rw [decide_eq_true hz]
      exact hnew hz
    · rw [decide_eq_false hz]
      exact h.new_eq (Nat.pos_of_ne_zero hz)
  · exact h.req.final
  · exact hcur
  · obtain ⟨fd, l, hfd, -, -⟩ := fdFor_spec (by rw [h.req.domain]; exact h.dir)
      (by rw [h.req.domain, h.req.hash]; exact h.req.carries)
    have hblocks := flatten_blocks x.sharedPage 0 hcur
    rw [Nat.mul_zero, h.req.data] at hblocks
    simp only [putTurn, hfd, hblocks]
    rw [h.req.cur]
    rfl

end

/-- The ranges that the loop of the `GET` case reads and that the loop of `mcdctl_page_in` copies, of
`len` bytes from `off` on. -/
def spans : Nat → Nat → Nat → Nat → List Span
  | 0, _, _, _ => []
  | left + 1, page, len, off =>
    if len ≥ pageBytes then
      ⟨off, pageBytes, page⟩ ::
        (if len - pageBytes ≤ 0 then [] else spans left (page + 1) (len - pageBytes) (off + pageBytes))
    else [⟨off, len, page⟩]

/-- The calls of `find_and_read`. -/
theorem readPages_spans (file : List β) (left page leftSize start : Nat) (req : Msg)
    (shared : Buffer β) : (readPages file left page leftSize start req shared).2 =
      (spans left page leftSize start).foldl
        (fun b s => b.readInto (pageBytes * s.page) file s.off s.len) shared := by
  induction left generalizing page leftSize start req shared with
  | zero => rfl
  | succ left ih =>
    unfold readPages spans
    by_cases hbig : leftSize ≥ pageBytes
    · by_cases hend : leftSize - pageBytes ≤ 0
      · simp [hbig, hend]
      · simp only [if_pos hbig, if_neg hend, ih, List.foldl_cons]
    · simp [hbig]

/-- The calls of `memcpy`. -/
theorem takePages_spans (shared : Buffer β) (rspCur left page acc cur : Nat) (kv : Buffer β) :
    (takePages shared rspCur left page acc cur kv).2 =
      (spans left page cur acc).foldl
        (fun b s => b.memcpy s.off shared (pageBytes * s.page) s.len) kv := by
  induction left generalizing page acc cur kv with
  | zero => rfl
  | succ left ih =>
    unfold takePages spans
    by_cases hbig : cur ≥ pageBytes
    · by_cases hend : cur - pageBytes ≤ 0
      · simp [hbig, hend]
      · simp only [if_pos hbig, if_neg hend, ih, List.foldl_cons]
    · simp [hbig]

section
variable {left page len off : Nat}

theorem spans_shift : spans left page len (off + 1) = (spans left page len off).map Span.shift := by
  induction left generalizing page len off with
  | zero => rfl
  | succ left ih =>
    unfold spans
    by_cases hbig : len ≥ pageBytes
    · by_cases hend : len - pageBytes ≤ 0
      · simp [hbig, hend, Span.shift]
      · have hoff : off + 1 + pageBytes = off + pageBytes + 1 := by omega
        simp only [if_pos hbig, if_neg hend, hoff, ih, List.map_cons]
        rfl
    · simp [hbig, Span.shift]

/-- The ranges of a size beyond the pages are those of the part. -/
theorem spans_part : spans left page (part left len) off = spans left page len off := by
  induction left generalizing page len off with
  | zero => rfl
  | succ left ih =>
    by_cases hbig : pageBytes < len
    · have hsum := part_succ (n := left) hbig
      have hge : part (left + 1) len ≥ pageBytes := by omega
      have hlen : len ≥ pageBytes := Nat.le_of_lt hbig
      have hmore : ¬ len - pageBytes ≤ 0 := by omega
      have hrest : part (left + 1) len - pageBytes = part left (len - pageBytes) := by omega
      unfold spans
      rw [if_pos hge, if_pos hlen, if_neg hmore, hrest]
      by_cases hz : left = 0
      · subst hz
        simp [part, spans]
      · have hpos : ¬ part left (len - pageBytes) ≤ 0 := by
          have hpages : 0 < pageBytes * left := Nat.mul_pos (by decide) (Nat.pos_of_ne_zero hz)
          unfold part
          omega
        rw [if_neg hpos, ih]
    · rw [part_of_le (Nat.le_of_not_lt hbig)]

theorem spans_tiles (hpos : 0 < len) (hle : len ≤ pageBytes * left) :
    Tiles off (off + len) (spans left page len off) := by
  induction left generalizing page len off with
  | zero => omega
  | succ left ih =>
    have hpage : 0 < pageBytes := by decide
    unfold spans
    by_cases hbig : len ≥ pageBytes
    · by_cases hend : len - pageBytes ≤ 0
      · have hone : len = pageBytes := by omega
        rw [if_pos hbig, if_pos hend, hone]
        exact ⟨rfl, hpage, rfl⟩
      · have hrest : len - pageBytes ≤ pageBytes * left := by
          unfold pageBytes at *
          omega
        have hsum : off + len = off + pageBytes + (len - pageBytes) := by omega
        rw [if_pos hbig, if_neg hend, hsum]
        exact ⟨rfl, hpage, ih (by omega) hrest⟩
    · rw [if_neg hbig]
      exact ⟨rfl, hpos, rfl⟩

end

/-- A turn of a page-in: the request, what the daemon reads from the file for it, and what Xen copies
of the response. -/
structure GetTurn where
  req : Msg
  reads : List Span
  copies : List Span

/-- What `mcdctl_page_in` copies when it is called with the next response. -/
def World.copies (n : Nat) (y : World β) : List Span :=
  match y.responses with
  | [] => []
  | rsp :: rest =>
    if rsp.flags = {} ∨ rsp.flags.error ∨ rsp.flags.ended ∨ rsp.op ≠ .get ∨
        ({ y with responses := rest } : World β).ringFull ∨ rsp.cursize = 0 then []
    else spans n 0 rsp.cursize rsp.accsize

def getTurn (n : Nat) (req : Msg) (x y : World β) : GetTurn where
  req := req
  reads := match x.disk.fdFor req with
    | none => []
    | some _ => spans n 0 (req.totsize - req.accsize) (if req.accsize = 0 then 0 else req.accsize + 1)
  copies := y.copies n

/-- The reads of the log fill the shared pages. -/
theorem serve_reads {n : Nat} {req : Msg} {rest : List Msg} {x y : World β}
    (hreq : x.requests = req :: rest) (hop : req.op = .get) (hy : x.serve n = some y) :
    ∃ file, y.sharedPage = (getTurn n req x y).reads.foldl
      (fun b s => b.readInto (pageBytes * s.page) file s.off s.len) x.sharedPage := by
  simp only [World.serve, hreq, World.answer, hop, Option.some.injEq] at hy
  rw [← hy]
  unfold getTurn serveGet
  cases hfd : x.disk.fdFor req with
  | none => exact ⟨[], rfl⟩
  | some p =>
    refine ⟨p.2.content p.1, ?_⟩
    have hread := readPages_spans (p.2.content p.1) n 0 (req.totsize - req.accsize)
      (if req.accsize = 0 then 0 else req.accsize + 1)
      { req with flags := { req.flags with new := false }, fd := p.1, cursize := 0 } x.sharedPage
    rw [← hread]
    dsimp only
    generalize readPages (p.2.content p.1) n 0 _ _ _ x.sharedPage = r
    by_cases hfin : r.1.flags.final = true
    · rw [if_pos hfin]
    · rw [if_neg hfin]

/-- The copies of the log go from there into the entry. -/
theorem resume_copies {n : Nat} {rsp : Msg} {rest : List Msg} {y z : World β}
    (hrsps : y.responses = rsp :: rest) (hop : rsp.op = .get) (hz : y.resume n = some z) :
    z.keyVal = Function.update y.keyVal rsp.mcdData ((y.copies n).foldl
      (fun b s => b.memcpy s.off y.sharedPage (pageBytes * s.page) s.len) (y.keyVal rsp.mcdData)) := by
  simp only [World.resume, hrsps, Option.some.injEq] at hz
  rw [← hz]
  unfold World.copies mcdEventResume
  by_cases hempty : rsp.flags = {}
  · simp [hrsps, hempty, World.unlock, hop]
  by_cases herror : rsp.flags.error = true
  · simp [hrsps, hempty, herror, World.unlock, hop]
  by_cases hended : rsp.flags.ended = true
  · simp [hrsps, hempty, herror, hended]
  by_cases hring : ({ y with responses := rest } : World β).ringFull = true
  · simp [hrsps, hempty, herror, hended, hop, mcdctlPageIn, hring, World.unlock]
  by_cases hcur : rsp.cursize = 0
  · simp [hrsps, hempty, herror, hended, hop, mcdctlPageIn, hring, hcur, World.unlock]
  by_cases hfin : rsp.flags.final = true
  · simp [hrsps, hempty, herror, hended, hop, mcdctlPageIn, hring, hcur, hfin, World.unlock,
      takePages_spans]
  · simp [hrsps, hempty, herror, hended, hop, mcdctlPageIn, hring, hcur, hfin, takePages_spans]

/-- `getExchange` with the log of its turns. -/
def getLog (n fuel addr : Nat) (x : World β) : Option (List GetTurn × World β) :=
  match minfPageIn n addr x with
  | some (y, true) => driveLog n (getTurn n) fuel y
  | _ => none

theorem getLog_snd (n fuel addr : Nat) (x : World β) :
    (getLog n fuel addr x).map (·.2) = getExchange n fuel addr x := by
  unfold getLog getExchange
  rcases minfPageIn n addr x with _ | ⟨y, _ | _⟩
  · rfl
  · rfl
  · exact driveLog_snd

/-- The turn for the part at `start`: from the second on the daemon reads one byte too far. -/
structure GetPart (n tot start : Nat) (t : GetTurn) : Prop where
  reads : t.reads = spans n 0 (tot - start) (if start = 0 then 0 else start + 1)
  copies : t.copies = spans n 0 (tot - start) start

section
variable {n tot start addr : Nat} {log : List GetTurn} {mh : Entry} {x y : World β} {m rsp : Msg}

theorem Asking.getPart (h : Asking n mh addr x m start) (hlt : start < mh.totsize) (hn : 0 < n)
    (hreq : y.requests = []) (hrsps : y.responses = [rsp]) (hrsp : GetRsp n mh addr y.disk rsp start) :
    GetPart n mh.totsize start (getTurn n m x y) := by
  constructor
  · obtain ⟨fd, l, hfd, -, -⟩ := fdFor_spec (by rw [h.req.domain]; exact h.dir)
      (by rw [h.req.domain, h.req.hash]; exact h.req.carries)
    simp only [getTurn, hfd, h.req.tot, h.req.acc]
  · have hring : ({ y with responses := [] } : World β).ringFull = false := ringFull_of_nil hreq rfl
    have hcur : rsp.cursize ≠ 0 := by
      have hpages : 0 < pageBytes * n := Nat.mul_pos (by decide) hn
      rw [hrsp.cur]
      unfold part
      omega
    have hnot : ¬ (rsp.flags = {} ∨ rsp.flags.error ∨ rsp.flags.ended ∨ rsp.op ≠ .get ∨
        ({ y with responses := [] } : World β).ringFull ∨ rsp.cursize = 0) := by
      simp [hrsp.good.ne_empty, hrsp.good.error, hrsp.good.ended, hrsp.op, hring, hcur]
    show y.copies n = _
    simp only [World.copies, hrsps]
    rw [if_neg hnot, hrsp.cur, hrsp.acc, spans_part]

theorem spans_part_tiles (hlt : start < tot) (hn : 0 < n) :
    Tiles start (start + part n (tot - start)) (spans n 0 (tot - start) start) := by
  have hpages : 0 < pageBytes * n := Nat.mul_pos (by decide) hn
  rw [← spans_part]
  apply spans_tiles
  · unfold part
    omega
  · exact part_le ..

/-- Of the parts after the first, the copies tile the rest and every read is one byte further. -/
theorem later_parts (hn : 0 < n) (hpos : 0 < start)
    (h : Parts (pageBytes * n) tot (GetPart n tot) start log) :
    Tiles start tot (log.flatMap (·.copies)) ∧
      log.flatMap (·.reads) = (log.flatMap (·.copies)).map Span.shift := by
  have hreads : ∀ {s t}, 0 < s → GetPart n tot s t → t.reads = t.copies.map Span.shift := by
    intro s t hs ht
    rw [ht.reads, ht.copies, if_neg (Nat.pos_iff_ne_zero.mp hs), spans_shift]
  induction h with
  | @last start t lt le part =>
    have htiles := spans_part_tiles lt hn
    rw [part_of_le_pages le, Nat.add_sub_cancel' (Nat.le_of_lt lt)] at htiles
    simp only [List.flatMap_cons, List.flatMap_nil, List.append_nil]
    exact ⟨part.copies ▸ htiles, hreads hpos part⟩
  | @more start t l lt part rest ih =>
    have hlt : start < tot := by omega
    have htiles := spans_part_tiles hlt hn
    rw [part_of_not_le (Nat.not_le.mpr lt)] at htiles
    obtain ⟨hrest, hshift⟩ := ih (by omega)
    simp only [List.flatMap_cons, List.map_append]
    exact ⟨(part.copies ▸ htiles).append hrest, by rw [hreads hpos part, hshift]⟩

/-- The copies tile the object. The reads do, and agree with the copies, exactly when there is only
one part. -/
theorem ranges_iff (hn : 0 < n) (h : Parts (pageBytes * n) tot (GetPart n tot) 0 log) :
    Tiles 0 tot (log.flatMap (·.copies)) ∧
      (Tiles 0 tot (log.flatMap (·.reads)) ∧
        log.flatMap (·.copies) = log.flatMap (·.reads) ↔ tot ≤ pageBytes * n) := by
  have hfirst : ∀ {t}, GetPart n tot 0 t → t.reads = t.copies := by
    intro t ht
    rw [ht.reads, ht.copies, if_pos rfl]
  cases h with
  | @last _ t lt le part =>
    have htiles := spans_part_tiles lt hn
    rw [part_of_le_pages le, Nat.add_sub_cancel' (Nat.le_of_lt lt), ← part.copies] at htiles
    rw [List.flatMap_cons, List.flatMap_cons, hfirst part]
    simp only [List.flatMap_nil, List.append_nil]
    exact ⟨htiles, fun _ => le, fun _ => ⟨htiles, trivial⟩⟩
  | @more _ t l lt part rest =>
    have hlt : 0 < tot := by omega
    have htiles := spans_part_tiles hlt hn
    rw [part_of_not_le (Nat.not_le.mpr lt), ← part.copies] at htiles
    have hnext : 0 < 0 + pageBytes * n := Nat.add_pos_right 0 (Nat.mul_pos (by decide) hn)
    obtain ⟨hrest, hshift⟩ := later_parts hn hnext rest
    simp only [List.flatMap_cons, hfirst part]
    refine ⟨htiles.append hrest, fun hall => ?_, fun hle => by omega⟩
    have hreads := htiles.of_append hall.1
    rw [hshift] at hreads
    exact absurd hreads (hrest.not_shift (by omega))

/-- A page-in into an entry that is not empty, in an idle world where the file can be opened, ends, and
the ranges that Xen copies tile the entry. The ranges that the daemon reads tile the object, and are
copied to where they were read, exactly when the object fits the shared pages. -/
theorem get_ranges_tile_iff (hn : 1 ≤ n) (hidle : x.Idle)
    (hopen : (x.entry addr).domain ≠ 0 ∨ x.disk.dir0 = true)
    (hpos : 0 < (x.entry addr).size) (hsize : (x.entry addr).size < 2 ^ 32) {fuel : Nat}
    (hfuel : (x.entry addr).size / (pageBytes * n) + 2 ≤ fuel) :
    ∃ log z, getLog n fuel addr x = some (log, z) ∧ z.Idle ∧
      Tiles 0 (x.entry addr).size (log.flatMap (·.copies)) ∧
      (Tiles 0 (x.entry addr).size (log.flatMap (·.reads)) ∧
        log.flatMap (·.copies) = log.flatMap (·.reads) ↔
          (x.entry addr).size ≤ pageBytes * n) := by
  have hbytes : 0 < pageBytes * n := Nat.mul_pos (by decide) hn
  rw [← totsize_eq hsize] at hpos hfuel ⊢
  obtain ⟨y, req, hin, hkept, hstart⟩ := minfPageIn_spec (n := n) hidle hopen
  obtain ⟨log, z, hlog, hparts, hdone⟩ : ∃ log z, driveLog n (getTurn n) fuel y = some (log, z) ∧
      Parts (pageBytes * n) (x.entry addr).totsize (GetPart n (x.entry addr).totsize) 0 log ∧
      GetDone n (x.entry addr) addr x z := by
    refine driveLog_parts (I := fun s w => GetKept x w ∧ ∃ m, Asking n (x.entry addr) addr w m s)
      ?_ _ ⟨hkept, req, hstart⟩ hpos (Nat.le_of_lt (Nat.lt_mul_div_succ _ hbytes)) hfuel
    rintro s w ⟨hw, m, hs⟩ hlt
    obtain ⟨u, v, hu, hv, ⟨hreqs, rsp, hrsps, hrsp⟩, hend⟩ := hs.round hn
    have hpart := hs.getPart hlt hn hreqs hrsps hrsp
    rcases hend with ⟨hend, hdone⟩ | ⟨hmore, hk, m', hs'⟩
    · exact ⟨m, u, v, hs.requests, hu, hv, hpart, .inl ⟨hend, hdone.requests, hw.done hdone⟩⟩
    · exact ⟨m, u, v, hs.requests, hu, hv, hpart, .inr ⟨by omega, hw.trans hk, m', hs'⟩⟩
  refine ⟨log, z, ?_, ?_, ranges_iff hn hparts⟩
  · rw [getLog, hin]
    exact hlog
  · exact ⟨hdone.requests, hdone.responses, hdone.putLock.trans hidle.putLock, hdone.getLock⟩

end

/-- An entry of two bytes is read in one range and copied there. -/
theorem get_ranges_small :
    ∃ log z, getLog 1 2 0 (World.quiet ⟨1, 7, 1, 1⟩ oneByte) = some (log, z) ∧
      Tiles 0 2 (log.flatMap (·.reads)) ∧ log.flatMap (·.copies) = log.flatMap (·.reads) := by
  obtain ⟨log, z, hlog, -, -, hiff⟩ := @get_ranges_tile_iff _ 1 0
    (World.quiet ⟨1, 7, 1, 1⟩ oneByte) (Nat.le_refl 1) ⟨rfl, rfl, rfl, rfl⟩ (.inl (by decide))
    (by decide) (by decide) 2 (Nat.le_refl 2)
  exact ⟨log, z, hlog, hiff.mpr (by decide)⟩

/-- An idle world in which the entry at address 0 is stored. -/
def World.stored (mh : Entry) (kv : Nat → Buffer UInt8) : World UInt8 :=
  { World.quiet mh kv with
    disk := (World.quiet mh kv).disk.setFile mh.domain mh.hash (some ((kv 0).bytes 0 mh.totsize)) }

/-- Of an object one byte longer than the shared page, the last byte is asked for behind its end. -/
theorem get_ranges_page_and_byte :
    (World.stored ⟨1, 7, 1, 4096⟩ oneByte).Idle ∧
      (World.stored ⟨1, 7, 1, 4096⟩ oneByte).disk.files 1 7 = some ((oneByte 0).bytes 0 4097) ∧
      ∃ log z, getLog 1 3 1 (World.stored ⟨1, 7, 1, 4096⟩ oneByte) = some (log, z) ∧ z.Idle ∧
        log.flatMap (·.reads) = [⟨0, 4096, 0⟩, ⟨4097, 1, 0⟩] ∧
        log.flatMap (·.copies) = [⟨0, 4096, 0⟩, ⟨4096, 1, 0⟩] := by
  refine ⟨⟨rfl, rfl, rfl, rfl⟩, rfl, _, _, rfl, ⟨rfl, rfl, rfl, rfl⟩, rfl, rfl⟩

end UniCache.Transfer
