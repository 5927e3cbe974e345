import UniCache.Transfer.Faults
import UniCache.Transfer.Handshake

/-! Page-outs of any number of virtual CPUs leave the files that the same page-outs leave when they
are made one after the other, in the order in which they took the lock. -/
namespace UniCache.Transfer
open Base Mcd Buffer

section
variable {β : Type}

/-- The files after the entry at `a` was paged out alone. -/
def World.filed (x : World β) (files : Domid → UInt32 → Option (List β)) (a : Nat) :
    Domid → UInt32 → Option (List β) :=
  if (x.entry a).domain = 0 ∧ ¬ x.disk.dir0 = true then files
  else fun d h =>
    if d = (x.entry a).domain ∧ h = (x.entry a).hash then
      some ((x.keyVal a).bytes 0 (x.entry a).totsize)
    else files d h

/-- The files after page-outs one by one. -/
def World.filedAll (x : World β) (as : List Nat) : Domid → UInt32 → Option (List β) :=
  as.foldl x.filed x.disk.files

/-- The virtual CPUs that have taken the lock, in this order. -/
def begun {ι : Type} (l : List (CrewAct ι)) : List ι :=
  l.filterMap fun
    | .begin i => some i
    | _ => none

variable {n : Nat} {x y z : World β} {as : List Nat} {a : Nat} {m : Msg} {rest : List Msg}

theorem filed_of_not_opens (h : ¬ x.Opens (x.entry a).domain)
    (files : Domid → UInt32 → Option (List β)) : x.filed files a = files := by
  have hcond : (x.entry a).domain = 0 ∧ ¬ x.disk.dir0 = true := by
    simpa [World.Opens] using h
  rw [World.filed, if_pos hcond]

theorem filed_of_opens (h : x.Opens (x.entry a).domain)
    (files : Domid → UInt32 → Option (List β)) (d : Domid) (k : UInt32) :
    x.filed files a d k = if d = (x.entry a).domain ∧ k = (x.entry a).hash then
      some ((x.keyVal a).bytes 0 (x.entry a).totsize) else files d k := by
  have hcond : ¬ ((x.entry a).domain = 0 ∧ ¬ x.disk.dir0 = true) := by
    rintro ⟨h0, hdir⟩
    exact h.elim (fun hne => hne h0) hdir
  rw [World.filed, if_neg hcond]

/-- What the page-outs that have begun in `x` have made of it. -/
inductive Filing (n : Nat) (x : World β) : List Nat → World β → Prop
  | idle {as : List Nat} {y : World β} : y.putLock = false → y.pending .put = ([], []) →
      y.disk.files = x.filedAll as → Filing n x as y
  | moving {as : List Nat} {a : Nat} {y : World β} : x.Opens (x.entry a).domain →
      y.putLock = true → OutSide n (x.entry a) a (x.keyVal a) y true →
      (∀ d h, ¬ (d = (x.entry a).domain ∧ h = (x.entry a).hash) →
        y.disk.files d h = x.filedAll as d h) → Filing n x (as ++ [a]) y
  | asking {as : List Nat} {a : Nat} {y : World β} {m : Msg} : ¬ x.Opens (x.entry a).domain →
      y.putLock = true → y.pending .put = ([m], []) → m.flags.new = true →
      m.domain = (x.entry a).domain → y.disk.files = x.filedAll as → Filing n x (as ++ [a]) y
  | failing {as : List Nat} {a : Nat} {y : World β} {m : Msg} : ¬ x.Opens (x.entry a).domain →
      y.putLock = true → y.pending .put = ([], [m]) → m.flags.error = true →
      y.disk.files = x.filedAll as → Filing n x (as ++ [a]) y

/-- What page-outs never change. -/
structure Unmoved (x y : World β) : Prop where
  entry : y.entry = x.entry
  keyVal : y.keyVal = x.keyVal
  dir0 : y.disk.dir0 = x.disk.dir0
  gets : y.pending .get = ([], [])

theorem Unmoved.step {mh : Entry} (h : Unmoved x y) (hstep : OutStep mh a y z) : Unmoved x z where
  entry := hstep.entry.trans h.entry
  keyVal := hstep.keyVal.trans h.keyVal
  dir0 := hstep.frame.dir0.trans h.dir0
  gets := hstep.pending.trans h.gets

theorem filedAll_concat (as : List Nat) (a : Nat) :
    x.filedAll (as ++ [a]) = x.filed (x.filedAll as) a := by
  simp [World.filedAll]

/-- A page-out that is under way, or over. -/
theorem filing_of_outSide (hopens : x.Opens (x.entry a).domain)
    (hside : OutSide n (x.entry a) a (x.keyVal a) y true)
    (hfiles : ∀ d h, ¬ (d = (x.entry a).domain ∧ h = (x.entry a).hash) →
      y.disk.files d h = x.filedAll as d h) : Filing n x (as ++ [a]) y := by
  cases hlock : y.putLock with
  | true => exact .moving hopens hlock hside hfiles
  | false =>
    rcases hside with _ | ⟨hl, -, -⟩ | ⟨hl, -, -⟩ | ⟨-, hp, hfile⟩
    · exact absurd (hlock.symm.trans hl) Bool.false_ne_true
    · exact absurd (hlock.symm.trans hl) Bool.false_ne_true
    · refine .idle hlock hp ?_
      funext d h
      rw [filedAll_concat, filed_of_opens hopens]
      by_cases hkey : d = (x.entry a).domain ∧ h = (x.entry a).hash
      · rw [if_pos hkey, hkey.1, hkey.2, hfile]
      · rw [if_neg hkey, hfiles d h hkey]

/-- The request a page-out begins with opens the file. -/
theorem minfPageOut_opens (hn : 0 < n) (hring : y.ringFull = false) (hfree : y.putLock = false)
    (a : Nat) : ∃ req, req.op = .put ∧ req.domain = (y.entry a).domain ∧ req.flags.new = true ∧
      minfPageOut n a y =
        some (World.sent n a 0 (y.entry a) req { y with putLock := true }, true) := by
  have hlock : ¬ y.putLock = true := by simp [hfree]
  obtain ⟨req, hout, hreq, hnew⟩ := mcdctlPageOut_spec (x := { y with putLock := true }) (n := n) hn
    hring (rfl : _ = y.entry a) (rfl : 0 = ((none : Option Msg).map (·.accsize)).getD 0)
    (Nat.zero_le _) (Nat.dvd_zero _) (.inl rfl)
  exact ⟨req, hreq.op, hreq.domain, hnew, by simp only [minfPageOut, if_neg hlock, hout]⟩

/-- A page-out begins: what it will file is added at the end. -/
theorem Filing.begin (h : Filing n x as y) (hu : Unmoved x y) (hn : 0 < n)
    (hring : y.ringFull = false) {r : World β × Bool} (hr : minfPageOut n a y = some r) :
    Filing n x (as ++ [a]) r.1 ∧ Unmoved x r.1 := by
  have hfree : y.putLock = false := by
    by_contra hl
    simp only [minfPageOut, if_pos (Bool.eq_true_of_not_eq_false hl)] at hr
    cases hr
  cases h with
  | idle hl hp hfiles =>
    have hready : OutSide n (x.entry a) a (x.keyVal a) y false := .ready hl hp
    obtain ⟨z, hz, hside, hstep⟩ := hready.start hn hring (congrFun hu.entry a)
      (congrFun hu.keyVal a)
    cases hz.symm.trans hr
    have hframe := hstep.frame.files
    by_cases hopens : x.Opens (x.entry a).domain
    · refine ⟨filing_of_outSide hopens hside fun d h hkey => ?_, hu.step hstep⟩
      rw [hframe d h hkey, hfiles]
    · obtain ⟨req, hop, hdomain, hnew, hsent⟩ := minfPageOut_opens hn hring hfree a
      cases hz.symm.trans hsent
      rw [hu.entry] at hdomain
      refine ⟨.asking hopens rfl ?_ hnew hdomain hfiles, hu.step hstep⟩
      simp only [World.pending, Prod.mk.injEq] at hp ⊢
      simp [World.sent, hp, hop]
  | moving _ hl => exact absurd (hfree.symm.trans hl) Bool.false_ne_true
  | asking _ hl => exact absurd (hfree.symm.trans hl) Bool.false_ne_true
  | failing _ hl => exact absurd (hfree.symm.trans hl) Bool.false_ne_true

theorem op_eq_put_of_gets {l : List Msg} (h : l.filter (·.op = .get) = []) (hm : m ∈ l) :
    m.op = .put := by
  cases hop : m.op with
  | put => rfl
  | get =>
    have hmem : m ∈ l.filter (·.op = .get) := by simp [hm, hop]
    rw [h] at hmem
    cases hmem

/-- A new request of a domain whose directory is missing is answered with an error. -/
theorem serve_of_not_opens (hreq : y.requests = m :: rest) (hop : m.op = .put)
    (hnew : m.flags.new = true) (h : ¬ y.Opens m.domain) :
    y.serve n = some { y with
      requests := rest
      responses := y.responses ++
        [{ m with flags := { m.flags with new := false, error := true } }] } := by
  have hcond : m.domain = 0 ∧ ¬ y.disk.dir0 = true := by simpa [World.Opens] using h
  have hfd : y.disk.fdFor m = none := by
    rw [Disk.fdFor, if_pos hnew, Disk.openFile, if_pos hcond]
  simp only [World.serve, hreq, World.answer, hop, servePut, hfd]

/-- An error response ends the exchange. -/
theorem resume_of_error (hrsp : y.responses = m :: rest) (hop : m.op = .put)
    (herror : m.flags.error = true) :
    y.resume n = some { y with responses := rest, putLock := false } := by
  have hne : ¬ m.flags = {} := by
    intro he
    rw [he] at herror
    cases herror
  simp only [World.resume, hrsp, mcdEventResume, if_neg hne, if_pos herror, hop, World.unlock]

theorem Filing.serve (h : Filing n x as y) (hu : Unmoved x y) (hz : y.serve n = some z) :
    Filing n x as z ∧ Unmoved x z := by
  obtain ⟨m, rest, hreq⟩ : ∃ m rest, y.requests = m :: rest := by
    cases hreq : y.requests with
    | nil =>
      simp only [World.serve, hreq] at hz
      cases hz
    | cons m rest => exact ⟨m, rest, rfl⟩
  have hop : m.op = .put :=
    op_eq_put_of_gets (congrArg Prod.fst hu.gets) (by rw [hreq]; exact List.mem_cons_self ..)
  have hfirst : (y.pending .put).1 = m :: rest.filter (·.op = .put) := by
    simp [World.pending, hreq, hop]
  cases h with
  | idle _ hp =>
    rw [hp] at hfirst
    cases hfirst
  | @moving as a y hopens hl hside hfiles =>
    have hdir : (x.entry a).domain ≠ 0 ∨ y.disk.dir0 = true := by
      rw [hu.dir0]
      exact hopens
    obtain ⟨z', hz', hside', hstep⟩ := hside.serve hreq hop hdir
    cases hz'.symm.trans hz
    refine ⟨filing_of_outSide hopens hside' fun d k hkey => ?_, hu.step hstep⟩
    rw [hstep.frame.files d k hkey, hfiles d k hkey]
  | @asking as a y m' hopens hl hp hnew hdomain hfiles =>
    rw [hp] at hfirst
    obtain ⟨hm, hrest⟩ := List.cons.inj hfirst
    subst hm
    have hnot : ¬ y.Opens m'.domain := by
      rw [World.Opens, hu.dir0, hdomain]
      exact hopens
    have hgets := hu.gets
    cases (serve_of_not_opens hreq hop hnew hnot).symm.trans hz
    have hnone : y.responses.filter (·.op = .put) = [] := congrArg Prod.snd hp
    refine ⟨.failing (m := { m' with flags := { m'.flags with new := false, error := true } })
      hopens hl ?_ rfl hfiles, hu.entry, hu.keyVal, hu.dir0, ?_⟩
    · simp [World.pending, ← hrest, hnone, hop]
    · simpa [World.pending, hreq, hop] using hgets
  | failing _ _ hp =>
    rw [hp] at hfirst
    cases hfirst

theorem Filing.resume (h : Filing n x as y) (hu : Unmoved x y) (hn : 0 < n)
    (hmsg : y.requests.length + y.responses.length ≤ 2) (hz : y.resume n = some z) :
    Filing n x as z ∧ Unmoved x z := by
  obtain ⟨m, rest, hrsp⟩ : ∃ m rest, y.responses = m :: rest := by
    cases hrsp : y.responses with
    | nil =>
      simp only [World.resume, hrsp] at hz
      cases hz
    | cons m rest => exact ⟨m, rest, rfl⟩
  have hop : m.op = .put :=
    op_eq_put_of_gets (congrArg Prod.snd hu.gets) (by rw [hrsp]; exact List.mem_cons_self ..)
  have hring : ({ y with responses := rest } : World β).ringFull = false := by
    rw [hrsp, List.length_cons] at hmsg
    exact ringFull_of_le (by simp only; omega)
  have hfirst : (y.pending .put).2 = m :: rest.filter (·.op = .put) := by
    simp [World.pending, hrsp, hop]
  cases h with
  | idle _ hp =>
    rw [hp] at hfirst
    cases hfirst
  | @moving as a y hopens hl hside hfiles =>
    obtain ⟨z', hz', hside', hstep⟩ := hside.resume hn hrsp hop hring (congrFun hu.entry a)
      (congrFun hu.keyVal a)
    cases hz'.symm.trans hz
    refine ⟨filing_of_outSide hopens hside' fun d k hkey => ?_, hu.step hstep⟩
    rw [hstep.frame.files d k hkey, hfiles d k hkey]
  | asking _ _ hp =>
    rw [hp] at hfirst
    cases hfirst
  | @failing as a y m' hopens hl hp herror hfiles =>
    rw [hp] at hfirst
    obtain ⟨hm, hrest⟩ := List.cons.inj hfirst
    subst hm
    have hgets := hu.gets
    cases (resume_of_error hrsp hop herror).symm.trans hz
    have hnone : y.requests.filter (·.op = .put) = [] := congrArg Prod.fst hp
    refine ⟨.idle rfl ?_ ?_, hu.entry, hu.keyVal, hu.dir0, ?_⟩
    · simp [World.pending, ← hrest, hnone]
    · rw [filedAll_concat, filed_of_not_opens hopens]
      exact hfiles
    · simpa [World.pending, hrsp, hop] using hgets

end

section
variable {β ι : Type} {n : Nat} {job : ι → Job} {x : World β} {p q : Crew ι β}
  {pre : List (CrewAct ι)} {act : CrewAct ι}

theorem begun_begin (l : List (CrewAct ι)) (i : ι) : begun (l ++ [.begin i]) = begun l ++ [i] := by
  simp [begun]

theorem begun_of_not_begin (l : List (CrewAct ι)) (h : ∀ i, act ≠ .begin i) :
    begun (l ++ [act]) = begun l := by
  cases act with
  | begin i => exact absurd rfl (h i)
  | wake | serve | resume => simp [begun]

/-- What holds after a run of page-outs: the turnstile, who has begun, and the files. -/
structure Serial (n : Nat) (job : ι → Job) (x : World β) (l : List (CrewAct ι)) (p : Crew ι β) :
    Prop where
  lanes : ∃ g, Crew.Shows n x.entry job p g
  filing : Filing n x ((begun l).map fun i => (job i).addr) p.world
  unmoved : Unmoved x p.world
  nodup : (begun l).Nodup
  mem_begun : ∀ i, i ∈ begun l ↔ p.phase i ≠ .calling

theorem serial_start (hx : x.Calm) : Serial n job x [] (Crew.start x) where
  lanes := ⟨_, shows_start hx⟩
  filing := .idle (hx.locked .put)
    (by simp [World.pending, Crew.start, hx.requests, hx.responses]) rfl
  unmoved := ⟨rfl, rfl, rfl, by simp [World.pending, Crew.start, hx.requests, hx.responses]⟩
  nodup := List.nodup_nil
  mem_begun i := by simp [begun, Crew.start]

/-- The other steps begin nothing. -/
theorem Serial.go_on (h : Serial n job x pre p) (hlanes : ∃ g, Crew.Shows n x.entry job q g)
    (hact : ∀ i, act ≠ .begin i) (hphase : ∀ i, q.phase i = .calling ↔ p.phase i = .calling)
    (hfiling : Filing n x ((begun pre).map fun i => (job i).addr) q.world)
    (hunmoved : Unmoved x q.world) : Serial n job x (pre ++ [act]) q := by
  have hbegun := begun_of_not_begin pre hact
  refine ⟨hlanes, ?_, hunmoved, ?_, fun i => ?_⟩
  · rw [hbegun]
    exact hfiling
  · rw [hbegun]
    exact h.nodup
  · rw [hbegun, h.mem_begun i, Ne, Ne, hphase i]

variable [DecidableEq ι]

theorem Serial.begin {i : ι} (h : Serial n job x pre p) (hn : 0 < n) (hput : (job i).op = .put)
    (hstep : p.step n job (.begin i) = some q) : Serial n job x (pre ++ [.begin i]) q := by
  obtain ⟨g, hg⟩ := h.lanes
  obtain ⟨g', -, hg'⟩ := hg.step hn hstep
  simp only [Crew.step, Option.ite_none_right_eq_some, Option.map_eq_some_iff] at hstep
  obtain ⟨hcall, r, hr, rfl⟩ := hstep
  have hout : minfPageOut n (job i).addr p.world = some r := by
    simpa only [Job.start, hput] using hr
  obtain ⟨hfiling, hunmoved⟩ :=
    h.filing.begin h.unmoved hn (ringFull_of_le (messages_le hg.lane)) hout
  have hnew : i ∉ begun pre := fun hi => (h.mem_begun i).mp hi hcall
  refine ⟨⟨g', hg'⟩, ?_, hunmoved, ?_, fun j => ?_⟩
  · rw [begun_begin, List.map_append]
    exact hfiling
  · rw [begun_begin, ← List.concat_eq_append]
    exact h.nodup.concat hnew
  · rw [begun_begin, List.mem_append, List.mem_singleton]
    by_cases hj : j = i
    · subst hj
      simp only [Function.update_self, or_true, true_iff]
      cases r.2 <;> simp
    · simp only [hj, or_false, Function.update_of_ne hj, h.mem_begun j]

theorem Serial.step (h : Serial n job x pre p) (hn : 0 < n) (hput : ∀ i, (job i).op = .put)
    (hstep : p.step n job act = some q) : Serial n job x (pre ++ [act]) q := by
  obtain ⟨g, hg⟩ := h.lanes
  obtain ⟨g', -, hg'⟩ := hg.step hn hstep
  cases act with
  | begin i => exact h.begin hn (hput i) hstep
  | wake i =>
    simp only [Crew.step, Option.ite_none_right_eq_some, Option.some.injEq] at hstep
    obtain ⟨⟨hwait, -⟩, rfl⟩ := hstep
    refine h.go_on ⟨g', hg'⟩ (fun _ he => by cases he) (fun j => ?_) h.filing h.unmoved
    by_cases hj : j = i
    · subst hj
      simp [hwait]
    · simp only [Function.update_of_ne hj]
  | serve =>
    obtain ⟨z, hz, rfl⟩ := Option.map_eq_some_iff.mp hstep
    obtain ⟨hfiling, hunmoved⟩ := h.filing.serve h.unmoved hz
    exact h.go_on ⟨g', hg'⟩ (fun _ he => by cases he) (fun _ => Iff.rfl) hfiling hunmoved
  | resume =>
    obtain ⟨z, hz, rfl⟩ := Option.map_eq_some_iff.mp hstep
    obtain ⟨hfiling, hunmoved⟩ := h.filing.resume h.unmoved hn (messages_le hg.lane) hz
    exact h.go_on ⟨g', hg'⟩ (fun _ he => by cases he) (fun _ => Iff.rfl) hfiling hunmoved

/-- The files at any time, but for the one that is being written. -/
theorem Filing.files {as : List Nat} {y : World β} (h : Filing n x as y) (d : Domid) (k : UInt32)
    (hother : y.putLock = true → ∀ a, as.getLast? = some a →
      ¬ (d = (x.entry a).domain ∧ k = (x.entry a).hash)) :
    y.disk.files d k = x.filedAll as d k := by
  cases h with
  | idle _ _ hfiles => rw [hfiles]
  | @moving as a y hopens hl _ hfiles =>
    have hkey := hother hl a (List.getLast?_concat ..)
    rw [filedAll_concat, filed_of_opens hopens, if_neg hkey, hfiles d k hkey]
  | asking hopens _ _ _ _ hfiles => rw [filedAll_concat, filed_of_not_opens hopens, hfiles]
  | failing hopens _ _ _ hfiles => rw [filedAll_concat, filed_of_not_opens hopens, hfiles]

/-- Page-outs in any interleaving of their steps: each virtual CPU that is past its call has taken
the lock once, and the files are those of the page-outs one by one, in the order of the lock, but
for the file of the last one while the lock is taken. A page-out whose file cannot be opened leaves
no trace. -/
theorem pageOuts_serialize {l : List (CrewAct ι)} (hn : 0 < n) (hx : x.Calm)
    (hput : ∀ i, (job i).op = .put) (hrun : Crew.Runs n job (Crew.start x) l p) :
    (begun l).Nodup ∧ (∀ i, i ∈ begun l ↔ p.phase i ≠ .calling) ∧ p.world.keyVal = x.keyVal ∧
    ∀ d k, (p.world.putLock = true → ∀ i, (begun l).getLast? = some i →
        ¬ (d = (x.entry (job i).addr).domain ∧ k = (x.entry (job i).addr).hash)) →
      p.world.disk.files d k = x.filedAll ((begun l).map fun i => (job i).addr) d k := by
  have h : Serial n job x ([] ++ l) p := hrun.invariant_history
    (fun hs hstep => Serial.step hs hn hput hstep) [] (serial_start hx)
  rw [List.nil_append] at h
  refine ⟨h.nodup, h.mem_begun, h.unmoved.keyVal, fun d k hother => h.filing.files d k ?_⟩
  intro hl a ha
  rw [List.getLast?_map, Option.map_eq_some_iff] at ha
  obtain ⟨i, hi, rfl⟩ := ha
  exact hother hl i hi

end

/-- The second page-out begins before the first virtual CPU has looked at the lock again. -/
def secondUnderWay : List (CrewAct (Fin 2)) := [.begin 0, .serve, .resume, .begin 1, .serve]

theorem pageOuts_serialize_under_way :
    ∃ p, Crew.Runs 1 (fun i : Fin 2 => ⟨.put, i⟩) (Crew.start World.two) secondUnderWay p ∧
      p.world.putLock = true ∧ p.world.disk.files 1 7 = some [1, 2] := by
  have hrun : (secondUnderWay.foldlM (Crew.step 1 fun i : Fin 2 => ⟨.put, i⟩)
      (Crew.start World.two)).map (fun p => p.world.putLock) = some true := by decide +kernel
  obtain ⟨p, hp, hlock⟩ := Option.map_eq_some_iff.mp hrun
  have hruns : Crew.Runs 1 (fun i : Fin 2 => ⟨.put, i⟩) (Crew.start World.two) secondUnderWay p :=
    Trace.of_foldlM hp
  obtain ⟨-, -, -, hfiles⟩ := pageOuts_serialize Nat.one_pos calm_two (fun _ => rfl) hruns
  refine ⟨p, hruns, hlock, (hfiles 1 7 fun _ i hi => ?_).trans (by decide +kernel)⟩
  obtain rfl : (1 : Fin 2) = i := Option.some.inj hi
  decide

end UniCache.Transfer
