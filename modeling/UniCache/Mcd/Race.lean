import Mathlib.Data.Fintype.EquivFin
import UniCache.Base.Trace
import UniCache.Mcd.Operations
import UniCache.Mcd.Tiers

/-! Two operations on one hash in shared mode, interleaved. Every section under a lock and every
lookup in a list is one step; between its steps an operation keeps only the pointers it has found.
What is modelled is the bucket of the hash, with outsourcing on. -/
namespace UniCache.Mcd.Race
open Base

inductive Op
  | put | get | remove
  deriving DecidableEq

/-- Where an operation stands, with the pointers it holds. -/
inductive Pc
  /-- before `find_mcd_hashT` -/
  | start
  /-- `find_mcd_hashT` returned the entry at `addr` and the bucket is unlocked again -/
  | found (addr : Nat)
  /-- before `find_mcdctl_hashT` -/
  | missed
  | header (mch : McdctlHashT)
  /-- in `create_mcd_hashT`, for the page-in of a header or for a new value -/
  | create (mch : Option McdctlHashT)
  /-- in `mcd_page_in` after the transfer -/
  | paged (mch : McdctlHashT) (mh : McdHashT)
  /-- before `list_add_tail` -/
  | link (mh : McdHashT)
  | done
  deriving DecidableEq

/-- What both operations see of the bucket. -/
structure Shared where
  entries : List McdHashT
  headers : List McdctlHashT
  /-- Addresses of entries whose `magic` is intact. -/
  live : List Nat
  /-- An entry or a header that is in no list has been removed or freed. -/
  fault : Bool

/-- How `create_mcd_hashT` goes on: the reclaim takes an entry of the bucket, with its header
when it is paged out; or memory is granted; or the creation fails. -/
inductive Creation
  | evict (mh : McdHashT) (header : Option (Nat × Nat))
  | grant (mh : McdHashT)
  | refuse
  deriving DecidableEq

/-- `s_remove_hashT` of the entry at `addr`. The routine looks at `magic` first, which is cleared
when an entry is freed; memory that is given out again has a new one. -/
def Shared.sRemoveHashT (b : Shared) (addr : Nat) : Shared :=
  if addr ∈ b.live then
    { b with
      entries := b.entries.filter (·.addr ≠ addr)
      live := b.live.filter (· ≠ addr)
      fault := b.fault || b.entries.all (·.addr ≠ addr) }
  else b

/-- `mcdctl_free`, which does not look at the header it frees. -/
def Shared.mcdctlFree (b : Shared) (mch : McdctlHashT) : Shared :=
  { b with
    headers := b.headers.erase mch
    fault := b.fault || !b.headers.contains mch }

def Shared.listAddTail (b : Shared) (mh : McdHashT) : Shared :=
  { b with entries := b.entries ++ [mh] }

/-- `mcd_page_out`, when it makes a header. -/
def Shared.addHeader (b : Shared) (mh : McdHashT) (header : Option (Nat × Nat)) : Shared :=
  { b with headers := b.headers ++ (header.map fun p => mh.header p.1 p.2).toList }

def Shared.malloc (b : Shared) (mh : McdHashT) : Shared := { b with live := mh.addr :: b.live }

/-- Where an operation goes on with the entry it has created. -/
def Pc.created (mh : McdHashT) : Option McdctlHashT → Pc
  | none => .link mh
  | some mch => .paged mch mh

/-- Where an operation goes on when the hash is in neither list. -/
def Op.afterMiss : Op → Pc
  | .put => .create none
  | .get | .remove => .done

section
variable (hash : UInt32)

/-- One step of `create_mcd_hashT`, started for `mch`. -/
def Shared.creation (b : Shared) (mch : Option McdctlHashT) : Creation → Option (Pc × Shared)
  | .evict mh header =>
    if mh ∈ b.entries then some (.create mch, (b.sRemoveHashT mh.addr).addHeader mh header)
    else none
  | .grant mh =>
    if mh.hash = hash ∧ mh.addr ∉ b.live then some (.created mh mch, b.malloc mh) else none
  | .refuse => some (.done, b)

/-- One step of an operation on `hash`; `x` is read by the creation of an entry only. -/
def Op.step (o : Op) (x : Creation) (b : Shared) : Pc → Option (Pc × Shared)
  | .start =>
    match findMcdHashT hash b.entries with
    | some mh => some (.found mh.addr, b)
    | none => some (.missed, b)
  | .found addr =>
    match o with
    | .put => some (.create none, b.sRemoveHashT addr)
    | .get => some (.done, b)
    | .remove => some (.done, b.sRemoveHashT addr)
  | .missed =>
    match b.headers.find? (·.hash = hash) with
    | some mch => some (.header mch, b)
    | none => some (o.afterMiss, b)
  | .header mch =>
    match o with
    | .put => some (.create none, b.mcdctlFree mch)
    | .get => some (.create (some mch), b)
    | .remove => some (.done, b.mcdctlFree mch)
  | .create mch => b.creation hash mch x
  | .paged mch mh => some (.link mh, b.mcdctlFree mch)
  | .link mh => some (.done, b.listAddTail mh)
  | .done => none

end

structure Thread where
  op : Op
  pc : Pc

structure Config where
  shared : Shared
  thread : Bool → Thread

/-- Neither operation has begun. -/
def Config.start (b : Shared) (o : Bool → Op) : Config where
  shared := b
  thread i := ⟨o i, .start⟩

/-- One of the two takes its next step. -/
def Config.step (hash : UInt32) (q : Config) (e : Bool × Creation) : Option Config :=
  ((q.thread e.1).op.step hash e.2 q.shared (q.thread e.1).pc).map fun r =>
    { shared := r.2
      thread := Function.update q.thread e.1 ⟨(q.thread e.1).op, r.1⟩ }

def Config.Step (hash : UInt32) (q : Config) (e : Bool × Creation) (q' : Config) : Prop :=
  q.step hash e = some q'

def Config.Finished (q : Config) : Prop := ∀ i, (q.thread i).pc = .done

/-- How often a hash occurs over the two tiers. -/
def Shared.occurs (hash : UInt32) (b : Shared) : Nat :=
  b.entries.countP (·.hash = hash) + b.headers.countP (·.hash = hash)

/-- A state two operations may start in. -/
structure Shared.Start (hash : UInt32) (b : Shared) : Prop where
  nodup : (b.entries.map (·.addr)).Nodup
  live : ∀ mh ∈ b.entries, mh.addr ∈ b.live
  fault : b.fault = false
  occurs : b.occurs hash ≤ 1

/-- The hash has no entry in memory. -/
def Shared.NoEntry (hash : UInt32) (b : Shared) : Prop := ∀ mh ∈ b.entries, mh.hash ≠ hash

/-- The hash is not outsourced. -/
def Shared.NoHeader (hash : UInt32) (b : Shared) : Prop := ∀ mch ∈ b.headers, mch.hash ≠ hash

def Shared.Linked (b : Shared) (addr : Nat) : Prop := ∃ mh ∈ b.entries, mh.addr = addr

/-- What holds of the bucket while nothing has gone wrong. -/
structure Shared.Sound (hash : UInt32) (b : Shared) : Prop where
  nodup : (b.entries.map (·.addr)).Nodup
  live : ∀ mh ∈ b.entries, mh.addr ∈ b.live
  fault : b.fault = false
  once : b.entries.countP (·.hash = hash) ≤ 1
  headers : b.NoHeader hash

theorem eq_of_countP_le_one {α : Type} {p : α → Bool} {l : List α} (h : l.countP p ≤ 1) {a b : α}
    (ha : a ∈ l) (hb : b ∈ l) (hpa : p a) (hpb : p b) : a = b := by
  rw [List.countP_eq_length_filter] at h
  have ha' : a ∈ l.filter p := List.mem_filter.mpr ⟨ha, hpa⟩
  have hb' : b ∈ l.filter p := List.mem_filter.mpr ⟨hb, hpb⟩
  generalize l.filter p = m at *
  match m, h with
  | [x], _ => rw [List.mem_singleton.mp ha', List.mem_singleton.mp hb']

section
variable {hash : UInt32} {b : Shared} {addr : Nat}

theorem countP_eq_zero_of_noEntry (h : b.NoEntry hash) : b.entries.countP (·.hash = hash) = 0 :=
  List.countP_eq_zero.mpr fun mh hmh => by simpa using h mh hmh

theorem mem_sRemoveHashT {mh : McdHashT} (h : mh ∈ (b.sRemoveHashT addr).entries) :
    mh ∈ b.entries := by
  unfold Shared.sRemoveHashT at h
  split at h
  · exact List.mem_of_mem_filter h
  · exact h

@[simp] theorem headers_sRemoveHashT : (b.sRemoveHashT addr).headers = b.headers := by
  unfold Shared.sRemoveHashT
  split <;> rfl

/-- A removal is harmless if what it removes is linked whenever its memory is in use. -/
theorem Shared.Sound.remove (hb : b.Sound hash) (ha : addr ∈ b.live → b.Linked addr) :
    (b.sRemoveHashT addr).Sound hash := by
  by_cases hin : addr ∈ b.live
  · obtain ⟨mh, hmh, haddr⟩ := ha hin
    have hsub : (b.entries.filter (·.addr ≠ addr)).Sublist b.entries := List.filter_sublist
    unfold Shared.sRemoveHashT
    rw [if_pos hin]
    exact
      { nodup := hb.nodup.sublist (hsub.map _)
        live := fun x hx => by
          obtain ⟨hx, hne⟩ := List.mem_filter.mp hx
          exact List.mem_filter.mpr ⟨hb.live x hx, hne⟩
        fault := by
          have hany : b.entries.all (·.addr ≠ addr) = false :=
            List.all_eq_false.mpr ⟨mh, hmh, by simpa using haddr⟩
          simp only [hb.fault, hany, Bool.or_false]
        once := (hsub.countP_le).trans hb.once
        headers := hb.headers }
  · have hsame : b.sRemoveHashT addr = b := if_neg hin
    rw [hsame]
    exact hb

/-- Removing the only entry a hash can have leaves none, also when it was already freed. -/
theorem Shared.Sound.noEntry_remove (hb : b.Sound hash)
    (honly : ∀ mh ∈ b.entries, mh.hash = hash → mh.addr = addr) :
    (b.sRemoveHashT addr).NoEntry hash := by
  intro mh hmh heq
  have hin := mem_sRemoveHashT hmh
  have haddr := honly mh hin heq
  have hlive := hb.live mh hin
  rw [haddr] at hlive
  unfold Shared.sRemoveHashT at hmh
  rw [if_pos hlive] at hmh
  have hne : mh.addr ≠ addr := by simpa using (List.mem_filter.mp hmh).2
  exact hne haddr

theorem Shared.Sound.evict (hb : b.Sound hash) {mh : McdHashT} (hmh : mh ∈ b.entries)
    (hno : b.NoEntry hash) (header : Option (Nat × Nat)) :
    ((b.sRemoveHashT mh.addr).addHeader mh header).Sound hash := by
  have hr : (b.sRemoveHashT mh.addr).Sound hash := hb.remove fun _ => ⟨mh, hmh, rfl⟩
  refine ⟨hr.nodup, hr.live, hr.fault, hr.once, fun mch hmch => ?_⟩
  rcases List.mem_append.mp hmch with hold | hnew
  · exact hr.headers mch hold
  · cases header with
    | none => simp at hnew
    | some p =>
      have hmake : mch = mh.header p.1 p.2 := by simpa using hnew
      rw [hmake]
      exact hno mh hmh

theorem Shared.Sound.malloc (hb : b.Sound hash) (mh : McdHashT) : (b.malloc mh).Sound hash :=
  ⟨hb.nodup, fun x hx => List.mem_cons_of_mem _ (hb.live x hx), hb.fault, hb.once, hb.headers⟩

theorem Shared.Sound.link (hb : b.Sound hash) {mh : McdHashT} (hno : b.NoEntry hash)
    (hlive : mh.addr ∈ b.live) (hfree : ¬ b.Linked mh.addr) : (b.listAddTail mh).Sound hash where
  nodup := by
    show ((b.entries ++ [mh]).map (·.addr)).Nodup
    rw [List.map_append, List.nodup_append]
    refine ⟨hb.nodup, List.nodup_singleton _, ?_⟩
    intro a ha c hc heq
    obtain ⟨x, hx, rfl⟩ := List.mem_map.mp ha
    have hce : c = mh.addr := by simpa using hc
    exact hfree ⟨x, hx, heq.trans hce⟩
  live x hx := by
    rcases List.mem_append.mp hx with hx | hx
    · exact hb.live x hx
    · rw [List.mem_singleton.mp hx]
      exact hlive
  fault := hb.fault
  once := by
    show (b.entries ++ [mh]).countP (·.hash = hash) ≤ 1
    rw [List.countP_append, countP_eq_zero_of_noEntry hno]
    have := List.countP_le_length (p := fun x : McdHashT => decide (x.hash = hash)) (l := [mh])
    simpa using this
  headers := hb.headers

end

/-- What an operation may rely on, next to `u`, when the two do not disturb each other. -/
def Thread.Ok (hash : UInt32) (b : Shared) (t u : Thread) : Prop :=
  match t.pc with
  | .start => t.op = .put → u.op = .remove → b.NoEntry hash
  | .found addr =>
    (t.op ≠ .get → addr ∈ b.live → b.Linked addr) ∧
    (t.op = .put → u.op ≠ .remove ∧ ∀ mh ∈ b.entries, mh.hash = hash → mh.addr = addr) ∧
    (t.op = .remove → u.op = .put → u.pc = .done)
  | .missed => t.op = .put → b.NoEntry hash
  | .create mch => mch = none ∧ t.op = .put ∧ b.NoEntry hash
  | .link mh => t.op = .put ∧ b.NoEntry hash ∧ mh.addr ∈ b.live ∧ ¬ b.Linked mh.addr
  | .header _ | .paged _ _ => False
  | .done => True

/-- Linked entries may have left the bucket; nothing else has changed. -/
structure Shared.Less (b b' : Shared) : Prop where
  entries : ∀ mh ∈ b'.entries, mh ∈ b.entries
  live : ∀ a ∈ b'.live, a ∈ b.live
  linked : ∀ a ∈ b'.live, b.Linked a → b'.Linked a
  unlinked : ∀ a ∈ b.live, ¬ b.Linked a → a ∈ b'.live

theorem less_refl (b : Shared) : b.Less b :=
  ⟨fun _ h => h, fun _ h => h, fun _ _ h => h, fun _ h _ => h⟩

section
variable {hash : UInt32} {b b' : Shared} {t u : Thread} {pc : Pc} {x : Creation}

theorem less_remove {addr : Nat} (ha : addr ∈ b.live → b.Linked addr) :
    b.Less (b.sRemoveHashT addr) := by
  by_cases hin : addr ∈ b.live
  · unfold Shared.sRemoveHashT
    rw [if_pos hin]
    exact
      { entries := fun mh hmh => List.mem_of_mem_filter hmh
        live := fun a hmem => List.mem_of_mem_filter hmem
        linked := fun a hmem hlink => by
          obtain ⟨mh, hmh, rfl⟩ := hlink
          exact ⟨mh, List.mem_filter.mpr ⟨hmh, (List.mem_filter.mp hmem).2⟩, rfl⟩
        unlinked := fun a hmem hno => by
          have hne : a ≠ addr := fun heq => hno (heq ▸ ha hin)
          exact List.mem_filter.mpr ⟨hmem, by simpa using hne⟩ }
  · have hsame : b.sRemoveHashT addr = b := if_neg hin
    rw [hsame]
    exact less_refl b

theorem Shared.Less.noEntry (hl : b.Less b') (h : b.NoEntry hash) : b'.NoEntry hash :=
  fun mh hmh => h mh (hl.entries mh hmh)

theorem Shared.Less.not_linked (hl : b.Less b') {addr : Nat} (h : ¬ b.Linked addr) :
    ¬ b'.Linked addr := fun ⟨mh, hmh, ha⟩ => h ⟨mh, hl.entries mh hmh, ha⟩

/-- What `u` relies on survives a step of `t` that at most removes linked entries. -/
theorem Thread.Ok.of_less (hu : u.Ok hash b t) (ht : t.pc ≠ .done) (hl : b.Less b') :
    u.Ok hash b' ⟨t.op, pc⟩ := by
  unfold Thread.Ok at hu ⊢
  cases hpc : u.pc <;> simp only [hpc] at hu ⊢
  case start => exact fun hput hrem => hl.noEntry (hu hput hrem)
  case found addr =>
    obtain ⟨hlink, honly, hdone⟩ := hu
    refine ⟨fun hop hlive => ?_, fun hop => ?_, fun hop hput => (ht (hdone hop hput)).elim⟩
    · exact hl.linked addr hlive (hlink hop (hl.live addr hlive))
    · exact ⟨(honly hop).1, fun mh hmh => (honly hop).2 mh (hl.entries mh hmh)⟩
  case missed => exact fun hput => hl.noEntry (hu hput)
  case create mch => exact ⟨hu.1, hu.2.1, hl.noEntry hu.2.2⟩
  case link mh =>
    obtain ⟨hput, hno, hlive, hfree⟩ := hu
    exact ⟨hput, hl.noEntry hno, hl.unlinked _ hlive hfree, hl.not_linked hfree⟩

/-- Whatever a `put` does, an operation next to it that is not a `put` relies on nothing it can
disturb. -/
theorem Thread.Ok.of_put (hu : u.Ok hash b t) (ht : t.pc ≠ .done) (hput : t.op = .put)
    (hop : u.op ≠ .put) : u.Ok hash b' ⟨t.op, pc⟩ := by
  unfold Thread.Ok at hu ⊢
  cases hpc : u.pc <;> simp only [hpc] at hu ⊢
  case start => exact fun h => (hop h).elim
  case found addr =>
    obtain ⟨-, -, hdone⟩ := hu
    have hrem : u.op ≠ .remove := fun h => ht (hdone h hput)
    have hget : u.op = .get := by
      cases h : u.op with
      | put => exact (hop h).elim
      | get => rfl
      | remove => exact (hrem h).elim
    exact ⟨fun h => (h hget).elim, fun h => (hop h).elim, fun h => (hrem h).elim⟩
  case missed => exact fun h => (hop h).elim
  case create mch => exact (hop hu.2.1).elim
  case link mh => exact (hop hu.1).elim

/-- The two operations do not disturb each other. -/
structure Undisturbed (hash : UInt32) (b : Shared) (t u : Thread) : Prop where
  sound : b.Sound hash
  mine : t.Ok hash b u
  other : u.Ok hash b t
  apart : ¬ (t.op = .put ∧ u.op = .put)

/-- A lookup in memory. -/
theorem Undisturbed.look (h : Undisturbed hash b t u) (hpc : t.pc = .start)
    (hstep : t.op.step hash x b .start = some (pc, b')) : Undisturbed hash b' ⟨t.op, pc⟩ u := by
  have hne : t.pc ≠ .done := by rw [hpc]; simp
  have hmine := h.mine
  unfold Thread.Ok at hmine
  simp only [hpc] at hmine
  unfold Op.step at hstep
  cases hfind : findMcdHashT hash b.entries with
  | some mh =>
    simp only [hfind, Option.some.injEq, Prod.mk.injEq] at hstep
    obtain ⟨rfl, rfl⟩ := hstep
    have hmem : mh ∈ b.entries := List.mem_of_find?_eq_some hfind
    have hhash : mh.hash = hash := by simpa using List.find?_some hfind
    refine ⟨h.sound, ⟨fun _ _ => ⟨mh, hmem, rfl⟩, fun hput => ⟨?_, ?_⟩, ?_⟩, ?_, h.apart⟩
    · exact fun hrem => hmine hput hrem mh hmem hhash
    · intro mh' hmem' hhash'
      rw [eq_of_countP_le_one h.sound.once hmem' hmem (by simpa using hhash') (by simpa using hhash)]
    · -- beside a put that is not done the hash has no entry to be found
      intro hrem hput
      by_contra hrun
      have hother := h.other
      unfold Thread.Ok at hother
      cases hu : u.pc <;> simp only [hu] at hother hrun
      case start => exact hother hput hrem mh hmem hhash
      case found addr => exact (hother.2.1 hput).1 hrem
      case missed => exact hother hput mh hmem hhash
      case create mch => exact hother.2.2 mh hmem hhash
      case link mh' => exact hother.2.1 mh hmem hhash
      case done => exact hrun trivial
    · exact h.other.of_less hne (less_refl b)
  | none =>
    simp only [hfind, Option.some.injEq, Prod.mk.injEq] at hstep
    obtain ⟨rfl, rfl⟩ := hstep
    refine ⟨h.sound, ?_, h.other.of_less hne (less_refl b), h.apart⟩
    intro _ mh hmem hhash
    have := List.find?_eq_none.mp hfind mh hmem
    simp [hhash] at this

/-- The step after a hit. -/
theorem Undisturbed.hit (h : Undisturbed hash b t u) {addr : Nat} (hpc : t.pc = .found addr)
    (hstep : t.op.step hash x b (.found addr) = some (pc, b')) :
    Undisturbed hash b' ⟨t.op, pc⟩ u := by
  have hne : t.pc ≠ .done := by rw [hpc]; simp
  have hmine := h.mine
  unfold Thread.Ok at hmine
  simp only [hpc] at hmine
  obtain ⟨hlink, honly, -⟩ := hmine
  unfold Op.step at hstep
  cases hop : t.op with
  | put =>
    simp only [hop, Option.some.injEq, Prod.mk.injEq] at hstep
    obtain ⟨rfl, rfl⟩ := hstep
    have hlink := hlink (by simp [hop])
    have hno := h.sound.noEntry_remove (honly hop).2
    rw [← hop]
    exact ⟨h.sound.remove hlink, ⟨rfl, hop, hno⟩, h.other.of_less hne (less_remove hlink), h.apart⟩
  | get =>
    simp only [hop, Option.some.injEq, Prod.mk.injEq] at hstep
    obtain ⟨rfl, rfl⟩ := hstep
    rw [← hop]
    exact ⟨h.sound, trivial, h.other.of_less hne (less_refl b), h.apart⟩
  | remove =>
    simp only [hop, Option.some.injEq, Prod.mk.injEq] at hstep
    obtain ⟨rfl, rfl⟩ := hstep
    have hlink := hlink (by simp [hop])
    rw [← hop]
    exact ⟨h.sound.remove hlink, trivial, h.other.of_less hne (less_remove hlink), h.apart⟩

/-- The lookup in the outsourced list, which fails. -/
theorem Undisturbed.miss (h : Undisturbed hash b t u) (hpc : t.pc = .missed)
    (hstep : t.op.step hash x b .missed = some (pc, b')) : Undisturbed hash b' ⟨t.op, pc⟩ u := by
  have hne : t.pc ≠ .done := by rw [hpc]; simp
  have hmine := h.mine
  unfold Thread.Ok at hmine
  simp only [hpc] at hmine
  have hfind : b.headers.find? (·.hash = hash) = none :=
    List.find?_eq_none.mpr fun mch hmch => by simpa using h.sound.headers mch hmch
  unfold Op.step at hstep
  simp only [hfind, Option.some.injEq, Prod.mk.injEq] at hstep
  obtain ⟨rfl, rfl⟩ := hstep
  refine ⟨h.sound, ?_, h.other.of_less hne (less_refl b), h.apart⟩
  cases hop : t.op with
  | put => exact ⟨rfl, rfl, hmine hop⟩
  | get => exact trivial
  | remove => exact trivial

/-- A step of the creation of an entry. -/
theorem Undisturbed.create (h : Undisturbed hash b t u) {mch : Option McdctlHashT}
    (hpc : t.pc = .create mch) (hstep : b.creation hash mch x = some (pc, b')) :
    Undisturbed hash b' ⟨t.op, pc⟩ u := by
  have hne : t.pc ≠ .done := by rw [hpc]; simp
  have hmine := h.mine
  unfold Thread.Ok at hmine
  simp only [hpc] at hmine
  obtain ⟨rfl, hput, hno⟩ := hmine
  have hother : u.Ok hash b' ⟨t.op, pc⟩ :=
    h.other.of_put hne hput fun hu => h.apart ⟨hput, hu⟩
  unfold Shared.creation at hstep
  cases x with
  | evict mh header =>
    simp only [Option.ite_none_right_eq_some, Option.some.injEq, Prod.mk.injEq] at hstep
    obtain ⟨hmem, rfl, rfl⟩ := hstep
    refine ⟨h.sound.evict hmem hno header, ⟨rfl, hput, ?_⟩, hother, h.apart⟩
    exact fun mh' hmem' => hno mh' (mem_sRemoveHashT hmem')
  | grant mh =>
    simp only [Option.ite_none_right_eq_some, Option.some.injEq, Prod.mk.injEq] at hstep
    obtain ⟨⟨-, hfresh⟩, rfl, rfl⟩ := hstep
    refine ⟨h.sound.malloc mh, ⟨hput, hno, List.mem_cons_self, ?_⟩, hother, h.apart⟩
    rintro ⟨mh', hmem', haddr⟩
    have hlive := h.sound.live mh' hmem'
    rw [haddr] at hlive
    exact hfresh hlive
  | refuse =>
    simp only [Option.some.injEq, Prod.mk.injEq] at hstep
    obtain ⟨rfl, rfl⟩ := hstep
    exact ⟨h.sound, trivial, hother, h.apart⟩

theorem Undisturbed.step (h : Undisturbed hash b t u)
    (hstep : t.op.step hash x b t.pc = some (pc, b')) : Undisturbed hash b' ⟨t.op, pc⟩ u := by
  have hmine := h.mine
  unfold Thread.Ok at hmine
  cases hpc : t.pc <;> simp only [hpc] at hmine hstep
  case start => exact h.look hpc hstep
  case found addr => exact h.hit hpc hstep
  case missed => exact h.miss hpc hstep
  case create mch => exact h.create hpc hstep
  case link mh =>
    obtain ⟨hput, hno, hlive, hfree⟩ := hmine
    simp only [Op.step, Option.some.injEq, Prod.mk.injEq] at hstep
    obtain ⟨rfl, rfl⟩ := hstep
    have hne : t.pc ≠ .done := by rw [hpc]; simp
    refine ⟨h.sound.link hno hlive hfree, trivial, ?_, h.apart⟩
    exact h.other.of_put hne hput fun hu => h.apart ⟨hput, hu⟩
  case done => simp [Op.step] at hstep

theorem Undisturbed.symm (h : Undisturbed hash b t u) : Undisturbed hash b u t :=
  ⟨h.sound, h.other, h.mine, fun hp => h.apart hp.symm⟩

end

/-- The pairs of operations that do not disturb each other: the hash is not outsourced, they are
not both `put`, and a `put` does not meet a `remove` that can find the entry it replaces. -/
structure Compatible (hash : UInt32) (b : Shared) (o : Bool → Op) : Prop where
  headers : b.NoHeader hash
  apart : ¬ ∀ i, o i = .put
  reuse : ∀ i, o i = .put → o (!i) = .remove → b.NoEntry hash

theorem Config.step_undisturbed {hash : UInt32} {q q' : Config} {e : Bool × Creation}
    (h : ∀ i, Undisturbed hash q.shared (q.thread i) (q.thread (!i)))
    (hstep : q.Step hash e q') : ∀ i, Undisturbed hash q'.shared (q'.thread i) (q'.thread (!i)) := by
  obtain ⟨⟨pc, b'⟩, hop, rfl⟩ := Option.map_eq_some_iff.mp hstep
  have hnext := (h e.1).step hop
  have hself : ∀ f : Thread, Function.update q.thread e.1 f (!e.1) = q.thread (!e.1) := fun f =>
    Function.update_of_ne (by simp) _ _
  intro i
  rcases Bool.eq_or_eq_not i e.1 with rfl | rfl
  · simpa only [Function.update_self, hself] using hnext
  · simpa only [Function.update_self, hself, Bool.not_not] using hnext.symm

theorem Compatible.start {hash : UInt32} {b : Shared} {o : Bool → Op} (hb : b.Start hash)
    (hc : Compatible hash b o) (i : Bool) :
    Undisturbed hash b ((Config.start b o).thread i) ((Config.start b o).thread (!i)) where
  sound := ⟨hb.nodup, hb.live, hb.fault, (Nat.le_add_right _ _).trans hb.occurs, hc.headers⟩
  mine := hc.reuse i
  other := fun hput hrem => hc.reuse (!i) hput (by rw [Bool.not_not]; exact hrem)
  apart := by
    rintro ⟨h₁, h₂⟩
    refine hc.apart fun j => ?_
    rcases Bool.eq_or_eq_not j i with rfl | rfl
    · exact h₁
    · exact h₂

/-- Nothing is freed twice, and once both operations are done the hash occurs at most once. -/
def RaceFree (hash : UInt32) (b : Shared) (o : Bool → Op) : Prop :=
  ∀ {acts q}, Trace (Config.Step hash) (.start b o) acts q →
    q.shared.fault = false ∧ (q.Finished → q.shared.occurs hash ≤ 1)

theorem Compatible.raceFree {hash : UInt32} {b : Shared} {o : Bool → Op} (hb : b.Start hash)
    (hc : Compatible hash b o) : RaceFree hash b o := by
  intro acts q hrun
  have hq := hrun.invariant
    (I := fun q => ∀ i, Undisturbed hash q.shared (q.thread i) (q.thread (!i)))
    (fun h hstep => Config.step_undisturbed h hstep) (hc.start hb)
  have hsound := (hq true).sound
  refine ⟨hsound.fault, fun _ => ?_⟩
  have hzero : q.shared.headers.countP (·.hash = hash) = 0 :=
    List.countP_eq_zero.mpr fun mch hmch => by simpa using hsound.headers mch hmch
  unfold Shared.occurs
  rw [hzero]
  exact hsound.once

/-- Steps that one operation takes while the other waits. -/
def Solo (hash : UInt32) (o : Op) : Pc × Shared → Pc × Shared → Prop :=
  Relation.ReflTransGen fun r r' => ∃ x, o.step hash x r.2 r.1 = some r'

theorem solo_step {hash : UInt32} {o : Op} {r m n : Pc × Shared} (x : Creation)
    (h : o.step hash x r.2 r.1 = some m) (h' : Solo hash o m n) : Solo hash o r n :=
  Relation.ReflTransGen.head ⟨x, h⟩ h'

/-- The other operation takes no part in a solo. -/
theorem Solo.lift {hash : UInt32} {o : Op} {r r' : Pc × Shared} (h : Solo hash o r r')
    {q : Config} {i : Bool} (hb : q.shared = r.2) (hi : q.thread i = ⟨o, r.1⟩) :
    ∃ acts q', Trace (Config.Step hash) q acts q' ∧ q'.shared = r'.2 ∧ q'.thread i = ⟨o, r'.1⟩ ∧
      q'.thread (!i) = q.thread (!i) := by
  induction h using Relation.ReflTransGen.head_induction_on generalizing q with
  | refl => exact ⟨[], q, .nil q, hb, hi, rfl⟩
  | @head _ r₁ hstep _ ih =>
    obtain ⟨x, hx⟩ := hstep
    let q₁ : Config := { shared := r₁.2, thread := Function.update q.thread i ⟨o, r₁.1⟩ }
    have hnext : q.Step hash (i, x) q₁ := by
      unfold Config.Step Config.step
      simp only [hi, hb, hx, Option.map_some, q₁]
    obtain ⟨acts, q', hrun, hb', hi', hother⟩ := ih (q := q₁) rfl (Function.update_self ..)
    refine ⟨_, q', .cons hnext hrun, hb', hi', hother.trans ?_⟩
    exact Function.update_of_ne (by simp) _ _

/-- An entry of the hash at an address of choice. -/
def entryAt (hash : UInt32) (addr : Nat) : McdHashT :=
  { freshHashT addr 0 0 0 0 (fun _ => 0) with hash := hash }

section
variable {hash : UInt32} {b : Shared}

theorem exists_fresh (l : List Nat) : ∃ a, a ∉ l := by
  obtain ⟨a, ha⟩ := Infinite.exists_notMem_finset l.toFinset
  exact ⟨a, fun h => ha (List.mem_toFinset.mpr h)⟩

theorem find_of_noEntry (h : b.NoEntry hash) : findMcdHashT hash b.entries = none :=
  List.find?_eq_none.mpr fun mh hmh => by simpa using h mh hmh

theorem find_of_noHeader (h : b.NoHeader hash) : b.headers.find? (·.hash = hash) = none :=
  List.find?_eq_none.mpr fun mch hmch => by simpa using h mch hmch

/-- Every operation that has missed in memory finds the header and keeps a pointer to it. -/
theorem solo_header {mch : McdctlHashT} (hno : b.NoEntry hash)
    (hfind : b.headers.find? (·.hash = hash) = some mch) (o : Op) :
    Solo hash o (.start, b) (.header mch, b) := by
  refine solo_step .refuse (m := (.missed, b)) ?_ ?_
  · simp only [Op.step, find_of_noEntry hno]
  · refine solo_step .refuse (m := (.header mch, b)) ?_ .refl
    simp only [Op.step, hfind]

/-- Whichever operation holds a header frees it, linked or not. -/
theorem solo_free (hash : UInt32) (b : Shared) (mch : McdctlHashT) (o : Op) :
    ∃ pc b', Solo hash o (.header mch, b) (pc, b') ∧ b'.headers = b.headers.erase mch ∧
      b'.fault = (b.fault || !b.headers.contains mch) := by
  cases o with
  | put => exact ⟨_, _, solo_step .refuse rfl .refl, rfl, rfl⟩
  | remove => exact ⟨_, _, solo_step .refuse rfl .refl, rfl, rfl⟩
  | get =>
    obtain ⟨a, ha⟩ := exists_fresh b.live
    refine ⟨.link (entryAt hash a), (b.malloc (entryAt hash a)).mcdctlFree mch, ?_, rfl, rfl⟩
    refine solo_step .refuse (m := (.create (some mch), b)) rfl ?_
    refine solo_step (.grant (entryAt hash a)) (m := (.paged mch (entryAt hash a), _)) ?_
      (solo_step .refuse rfl .refl)
    exact if_pos ⟨rfl, ha⟩

/-- A `put` on a hash that is not outsourced gets to the creation of its entry. -/
theorem solo_prepare (hb : b.Sound hash) :
    ∃ b', Solo hash .put (.start, b) (.create none, b') ∧ b'.NoEntry hash ∧ b'.Sound hash := by
  cases hfind : findMcdHashT hash b.entries with
  | some mh =>
    have hmem : mh ∈ b.entries := List.mem_of_find?_eq_some hfind
    have hhash : mh.hash = hash := by simpa using List.find?_some hfind
    refine ⟨b.sRemoveHashT mh.addr, ?_, hb.noEntry_remove ?_, hb.remove fun _ => ⟨mh, hmem, rfl⟩⟩
    · refine solo_step .refuse (m := (.found mh.addr, b)) ?_ (solo_step .refuse rfl .refl)
      simp only [Op.step, hfind]
    · intro mh' hmem' hhash'
      rw [eq_of_countP_le_one hb.once hmem' hmem (by simpa using hhash') (by simpa using hhash)]
  | none =>
    have hno : b.NoEntry hash := fun mh hmem => by simpa using List.find?_eq_none.mp hfind mh hmem
    refine ⟨b, ?_, hno, hb⟩
    refine solo_step .refuse (m := (.missed, b)) ?_ ?_
    · simp only [Op.step, hfind]
    · refine solo_step .refuse (m := (.create none, b)) ?_ .refl
      simp only [Op.step, find_of_noHeader hb.headers, Op.afterMiss]

/-- Once it has its entry, a `put` links it whatever the bucket holds by then. -/
theorem solo_link (hash : UInt32) (b : Shared) :
    ∃ b' mh, Solo hash .put (.create none, b) (.done, b') ∧ mh.hash = hash ∧
      b'.entries = b.entries ++ [mh] := by
  obtain ⟨a, ha⟩ := exists_fresh b.live
  refine ⟨(b.malloc (entryAt hash a)).listAddTail (entryAt hash a), entryAt hash a, ?_, rfl, rfl⟩
  refine solo_step (.grant (entryAt hash a)) (m := (.link (entryAt hash a), _)) ?_
    (solo_step .refuse rfl .refl)
  exact if_pos ⟨rfl, ha⟩

/-- Two operations that both miss in memory free the same header. -/
theorem RaceFree.noHeader {o : Bool → Op} (hb : b.Start hash) (h : RaceFree hash b o) :
    b.NoHeader hash := by
  by_contra hhead
  unfold Shared.NoHeader at hhead
  push Not at hhead
  obtain ⟨mch₀, hmem₀, hhash₀⟩ := hhead
  have hcount : 0 < b.headers.countP (·.hash = hash) :=
    List.countP_pos_iff.mpr ⟨mch₀, hmem₀, by simpa using hhash₀⟩
  have hoccurs := hb.occurs
  unfold Shared.occurs at hoccurs
  have hno : b.NoEntry hash := by
    have hzero : b.entries.countP (·.hash = hash) = 0 := by omega
    exact fun mh hmh => by simpa using List.countP_eq_zero.mp hzero mh hmh
  obtain ⟨mch, hfind⟩ : ∃ mch, b.headers.find? (·.hash = hash) = some mch :=
    Option.isSome_iff_exists.mp (List.find?_isSome.mpr ⟨mch₀, hmem₀, by simpa using hhash₀⟩)
  have hmem : mch ∈ b.headers := List.mem_of_find?_eq_some hfind
  have hhash : mch.hash = hash := by simpa using List.find?_some hfind
  -- both look first, then both free
  obtain ⟨l₁, q₁, r₁, hs₁, hf₁, ht₁⟩ := (solo_header hno hfind (o false)).lift
    (q := .start b o) (i := false) rfl rfl
  obtain ⟨l₂, q₂, r₂, hs₂, ht₂, hf₂⟩ := (solo_header hno hfind (o true)).lift
    (i := true) hs₁ ht₁
  obtain ⟨pc₃, b₃, hfree₃, hheaders₃, -⟩ := solo_free hash b mch (o false)
  obtain ⟨l₃, q₃, r₃, hs₃, -, ht₃⟩ := hfree₃.lift (i := false) hs₂ (hf₂.trans hf₁)
  obtain ⟨pc₄, b₄, hfree₄, -, hfault₄⟩ := solo_free hash b₃ mch (o true)
  obtain ⟨l₄, q₄, r₄, hs₄, -, -⟩ := hfree₄.lift (i := true) hs₃ (ht₃.trans ht₂)
  have hgone : mch ∉ b.headers.erase mch := by
    intro hagain
    have hone := hb.occurs
    unfold Shared.occurs at hone
    have hperm := (List.perm_cons_erase hmem).countP_eq (fun x : McdctlHashT => decide (x.hash = hash))
    have htwo : 0 < (b.headers.erase mch).countP (·.hash = hash) :=
      List.countP_pos_iff.mpr ⟨mch, hagain, by simpa using hhash⟩
    rw [List.countP_cons_of_pos (by simpa using hhash)] at hperm
    omega
  have hok := (h (((r₁.append r₂).append r₃).append r₄)).1
  rw [hs₄] at hok
  simp only [hfault₄, hheaders₃, Bool.or_eq_false_iff, Bool.not_eq_false'] at hok
  exact hgone (List.contains_iff_mem.mp hok.2)

/-- Two `put`s that both get past the removal link two entries. -/
theorem RaceFree.apart {o : Bool → Op} (hb : b.Sound hash) (h : RaceFree hash b o) :
    ¬ ∀ i, o i = .put := by
  intro hput
  obtain ⟨b₁, hprep₁, hno₁, hsound₁⟩ := solo_prepare hb
  obtain ⟨l₁, q₁, r₁, hs₁, hf₁, ht₁⟩ := hprep₁.lift (q := .start b o) (i := false) rfl
    (by rw [← hput false]; rfl)
  obtain ⟨b₂, hprep₂, hno₂, -⟩ := solo_prepare hsound₁
  obtain ⟨l₂, q₂, r₂, hs₂, ht₂, hf₂⟩ := hprep₂.lift (i := true) hs₁
    (ht₁.trans (by rw [← hput true]; rfl))
  obtain ⟨b₃, mh₃, hlink₃, hhash₃, hent₃⟩ := solo_link hash b₂
  obtain ⟨l₃, q₃, r₃, hs₃, hf₃, ht₃⟩ := hlink₃.lift (i := false) hs₂ (hf₂.trans hf₁)
  obtain ⟨b₄, mh₄, hlink₄, hhash₄, hent₄⟩ := solo_link hash b₃
  obtain ⟨l₄, q₄, r₄, hs₄, ht₄, hf₄⟩ := hlink₄.lift (i := true) hs₃ (ht₃.trans ht₂)
  have hdone : q₄.Finished := by
    intro i
    cases i with
    | false => exact congrArg Thread.pc (hf₄.trans hf₃)
    | true => exact congrArg Thread.pc ht₄
  have hone := (h (((r₁.append r₂).append r₃).append r₄)).2 hdone
  unfold Shared.occurs at hone
  rw [hs₄] at hone
  simp only [hent₄, hent₃, List.countP_append, List.countP_singleton, hhash₃, hhash₄] at hone
  simp at hone
  omega

/-- A `remove` that holds a pointer to the entry a `put` has just freed removes the new one, which
lies at the same address and is not linked yet. -/
theorem RaceFree.reuse {o : Bool → Op} (hb : b.Sound hash) (h : RaceFree hash b o) (i : Bool)
    (hput : o i = .put) (hrem : o (!i) = .remove) : b.NoEntry hash := by
  intro mh₀ hmem₀ hhash₀
  obtain ⟨mh, hfind⟩ : ∃ mh, findMcdHashT hash b.entries = some mh :=
    Option.isSome_iff_exists.mp (List.find?_isSome.mpr ⟨mh₀, hmem₀, by simpa using hhash₀⟩)
  have hmem : mh ∈ b.entries := List.mem_of_find?_eq_some hfind
  have hlive : mh.addr ∈ b.live := hb.live mh hmem
  have hlook : ∀ o : Op, Solo hash o (.start, b) (.found mh.addr, b) := fun o =>
    solo_step .refuse (by simp only [Op.step, hfind]) .refl
  obtain ⟨l₁, q₁, r₁, hs₁, hr₁, hp₁⟩ := (hlook .remove).lift (q := .start b o) (i := !i) rfl
    (by rw [← hrem]; rfl)
  have hagain : Solo hash .put (.start, b)
      (.link (entryAt hash mh.addr), (b.sRemoveHashT mh.addr).malloc (entryAt hash mh.addr)) := by
    refine (hlook .put).trans (solo_step .refuse rfl ?_)
    refine solo_step (.grant (entryAt hash mh.addr)) (if_pos ⟨rfl, ?_⟩) .refl
    simp [Shared.sRemoveHashT, hlive, entryAt, freshHashT]
  obtain ⟨l₂, q₂, r₂, hs₂, -, hr₂⟩ := hagain.lift (i := i) hs₁
    (by rw [Bool.not_not] at hp₁; rw [hp₁, ← hput]; rfl)
  have hlast : ∀ b', Solo hash .remove (.found mh.addr, b') (.done, b'.sRemoveHashT mh.addr) :=
    fun b' => solo_step .refuse rfl .refl
  obtain ⟨l₃, q₃, r₃, hs₃, -, -⟩ := (hlast _).lift (i := !i) hs₂ (hr₂.trans hr₁)
  have hok := (h ((r₁.append r₂).append r₃)).1
  rw [hs₃] at hok
  simp [Shared.sRemoveHashT, hlive, Shared.malloc, entryAt, freshHashT] at hok

end

/-- A bucket with one entry. -/
def Shared.single : Shared := ⟨[entryAt 7 1], [], [1], false⟩

/-- A bucket whose one hash is outsourced. -/
def Shared.outsourced : Shared := ⟨[], [(entryAt 7 1).header 0 0], [], false⟩

/-- Both operations take their steps up to the creation, then each links its entry. -/
def putsTwice : List (Bool × Creation) :=
  [(false, .refuse), (false, .refuse), (true, .refuse), (true, .refuse),
    (false, .grant (entryAt 7 1)), (false, .refuse), (true, .grant (entryAt 7 2)), (true, .refuse)]

/-- Both operations find the header before either frees it. -/
def freesTwice : List (Bool × Creation) :=
  [(false, .refuse), (false, .refuse), (true, .refuse), (true, .refuse),
    (false, .refuse), (true, .refuse)]

end UniCache.Mcd.Race
