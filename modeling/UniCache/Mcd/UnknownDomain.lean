import UniCache.Mcd.Adaptive
import UniCache.Mcd.Books

/-! `find_mcd_dom` as the C code has it: when it finds no record, its cursor is the list head, which
the callers then use as a record. -/
namespace UniCache.Mcd
open Base Base.Exec

/-- The words of a record that the callers below read or write. Behind the list head they are
whatever the linker put there. -/
structure DomWords where
  lockFree : Bool
  nrKeys : UInt32
  nrUsedPages : UInt32
  nrUsedBytes : UInt64
  weight : UInt32
  deriving DecidableEq

/-- The state with the words behind the list head. -/
structure Memory where
  mcd : State
  head : DomWords

abbrev W (α : Type) := Exec Memory Stop α

def onMcd {α : Type} (x : M α) : W α := zoom Memory.mcd (fun s y => { y with mcd := s }) x

/-- The values of a `mcd_domain_t *`. -/
inductive DomPtr
  | null
  | record (d : McdDomain)
  | head

/-- The cursor of `list_for_each_entry` when the loop is left. -/
def cursor (domid : Domid) : List McdDomain → DomPtr
  | [] => .head
  | d :: ds => if d.domid = domid then .record d else cursor domid ds

def findMcdDomPtr (domid : Domid) : W DomPtr := do
  let y ← get
  pure (cursor domid y.mcd.domains)

/-- The words of a record. Its lock is free: no other hypercall runs. -/
def McdDomain.words (d : McdDomain) : DomWords where
  lockFree := true
  nrKeys := d.nrKeys
  nrUsedPages := d.nrUsedPages
  nrUsedBytes := d.nrUsedBytes
  weight := d.weight

def McdDomain.setWords (d : McdDomain) (w : DomWords) : McdDomain :=
  { d with
    nrKeys := w.nrKeys
    nrUsedPages := w.nrUsedPages
    nrUsedBytes := w.nrUsedBytes
    weight := w.weight }

def DomWords.discharge (mh : McdHashT) (w : DomWords) : DomWords :=
  { w with
    nrUsedPages := w.nrUsedPages - mh.nrPages
    nrUsedBytes := w.nrUsedBytes - mh.bytes
    nrKeys := w.nrKeys - 1 }

namespace DomPtr

def read : DomPtr → W DomWords
  | .null => throw .wild
  | .record d => pure d.words
  | .head => do
    let y ← get
    pure y.head

def write (f : DomWords → DomWords) : DomPtr → W Unit
  | .null => throw .wild
  | .record d => onMcd (modify (·.modifyDom d.domid fun d => d.setWords (f d.words)))
  | .head => modify fun y => { y with head := f y.head }

end DomPtr

/-- `set_weight`. -/
def setWeightPtr (domid : Domid) (weight : UInt32) : W Rc := do
  match ← findMcdDomPtr domid with
  | .null => pure .minusOne
  | p => do
    let w ← p.read
    onMcd (modify fun s => { s with totalWeight := s.totalWeight + (weight - w.weight) })
    -- `mspin_lock`
    if w.lockFree then do
      p.write fun w => { w with weight }
      onMcd (modify (·.domWeightUpdate))
      pure .errNo
    else throw .spin

/-- `s_remove_hashT`. -/
def sRemoveHashTPtr (c : Ctx) (i : Bucket) (mh : McdHashT) (flag : Move) : W UInt64 := do
  onMcd (modify (·.dischargeData mh .shared))
  match ← findMcdDomPtr mh.domain with
  | .null => pure ()
  | p => p.write (·.discharge mh)
  onMcd (unlinkHashT c (.bucket i) mh flag)
  pure mh.bytes

/-! ### Listed ids -/

section
variable {c : Ctx} {domid : Domid} {d : McdDomain} {y z : Memory}

/-- The cursor is never NULL. -/
theorem cursor_eq (domid : Domid) (s : State) :
    cursor domid s.domains = (findMcdDom domid s).elim .head .record := by
  unfold findMcdDom
  induction s.domains with
  | nil => rfl
  | cons d l ih =>
    by_cases hd : d.domid = domid
    · simp [cursor, hd]
    · simpa [cursor, hd] using ih

@[simp] theorem returns_onMcd {α : Type} {x : M α} {a : α} :
    Returns (onMcd x) y a z ↔ ∃ t, Returns x y.mcd a t ∧ z = { y with mcd := t } := returns_zoom

theorem returns_findMcdDomPtr {p : DomPtr} : Returns (findMcdDomPtr domid) y p z ↔
    p = (findMcdDom domid y.mcd).elim .head .record ∧ z = y := by
  rw [findMcdDomPtr, returns_get_bind, returns_pure, cursor_eq]

/-- For a listed id the pointers make no difference to `set_weight`. -/
theorem setWeightPtr_listed {weight : UInt32} {rc : Rc} (hd : findMcdDom domid y.mcd = some d) :
    Returns (setWeightPtr domid weight) y rc z ↔
      ∃ t, Returns (setWeight domid weight) y.mcd (.code rc) t ∧ z = { y with mcd := t } := by
  have hid : d.domid = domid := by simpa using List.find?_some hd
  simp only [setWeightPtr, setWeight, returns_bind, returns_findMcdDomPtr, hd, Option.elim_some,
    DomPtr.read, DomPtr.write, hid, returns_pure, returns_onMcd, returns_modify, returns_domOf,
    and_assoc, exists_and_left, exists_eq_left, exists_const, McdDomain.words, if_true]
  constructor
  · rintro ⟨rfl, rfl⟩
    exact ⟨_, ⟨d, rfl, rfl, rfl⟩, rfl⟩
  · rintro ⟨t, ⟨e, he, hrc, rfl⟩, rfl⟩
    obtain rfl := Option.some.inj he
    exact ⟨congrArg Reply.rc hrc, rfl⟩

/-- Nor to `s_remove_hashT`. -/
theorem sRemoveHashTPtr_listed {i : Bucket} {mh : McdHashT} {flag : Move} {b : UInt64}
    (hd : findMcdDom mh.domain y.mcd = some d) :
    Returns (sRemoveHashTPtr c i mh flag) y b z ↔
      ∃ t, Returns (sRemoveHashT c i mh flag) y.mcd b t ∧ z = { y with mcd := t } := by
  have hid : d.domid = mh.domain := by simpa using List.find?_some hd
  have hafter : findMcdDom mh.domain (y.mcd.dischargeData mh .shared) = some d := hd
  simp only [sRemoveHashTPtr, sRemoveHashT, returns_bind, returns_findMcdDomPtr, hafter,
    Option.elim_some, DomPtr.write, hid, returns_pure, returns_onMcd, returns_modify, returns_domOf,
    and_assoc, exists_and_left, exists_eq_left, exists_const]
  constructor
  · rintro ⟨u, _, ⟨t, hunlink, rfl⟩, rfl, rfl⟩
    exact ⟨t, ⟨d, rfl, u, t, hunlink, rfl, rfl⟩, rfl⟩
  · rintro ⟨_, ⟨e, -, u, t, hunlink, rfl, rfl⟩, rfl⟩
    exact ⟨u, _, ⟨_, hunlink, rfl⟩, rfl, rfl⟩

end

/-! ### Ids that are not listed -/

theorem find_of_not_listed {domid : Domid} {s : State} (h : domid ∉ s.domids) :
    findMcdDom domid s = none := by
  rw [← Option.not_isSome_iff_eq_none, isSome_findMcdDom]
  exact h

/-- The counters a domain is charged with. -/
def State.charges (s : State) (id : Domid) : Option (UInt32 × UInt32 × UInt64) :=
  (findMcdDom id s).map fun d => (d.nrKeys, d.nrUsedPages, d.nrUsedBytes)

section
variable {c : Ctx} {domid : Domid} {y z : Memory}

/-- `set_weight` takes the weight behind the list head for the old weight of the domain. -/
theorem setWeightPtr_unlisted {weight : UInt32} {rc : Rc} (hnew : domid ∉ y.mcd.domids) :
    Returns (setWeightPtr domid weight) y rc z ↔ y.head.lockFree = true ∧ rc = .errNo ∧ z =
      { mcd := { y.mcd with
          totalWeight := y.mcd.totalWeight + (weight - y.head.weight) }.domWeightUpdate
        head := { y.head with weight } } := by
  simp only [setWeightPtr, returns_bind, returns_findMcdDomPtr, find_of_not_listed hnew,
    Option.elim_none, DomPtr.read, DomPtr.write, returns_pure, returns_onMcd, returns_modify,
    returns_get, and_assoc, exists_and_left, exists_eq_left, exists_const]
  by_cases hfree : y.head.lockFree = true
  · simp [hfree, and_comm]
  · simp [hfree]

theorem setWeightPtr_spins {weight : UInt32} (hnew : domid ∉ y.mcd.domids)
    (hheld : y.head.lockFree = false) : stop? (setWeightPtr domid weight) y = some .spin := by
  have hfind : Returns (findMcdDomPtr domid) y .head y :=
    returns_findMcdDomPtr.mpr ⟨by rw [find_of_not_listed hnew]; rfl, rfl⟩
  have hread : Returns DomPtr.head.read y y.head y :=
    returns_get_bind.mpr (returns_pure.mpr ⟨rfl, rfl⟩)
  unfold setWeightPtr
  rw [stop_bind hfind, stop_bind hread]
  refine (stop_bind (a := ()) (returns_onMcd.mpr ⟨_, returns_modify.mpr rfl, rfl⟩)).trans ?_
  rw [if_neg (by rw [hheld]; decide)]
  rfl

theorem charges_setEntries (s : State) (l : List McdHashT) (loc : Loc) :
    (s.setEntries l loc).charges = s.charges := by
  cases loc with
  | bucket i => rfl
  | dom d =>
    exact funext (map_find_modifyDom (f := fun d => { d with hashList := l }) (fun _ => rfl) d s
      fun _ => rfl)

theorem aloof_charges : Aloof fun s t => t.charges = s.charges where
  refl _ := rfl
  trans h₁ h₂ := h₂.trans h₁
  bump _ := rfl
  pool _ _ := rfl
  store _ _ := rfl
  headers s l loc := by
    cases loc with
    | bucket i => rfl
    | dom d =>
      exact funext (map_find_modifyDom (f := fun d => { d with mcdctlList := l }) (fun _ => rfl) d s
        fun _ => rfl)

/-- `s_remove_hashT` charges what lies behind the list head, and no domain. -/
theorem sRemoveHashTPtr_unlisted {i : Bucket} {mh : McdHashT} {flag : Move} {b : UInt64}
    (hnew : mh.domain ∉ y.mcd.domids) (h : Returns (sRemoveHashTPtr c i mh flag) y b z) :
    z.mcd.charges = y.mcd.charges ∧ z.head = y.head.discharge mh ∧
      z.mcd.shared i = (y.mcd.shared i).erase mh := by
  have hafter : findMcdDom mh.domain (y.mcd.dischargeData mh .shared) = none :=
    find_of_not_listed hnew
  simp only [sRemoveHashTPtr, returns_bind, returns_findMcdDomPtr, hafter, Option.elim_none,
    DomPtr.write, returns_pure, returns_onMcd, returns_modify, and_assoc, exists_and_left,
    exists_eq_left, exists_const] at h
  obtain ⟨u, _, ⟨t, hunlink, rfl⟩, rfl, rfl⟩ := h
  have hcharges := aloof_charges.unlinkHashT charges_setEntries _ _ _ hunlink
  refine ⟨hcharges, rfl, ?_⟩
  have hbooks := congrArg (fun b => b.entries (.bucket i)) (unlinkHashT_books hunlink trivial)
  simp only [Books.setEntries, Function.update_self] at hbooks
  exact hbooks

end

/-! ### The adaptive reclaim for such an id -/

section
variable {c : Ctx} {now : Int} {amount : UInt64} {domid : Domid} {s t : State} {r : Reclaim}

/-- A removal is from the list of a listed domain. -/
theorem Draw.listed {x : Domid × McdHashT} (h : Draw c s x t) : x.1 ∈ s.domids := by
  by_contra hnew
  have hmem := h.1
  rw [State.entries, find_of_not_listed hnew] at hmem
  cases hmem

/-- With anything left to free, a loop over an id that is not listed walks the list head. -/
theorem adaptivePhase_wild (hnew : domid ∉ s.domids) (hlt : r.tot < amount) :
    stop? (adaptivePhase c now amount domid r) s = some .wild := by
  have hdom : stop? (domOf domid) s = some .wild := by
    unfold domOf
    rw [stop_bind (returns_get.mpr ⟨rfl, rfl⟩), find_of_not_listed hnew]
    rfl
  unfold adaptivePhase adaptiveLoop
  rw [stop_bind (returns_get.mpr ⟨rfl, rfl⟩), if_pos hlt]
  exact stop_bind_left (stop_bind_left hdom)

theorem adaptivePhase_done (hdone : ¬ r.tot < amount) :
    Returns (adaptivePhase c now amount domid r) s r s := by
  unfold adaptivePhase adaptiveLoop
  refine returns_get_bind.mpr ?_
  rw [if_neg hdone]
  exact returns_pure.mpr ⟨rfl, rfl⟩

theorem Draws.listed {l : List (Domid × McdHashT)} (h : Draws c s l t) :
    ∀ x ∈ l, x.1 ∈ s.domids := by
  induction h with
  | nil s => simp
  | @cons s u t x l head tail ih =>
    intro e he
    rcases List.mem_cons.mp he with rfl | he
    · exact head.listed
    · have hlive : u.domids = s.domids :=
        (Removals.cons (pRemoveHashT_spec head.2 head.1).2.1 (.nil _)).live_eq
      rw [← hlive]
      exact ih e he

theorem adaptive_draws {rc : Rc} (h : Returns (partitionCfAdaptiveDynamic c amount domid) s rc t) :
    ∃ l, Draws c s.bump l t := by
  simp only [partitionCfAdaptiveDynamic, readNow, returns_bind, returns_reading, returns_get,
    returns_pure, and_assoc, exists_and_left, exists_eq_left] at h
  obtain ⟨q₁, s₁, h₁, q₂, s₂, h₂, -, rfl⟩ := h
  obtain ⟨_, p₁, -⟩ := adaptivePhase_passes h₁
  obtain ⟨_, p₂, -⟩ := adaptivePhase_passes h₂
  exact (AnyPasses.draws (p₁.any.append p₂.any)).2

/-- `hr_dom` alone has enough to free. -/
def State.FreesAlone (s : State) (c : Ctx) (amount : UInt64) : Prop :=
  ∃ hr q u, s.hrDom c = some hr ∧ amount ≤ q.tot ∧
    Returns (adaptivePhase c (c.now s.tick) amount hr { tot := 0, visited := false, lfu := none })
      s.bump q u

/-- For an id that is not listed the reclaim returns just when `hr_dom` alone has enough. Otherwise it
goes on to walk the list head. -/
theorem adaptive_unlisted (hnew : domid ∉ s.domids) (hpos : 0 < amount)
    (hrem : s.Removable c .partition) :
    (s.FreesAlone c amount → ∃ t, Returns (partitionCfAdaptiveDynamic c amount domid) s .errNo t) ∧
      (¬ s.FreesAlone c amount →
        stop? (partitionCfAdaptiveDynamic c amount domid) s = some .wild) := by
  have hnow : Returns (readNow c) s (c.now s.tick) s.bump := returns_reading.mpr ⟨rfl, rfl⟩
  have hget : Returns (get : M State) s.bump s.bump s.bump := returns_get.mpr ⟨rfl, rfl⟩
  have hsame : s.bump.hrDom c = s.hrDom c := rfl
  constructor
  · rintro ⟨hr, q, u, hhr, henough, hphase⟩
    refine ⟨u, returns_bind.mpr ⟨_, _, hnow, returns_get_bind.mpr (returns_bind.mpr ⟨q, u, ?_,
      returns_bind.mpr ⟨q, u, adaptivePhase_done (UInt64.not_lt.mpr henough), ?_⟩⟩)⟩⟩
    · rw [hsame, hhr]
      exact hphase
    · rw [if_neg (UInt64.not_lt.mpr henough)]
      exact returns_pure.mpr ⟨rfl, rfl⟩
  · intro hshort
    unfold partitionCfAdaptiveDynamic
    rw [stop_bind hnow, stop_bind hget, hsame]
    cases hhr : s.hrDom c with
    | none => exact stop_bind_left (adaptivePhase_wild hnew hpos)
    | some hr =>
      have hs : Draining c s.domids s.bump := ⟨hrem.bump, rfl⟩
      obtain ⟨q, u, hphase, -, hu⟩ : ∃ q u, Returns (adaptivePhase c (c.now s.tick) amount hr
          { tot := 0, visited := false, lfu := none }) s.bump q u ∧ q.lfu = none ∧
          Draining c s.domids u := adaptivePhase_returns _ _ hs (hrDom_listed hhr) rfl
      have hless : q.tot < amount := by
        by_contra hle
        exact hshort ⟨hr, q, u, hhr, UInt64.not_lt.mp hle, hphase⟩
      have hnew' : domid ∉ u.domids := by
        rw [hu.domids]
        exact hnew
      rw [Option.getD_some, stop_bind hphase]
      exact stop_bind_left (adaptivePhase_wild hnew' hless)

end

/-! ### What becomes of an unknown id -/

theorem totalWeight_domWeightUpdate (s : State) : s.domWeightUpdate.totalWeight = s.totalWeight := by
  unfold State.domWeightUpdate
  by_cases hle : s.totalWeight ≤ 0
  · rw [if_pos hle]
    exact (UInt32.le_antisymm hle UInt32.zero_le).symm
  · rw [if_neg hle]

theorem weights_domWeightUpdate (s : State) :
    s.domWeightUpdate.domains.map (fun d => (d.domid, d.weight)) =
      s.domains.map fun d => (d.domid, d.weight) := by
  unfold State.domWeightUpdate
  by_cases hle : s.totalWeight ≤ 0
  · rw [if_pos hle]
  · rw [if_neg hle, List.map_map]
    rfl

/-- For an id that is not listed `find_mcd_dom` gives the list head and not NULL. `set_weight` then
reports no error; the total weight stays as it is just when the new weight is what lies behind the
head. `s_remove_hashT` charges no domain. The adaptive reclaim takes from listed domains, and returns
just when `hr_dom` alone has enough. -/
theorem unknown_domid_effects {c : Ctx} {domid : Domid} {y : Memory} (hnew : domid ∉ y.mcd.domids) :
    cursor domid y.mcd.domains = .head ∧
    (∀ weight,
      (y.head.lockFree = false → stop? (setWeightPtr domid weight) y = some .spin) ∧
      (y.head.lockFree = true → ∃ z, Returns (setWeightPtr domid weight) y .errNo z ∧
        z.mcd.domains.map (fun d => (d.domid, d.weight)) =
          y.mcd.domains.map (fun d => (d.domid, d.weight)) ∧
        (z.mcd.totalWeight = y.mcd.totalWeight ↔ weight = y.head.weight))) ∧
    (∀ i mh flag b z, mh.domain = domid → Returns (sRemoveHashTPtr c i mh flag) y b z →
      z.mcd.charges = y.mcd.charges ∧ z.head = y.head.discharge mh) ∧
    (∀ amount rc t, Returns (partitionCfAdaptiveDynamic c amount domid) y.mcd rc t →
      ∃ l, Draws c y.mcd.bump l t ∧ ∀ x ∈ l, x.1 ∈ y.mcd.domids) ∧
    ∀ amount, 0 < amount → y.mcd.Removable c .partition →
      (y.mcd.FreesAlone c amount →
        ∃ t, Returns (partitionCfAdaptiveDynamic c amount domid) y.mcd .errNo t) ∧
      (¬ y.mcd.FreesAlone c amount →
        stop? (partitionCfAdaptiveDynamic c amount domid) y.mcd = some .wild) := by
  refine ⟨?_, ?_, ?_, ?_, ?_⟩
  · rw [cursor_eq, find_of_not_listed hnew]
    rfl
  · intro weight
    refine ⟨fun hheld => setWeightPtr_spins hnew hheld, fun hfree => ?_⟩
    refine ⟨_, (setWeightPtr_unlisted hnew).mpr ⟨hfree, rfl, rfl⟩, weights_domWeightUpdate _, ?_⟩
    rw [totalWeight_domWeightUpdate]
    show y.mcd.totalWeight + (weight - y.head.weight) = y.mcd.totalWeight ↔ _
    constructor
    · intro h
      grind
    · intro h
      grind
  · rintro i mh flag b z rfl h
    obtain ⟨hcharges, hhead, -⟩ := sRemoveHashTPtr_unlisted hnew h
    exact ⟨hcharges, hhead⟩
  · intro amount rc t h
    obtain ⟨l, hl⟩ := adaptive_draws h
    exact ⟨l, hl, hl.listed⟩
  · exact fun amount hpos hrem => adaptive_unlisted hnew hpos hrem

/-- Domain 1 alone is listed, with one entry of 80 bytes. -/
def oneAdaptiveCalls : List Call := [⟨.calm, .create 1⟩, ⟨.calm, .cacheMode 2 2⟩,
  ⟨.clock 1, .put 1 (.single 1) (.single 7)⟩]

def System.oneAdaptive : System := System.start.after oneAdaptiveCalls

/-- The state with zeros behind the list head, and a lock that is free. -/
def System.zeroed (y : System) : Memory := { mcd := y.mcd, head := ⟨true, 0, 0, 0, 0⟩ }

/-- The total weight, and each domain's weight and ratio. -/
def Memory.weights (y : Memory) : UInt32 × List (Domid × UInt32 × UInt32) :=
  (y.mcd.totalWeight, y.mcd.domains.map fun d => (d.domid, d.weight, d.ratio))

/-- For the unlisted domain 7, 80 bytes are there in the list of domain 1. -/
theorem unknown_domid_effects_oneAdaptive :
    System.oneAdaptive.mcd.domids = [1] ∧
    (∃ z, Returns (setWeightPtr 7 0) System.oneAdaptive.zeroed .errNo z ∧
      z.mcd.totalWeight = System.oneAdaptive.mcd.totalWeight) ∧
    ∃ t, Returns (partitionCfAdaptiveDynamic (System.oneAdaptive.ctx (.clock 5)) 80 7)
      System.oneAdaptive.mcd .errNo t := by
  obtain ⟨hids, howner, hoff, hhr, hphase⟩ : System.oneAdaptive.mcd.domids = [1] ∧
      (System.oneAdaptive.mcd.entries (.dom 1)).map (·.domain) = [1] ∧
      System.oneAdaptive.mcd.outsourcing = false ∧
      System.oneAdaptive.mcd.hrDom (System.oneAdaptive.ctx (.clock 5)) = some 1 ∧
      ((adaptivePhase (System.oneAdaptive.ctx (.clock 5)) 5 80 1
        { tot := 0, visited := false, lfu := none }).run System.oneAdaptive.mcd.bump).toOption.map
        (fun r => decide (80 ≤ r.1.tot)) = some true := by decide +kernel
  have hnow : (System.oneAdaptive.ctx (.clock 5)).now System.oneAdaptive.mcd.tick = 5 := rfl
  generalize System.oneAdaptive.ctx (.clock 5) = c at *
  generalize System.oneAdaptive = y at *
  have hnew : (7 : Domid) ∉ y.zeroed.mcd.domids := by
    show (7 : Domid) ∉ y.mcd.domids
    rw [hids]
    decide
  have hlisted : ∀ id ∈ y.mcd.domids, ∀ mh ∈ y.mcd.entries (.dom id), mh.domain ∈ y.mcd.domids := by
    rw [hids]
    intro id hid mh hmh
    rw [List.mem_singleton.mp hid] at hmh
    rw [← howner]
    exact List.mem_map_of_mem hmh
  have hrem : y.mcd.Removable c .partition :=
    removable_of_off (by rw [hids]; exact List.nodup_singleton 1) hlisted hoff
  obtain ⟨q, u, hret, henough⟩ := returns_of_map hphase
  rw [← hnow] at hret
  have hfrees : y.mcd.FreesAlone c 80 := ⟨1, q, u, hhr, of_decide_eq_true henough, hret⟩
  obtain ⟨-, hweight, -, -, hadaptive⟩ := unknown_domid_effects hnew
  obtain ⟨z, hz, -, hiff⟩ := (hweight 0).2 rfl
  exact ⟨hids, ⟨z, hz, hiff.mpr rfl⟩, (hadaptive 80 (by decide) hrem).1 hfrees⟩

/-- A weight of 50 for the unlisted domain 7 is reported as a success; the total goes from 100 to 150,
and the ratio of domain 1 falls to 66. A reclaim of 200 bytes for domain 7 takes the entry of
domain 1 and then walks the list head, and one of 80 bytes does so at once if no domain is listed. -/
theorem unknown_domid_accepted :
    (∃ l, Run Call.Keeps .start l System.oneAdaptive) ∧ System.oneAdaptive.mcd.domids = [1] ∧
    System.oneAdaptive.zeroed.weights = (100, [(1, 100, 100)]) ∧
    ((setWeightPtr 7 50).run System.oneAdaptive.zeroed).toOption.map
      (fun r => (r.1, r.2.weights)) = some (.errNo, 150, [(1, 100, 66)]) ∧
    stop? (partitionCfAdaptiveDynamic (System.oneAdaptive.ctx .calm) 200 7)
      System.oneAdaptive.mcd = some .wild ∧
    System.start.mcd.domids = [] ∧
    stop? (partitionCfAdaptiveDynamic (System.start.ctx .calm) 80 7) System.start.mcd =
      some .wild := by
  have hruns : System.start.runs Call.Keeps oneAdaptiveCalls := by decide +kernel
  obtain ⟨l, -, hrun⟩ := run_of_runs hruns
  exact ⟨⟨l, hrun⟩, by decide +kernel⟩

end UniCache.Mcd
