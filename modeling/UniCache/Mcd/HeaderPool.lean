import UniCache.Base.Slab
import UniCache.Mcd.Destroy
import UniCache.Mcd.Stripping

/-! The mini-header allocator over whole runs: the freelist, the header lists and the header pages
as a slab. -/
namespace UniCache.Mcd
open Base Base.Exec

def McdctlHashT.block (mch : McdctlHashT) : Block := (mch.page, mch.slot)

/-- The allocator's part of the state. -/
def State.slab (s : State) : Slab Loc where
  on := s.mcdctlEnabled
  pages := s.pool.pages
  free := s.pool.freelist
  next := s.pool.nextPage
  lists loc := (s.headers loc).map (·.block)

/-- The allocator took such steps as keep its pages. -/
def Allocs (s t : State) : Prop := Slab.Steps s.slab t.slab

theorem lists_eq_nil_iff {s : State} {loc : Loc} : s.slab.lists loc = [] ↔ s.headers loc = [] :=
  List.map_eq_nil_iff

section
variable {s t : State}

theorem slab_eq (hh : t.headers = s.headers) (ho : t.mcdctlEnabled = s.mcdctlEnabled)
    (hp : t.pool = s.pool) : t.slab = s.slab := by
  simp only [State.slab, hh, ho, hp]

theorem slab_modifyDom {f : McdDomain → McdDomain} (hf : ∀ d, (f d).domid = d.domid)
    (hl : ∀ d, (f d).mcdctlList = d.mcdctlList) (id : Domid) (s : State) :
    (s.modifyDom id f).slab = s.slab := by
  have hh : (s.modifyDom id f).headers = s.headers := by
    funext loc
    cases loc with
    | bucket i => rfl
    | dom d => rw [headers_dom, headers_dom, map_find_modifyDom hf id s hl]
  exact slab_eq hh rfl rfl

theorem slab_setEntries (s : State) (l : List McdHashT) (loc : Loc) :
    (s.setEntries l loc).slab = s.slab := by
  cases loc with
  | bucket i => rfl
  | dom d =>
    exact slab_modifyDom (f := fun d => { d with hashList := l }) (fun _ => rfl) (fun _ => rfl) d s

theorem slab_setHeaders {loc : Loc} (hs : s.Has loc) (l : List McdctlHashT) :
    (s.setHeaders l loc).slab =
      { s.slab with lists := Function.update s.slab.lists loc (l.map (·.block)) } := by
  have hh : (s.setHeaders l loc).headers = Function.update s.headers loc l :=
    congrArg Tiers.headers (tiers_setHeaders hs l)
  have hlists : (s.setHeaders l loc).slab.lists =
      Function.update s.slab.lists loc (l.map (·.block)) := by
    funext e
    show ((s.setHeaders l loc).headers e).map (·.block) = _
    rw [hh]
    by_cases he : e = loc
    · rw [he, Function.update_self, Function.update_self]
    · rw [Function.update_of_ne he, Function.update_of_ne he]
      rfl
  rw [← hlists]
  cases loc <;> rfl

end

/-- A relation between states that only looks at the allocator. -/
structure OfSlab (R : State → State → Prop) : Prop where
  same : ∀ {s t}, t.slab = s.slab → R s t
  trans : ∀ {s t u}, R s t → R t u → R s u

theorem ofSlab_eq : OfSlab fun s t => t.slab = s.slab where
  same h := h
  trans h₁ h₂ := h₂.trans h₁

theorem ofSlab_allocs : OfSlab Allocs where
  same h := Slab.steps_of_eq h
  trans h₁ h₂ := Slab.Steps.trans h₁ h₂

namespace OfSlab
variable {R : State → State → Prop} {c : Ctx} {α : Type}

theorem passive (h : OfSlab R) : Passive R where
  refl _ := h.same rfl
  trans := h.trans
  bump _ := h.same rfl
  addr _ _ := h.same rfl
  usage total id s :=
    h.same (slab_modifyDom (f := (·.withUsage total)) (fun _ => rfl) (fun _ => rfl) id s)

theorem of_modify (h : OfSlab R) {f : State → State} (hf : ∀ s, (f s).slab = s.slab) :
    Within R (modify f : M Unit) := .of_modify fun s => h.same (hf s)

theorem minfRequest (h : OfSlab R) (f : Store → Store) : Within R (Mcd.minfRequest c f) := by
  apply h.passive.bind h.passive.get
  intro s
  apply Within.ite _ (h.passive.pure _)
  apply h.passive.bind (h.passive.reading _)
  intro ok
  exact .ite (h.of_modify fun _ => rfl) (h.passive.pure _)

section
variable (h : OfSlab R) {mh : McdHashT} {flag : Move}
include h

theorem dischargeData (mh : McdHashT) (m : CacheMode) :
    Within R (modify (·.dischargeData mh m) : M Unit) := h.of_modify fun _ => rfl

theorem discharge (mh : McdHashT) (id : Domid) :
    Within R (modify (·.modifyDom id (·.discharge mh)) : M Unit) :=
  h.of_modify fun s => slab_modifyDom (f := (·.discharge mh)) (fun _ => rfl) (fun _ => rfl) id s

theorem sRemoveHashT {i : Bucket} (hu : Within R (unlinkHashT c (.bucket i) mh flag)) :
    Within R (Mcd.sRemoveHashT c i mh flag) := by
  apply h.passive.bind (h.dischargeData mh .shared)
  intro _
  apply h.passive.bind (h.passive.domOf _)
  intro _
  apply h.passive.bind (h.discharge mh _)
  intro _
  exact h.passive.bind hu fun _ => h.passive.pure _

theorem pRemoveHashT {id : Domid} (hu : Within R (unlinkHashT c (.dom id) mh flag)) :
    Within R (Mcd.pRemoveHashT c id mh flag) := by
  apply h.passive.bind (h.dischargeData mh .partition)
  intro _
  apply h.passive.bind (h.passive.domOf _)
  intro _
  apply h.passive.bind (h.discharge mh id)
  intro _
  apply h.passive.bind hu
  intro _
  exact h.passive.bind (h.passive.domUsageUpdate id) fun _ => h.passive.pure _

/-- An entry that is not moved leaves the allocator alone. -/
theorem unlinkHashT {loc : Loc} : Within R (Mcd.unlinkHashT c loc mh .doNotMoveToSsd) := by
  unfold Mcd.unlinkHashT
  rw [if_neg fun hmove => Move.noConfusion hmove.1]
  exact h.of_modify fun s => slab_setEntries s _ loc

theorem sFlushEntries (i : Bucket) (l : List McdHashT) : Within R (Mcd.sFlushEntries c i l) := by
  induction l with
  | nil => exact h.of_modify fun s => slab_setEntries s _ _
  | cons mh l ih => exact h.passive.bind (h.sRemoveHashT h.unlinkHashT) fun _ => ih

theorem sFlushBuckets (is : List Bucket) : Within R (Mcd.sFlushBuckets c is) := by
  induction is with
  | nil => exact h.passive.pure _
  | cons i is ih =>
    apply h.passive.bind h.passive.get
    intro s
    exact h.passive.bind (h.sFlushEntries i _) fun _ => ih

theorem pFlushEntries (id : Domid) (l : List McdHashT) : Within R (Mcd.pFlushEntries c id l) := by
  induction l with
  | nil => exact h.of_modify fun s => slab_setEntries s _ _
  | cons mh l ih => exact h.passive.bind (h.pRemoveHashT h.unlinkHashT) fun _ => ih

omit mh flag

theorem deliver (loc : Loc) (mh : McdHashT) (cap : UInt32) (rc : Rc) :
    Within R (Mcd.deliver c loc mh cap rc) := by
  apply h.passive.bind (h.passive.reading _)
  intro now
  apply h.passive.bind (h.of_modify fun s => slab_setEntries s _ _)
  intro _
  exact .ite (h.passive.pure _) (h.passive.pure _)

theorem noteAccess (mh : McdHashT) : Within R (Mcd.noteAccess c mh) :=
  h.passive.bind (h.passive.reading _) fun _ => h.of_modify fun _ => rfl

theorem transferIn (mch : McdctlHashT) (mh : McdHashT) : Within R (Mcd.transferIn c mch mh) := by
  intro s r t hret
  obtain ⟨_, _, rfl, -, -⟩ := transferIn_cases hret
  exact h.same rfl

end
end OfSlab

/-! ### The allocator's own routines -/

section
variable {c : Ctx} {s t : State} {u : Unit} {loc : Loc} {mch : McdctlHashT} {mh : McdHashT}

theorem allocs_refl (s : State) : Allocs s s := ofSlab_allocs.same rfl

theorem on_of_outsourcing (h : s.outsourcing) : s.slab.on = true := by
  simp only [State.outsourcing, Bool.and_eq_true] at h
  exact h.1

theorem mcdctlNewMalloc_allocs (he : s.pool.freelist = [])
    (h : Returns (mcdctlNewMalloc c) s u t) : Allocs s t := by
  simp only [mcdctlNewMalloc, returns_bind, returns_get, and_assoc, exists_and_left,
    exists_eq_left] at h
  by_cases ho : s.outsourcing
  · rw [if_neg (not_not_intro ho)] at h
    by_cases hfull : maxPagesForMcdctl ≤ s.pool.pages.length
    · rw [if_pos hfull] at h
      rw [(returns_pure.mp h).2]
      exact allocs_refl s
    · rw [if_neg hfull] at h
      obtain ⟨ok, s₁, hread, h⟩ := returns_bind.mp h
      rw [(returns_reading.mp hread).2] at h
      cases ok with
      | false =>
        rw [(returns_pure.mp h).2]
        exact ofSlab_allocs.same rfl
      | true =>
        rw [returns_modify.mp h]
        have hgrow := Slab.Step.grow (a := s.slab) headersPerPage (on_of_outsourcing ho) he
        exact hgrow.steps
  · rw [if_pos ho] at h
    rw [(returns_pure.mp h).2]
    exact allocs_refl s

theorem takeFree_inv {p : Block} (h : Returns takeFree s (some p) t) :
    ∃ ps, s.pool.freelist = p :: ps ∧ t = { s with pool := { s.pool with freelist := ps } } := by
  simp only [takeFree, returns_bind, returns_get, and_assoc, exists_and_left, exists_eq_left] at h
  cases hl : s.pool.freelist with
  | nil =>
    rw [hl] at h
    exact absurd (returns_pure.mp h).1 (by simp)
  | cons q qs =>
    rw [hl] at h
    simp only [returns_bind, returns_set, returns_pure, Option.some.injEq] at h
    obtain ⟨_, _, rfl, rfl, rfl⟩ := h
    exact ⟨qs, rfl, rfl⟩

/-- A header that `mcdctl_malloc` hands out is the first of a freelist. -/
theorem mcdctlMalloc_inv {p : Block} (h : Returns (mcdctlMalloc c) s (some p) t) :
    ∃ v, Allocs s v ∧ Returns takeFree v (some p) t := by
  simp only [mcdctlMalloc, returns_bind, returns_get, and_assoc, exists_and_left,
    exists_eq_left] at h
  by_cases ho : s.outsourcing
  · rw [if_neg (not_not_intro ho)] at h
    by_cases he : s.pool.freelist = []
    · rw [if_pos he] at h
      obtain ⟨_, v, hnew, htake⟩ := returns_bind.mp h
      exact ⟨v, mcdctlNewMalloc_allocs he hnew, htake⟩
    · rw [if_neg he] at h
      exact ⟨s, allocs_refl s, h⟩
  · rw [if_pos ho] at h
    exact absurd (returns_pure.mp h).1 (by simp)

theorem linkHeader_allocs : Within Allocs (linkHeader c mh) := by
  intro s u t h
  obtain ⟨mch, s₁, hcreate, hhas, rfl⟩ := linkHeader_inv h
  obtain ⟨o, s₂, hmalloc, hcreate⟩ := returns_bind.mp hcreate
  cases o with
  | none => exact (returns_throw.mp hcreate).elim
  | some p =>
    obtain ⟨rfl, rfl⟩ := returns_pure.mp hcreate
    obtain ⟨v, hv, htake⟩ := mcdctlMalloc_inv hmalloc
    obtain ⟨ps, hfree, rfl⟩ := takeFree_inv htake
    apply ofSlab_allocs.trans hv
    have hlink := Slab.Step.link (a := v.slab) (v.pageOutLoc mh) hfree
    unfold Allocs
    rw [slab_setHeaders hhas, List.map_append]
    exact hlink.steps

theorem mcdPageOut_allocs : Within Allocs (mcdPageOut c mh) := by
  have hp := ofSlab_allocs.passive
  apply hp.bind hp.get
  intro s
  apply Within.ite (hp.pure _)
  apply hp.bind (hp.reading _)
  intro out
  have haccepted : ∀ file, Within Allocs (do
      modify fun s : State => { s with store := s.store.set mh.domain mh.hash file }
      if mh.flags &&& mcdMinfError ≠ 0 then pure () else linkHeader c mh : M Unit) := fun file =>
    hp.bind (ofSlab_allocs.of_modify fun _ => rfl) fun _ => .ite (hp.pure _) linkHeader_allocs
  cases out with
  | refused => exact hp.pure _
  | _ => exact haccepted _

theorem unlinkHashT_allocs (flag : Move) : Within Allocs (unlinkHashT c loc mh flag) := by
  have hdel : Within Allocs (modify (·.listDel loc mh) : M Unit) :=
    ofSlab_allocs.of_modify fun s => slab_setEntries s _ loc
  exact .ite (ofSlab_allocs.passive.bind hdel fun _ => mcdPageOut_allocs) hdel

theorem reclaimed_allocs : Reclaimed c Allocs where
  toPassive := ofSlab_allocs.passive
  sRemove _ _ := ofSlab_allocs.sRemoveHashT (unlinkHashT_allocs _)
  pRemove _ _ := ofSlab_allocs.pRemoveHashT (unlinkHashT_allocs _)

/-- A header goes from its list to the freelist. -/
theorem mcdctlFree_allocs (hm : s.outsourcing → mch ∈ s.headers loc)
    (h : Returns (mcdctlFree loc mch) s u t) : Allocs s t := by
  have ht := (returns_mcdctlFree.mp h).2
  by_cases ho : s.outsourcing
  · rw [if_pos ho] at ht
    have hperm : (s.slab.lists loc).Perm
        (mch.block :: ((s.headers loc).erase mch).map (·.block)) :=
      (List.perm_cons_erase (hm ho)).map _
    have hslab := slab_setHeaders (has_of_mem_headers (hm ho)) ((s.headers loc).erase mch)
    have hrel := Slab.Step.release hperm
    have hpool : (s.setHeaders ((s.headers loc).erase mch) loc).pool = s.pool := by
      cases loc <;> rfl
    have hfreed : t.slab = { s.slab with
        free := mch.block :: s.slab.free
        lists := Function.update s.slab.lists loc (((s.headers loc).erase mch).map (·.block)) } := by
      rw [ht, State.freeHeader, hpool]
      have hon := congrArg Slab.on hslab
      have hlists := congrArg Slab.lists hslab
      simp only at hon hlists
      rw [← hlists]
      cases loc <;> rfl
    unfold Allocs
    rw [hfreed]
    exact hrel.steps
  · rw [ht, if_neg ho]
    exact allocs_refl s

/-- A list is initialised. -/
theorem setHeaders_nil_allocs (hs : s.Has loc) : Allocs s (s.setHeaders [] loc) := by
  have hforget : ∀ e, Function.update s.slab.lists loc [] e = s.slab.lists e ∨
      Function.update s.slab.lists loc [] e = [] := by
    intro e
    by_cases he : e = loc
    · rw [he, Function.update_self]
      exact .inr rfl
    · rw [Function.update_of_ne he]
      exact .inl rfl
  unfold Allocs
  rw [slab_setHeaders hs]
  exact (Slab.Step.forget hforget).steps

theorem flushHeaders_allocs {l : List McdctlHashT} (hs : s.Has loc)
    (hl : s.outsourcing → s.headers loc = l) (h : Returns (flushHeaders loc l) s u t) :
    Allocs s t := by
  induction l generalizing s with
  | nil =>
    rw [returns_modify.mp h]
    exact setHeaders_nil_allocs hs
  | cons mch l ih =>
    obtain ⟨_, s₁, hfree, h⟩ := returns_bind.mp h
    have hone := mcdctlFree_allocs (fun ho => by rw [hl ho]; exact List.mem_cons_self) hfree
    have hspec := mcdctlFree_spec hfree hs
    apply ofSlab_allocs.trans hone
    by_cases ho : s.tiers.outsourcing
    · rw [if_pos ho] at hspec
      apply ih (has_of_live (by rw [hspec]; rfl) hs) _ h
      intro _
      have hhead : s₁.headers = Function.update s.headers loc ((s.headers loc).erase mch) :=
        congrArg Tiers.headers hspec
      rw [hhead, Function.update_self, hl ho, List.erase_cons_head]
    · -- nothing is freed while outsourcing is off
      rw [if_neg ho] at hspec
      apply ih (has_of_live (by rw [hspec]) hs) _ h
      intro ho₁
      have hsame : s₁.tiers.outsourcing = s.tiers.outsourcing := by rw [hspec]
      exact absurd (hsame ▸ ho₁) ho

theorem pMcdFlush_allocs {id : Domid} : Within Allocs (pMcdFlush c id) := by
  intro s r t h
  obtain ⟨-, d, s₁, s₂, -, h₁, hs₁, h₂, h₃⟩ := pMcdFlush_inv h
  apply ofSlab_allocs.trans (ofSlab_allocs.pFlushEntries id _ _ _ _ h₁)
  apply ofSlab_allocs.trans (flushHeaders_allocs hs₁ (fun _ => rfl) h₂)
  exact ofSlab_allocs.minfRequest _ _ _ _ h₃

end

/-! ### Operations that keep the pages -/

section
variable {c : Ctx} {r : Reply} {s t : State} {loc : Loc} {id : Domid} {k : GuestKey}

theorem createMcdHashT_allocs {ks vs : UInt32} : Within Allocs (createMcdHashT c id ks vs) := by
  have hp := ofSlab_allocs.passive
  apply hp.bind (reclaimed_allocs.mcdMalloc _ id)
  intro val
  cases val with
  | none => exact hp.pure _
  | some addr =>
    apply hp.bind (hp.reading _)
    intro now
    apply hp.bind (hp.reading _)
    intro stale
    refine hp.bind (ofSlab_allocs.of_modify fun _ => rfl) fun _ => ?_
    refine hp.bind (ofSlab_allocs.of_modify fun _ => rfl) fun _ => ?_
    apply hp.bind (hp.domOf id)
    intro _
    refine hp.bind (ofSlab_allocs.of_modify fun s => ?_) fun _ => hp.pure _
    exact slab_modifyDom (f := (·.charge _)) (fun _ => rfl) (fun _ => rfl) id s

/-- A lookup of a header, and what is done with the one it finds. -/
theorem allocs_find {β : Type} {hash : UInt32} {f : Option McdctlHashT → M β}
    (hf : ∀ o s b t, (∀ mch, o = some mch → mch ∈ s.headers loc) → Returns (f o) s b t → Allocs s t) :
    Within Allocs (findMcdctlHashT loc hash >>= f) := by
  intro s b t h
  obtain ⟨o, s₁, hfind, hrest⟩ := returns_bind.mp h
  obtain ⟨-, ho, rfl⟩ := returns_findMcdctlHashT.mp hfind
  apply hf o s₁ b t _ hrest
  intro mch hmch
  rw [hmch] at ho
  exact List.mem_of_find?_eq_some ho.symm

theorem dropOutsourced_allocs {hash : UInt32} : Within Allocs (dropOutsourced c loc hash) := by
  apply allocs_find
  intro o s b t hmem h
  cases o with
  | none => exact ofSlab_allocs.passive.pure _ _ _ _ h
  | some mch =>
    obtain ⟨_, s₁, hdel, hfree⟩ := returns_bind.mp h
    apply ofSlab_allocs.trans (ofSlab_allocs.minfRequest _ _ _ _ hdel)
    apply mcdctlFree_allocs _ hfree
    intro _
    have hheads : s₁.headers = s.headers := by
      rcases minfRequest_spec hdel with hs | hs
      · exact congrArg Tiers.headers hs
      · exact congrArg Tiers.headers hs
    rw [hheads]
    exact hmem mch rfl

theorem mcdPageIn_allocs {mch : McdctlHashT} {o : Option McdHashT} (hmem : mch ∈ s.headers loc)
    (h : Returns (mcdPageIn c loc mch) s o t) : Allocs s t := by
  simp only [mcdPageIn, returns_bind, returns_get, and_assoc, exists_and_left,
    exists_eq_left] at h
  by_cases hout : s.outsourcing
  · rw [if_neg (not_not_intro hout)] at h
    obtain ⟨p, s₁, hcreate, h⟩ := returns_bind.mp h
    have hstart := createMcdHashT_allocs _ _ _ hcreate
    cases p with
    | none =>
      rw [(returns_pure.mp h).2]
      exact hstart
    | some mh =>
      obtain ⟨mh', s₂, htrans, h⟩ := returns_bind.mp h
      apply ofSlab_allocs.trans hstart
      apply ofSlab_allocs.trans (ofSlab_allocs.transferIn mch mh _ _ _ htrans)
      by_cases hflag : mh'.flags &&& mcdMinfError ≠ 0
      · rw [if_pos hflag] at h
        exact (returns_throw.mp h).elim
      · rw [if_neg hflag] at h
        obtain ⟨_, s₃, hfree, h⟩ := returns_bind.mp h
        rw [(returns_pure.mp h).2]
        apply mcdctlFree_allocs _ hfree
        intro _
        rcases createMcdHashT_spec hcreate with ⟨hnone, -⟩ | ⟨v, _, _, _, hmh, hcl, -, -, -, ht⟩
        · cases hnone
        · cases hmh
          obtain ⟨-, -, hkept, -⟩ := transferIn_spec htrans
          have h₂ : s₂.headers = s₁.headers := congrArg Tiers.headers hkept
          have h₁ : s₁.headers = v.headers := congrArg Tiers.headers ht
          -- the reclaim adds headers but takes none away
          rw [h₂, h₁]
          exact hcl.headers_subset loc hmem
  · rw [if_pos hout] at h
    rw [(returns_pure.mp h).2]
    exact allocs_refl s

theorem listAddTail_allocs (loc : Loc) (mh : McdHashT) :
    Within Allocs (modify (·.listAddTail loc mh) : M Unit) :=
  ofSlab_allocs.of_modify fun s => slab_setEntries s _ loc

theorem addMeasurement_allocs : Within Allocs (addMeasurement c id loc k) := by
  apply ofSlab_allocs.passive.bind createMcdHashT_allocs
  intro o
  cases o with
  | none => exact ofSlab_allocs.passive.pure _
  | some mh => exact listAddTail_allocs loc _

theorem putEntry_allocs {v : GuestVal} {ms : UInt32} : Within Allocs (putEntry c id k loc v ms) := by
  have hp := ofSlab_allocs.passive
  have hcreate : Within Allocs (createHashT c id k v) := by
    apply hp.bind createMcdHashT_allocs
    intro o
    cases o with
    | none => exact hp.pure _
    | some mh => exact hp.pure _
  have hquery : ∀ mh, Within Allocs (setQueryTime id mh ms) := by
    intro mh
    refine hp.bind (ofSlab_allocs.of_modify fun _ => rfl) fun _ => ?_
    refine hp.bind (ofSlab_allocs.of_modify fun s => ?_) fun _ => hp.pure _
    exact slab_modifyDom (f := (·.noteCost ms)) (fun _ => rfl) (fun _ => rfl) id s
  apply hp.bind hcreate
  intro o
  cases o with
  | none => exact hp.pure _
  | some mh =>
    apply hp.bind (hquery mh)
    intro mh
    exact hp.bind (listAddTail_allocs loc mh) fun _ => hp.pure _

/-- The part of both `get`s after a miss in memory. -/
theorem fetch_allocs {hash : UInt32} {rest : McdHashT → M Reply}
    (hrest : ∀ mh, Within Allocs (rest mh)) : Within Allocs (do
      match ← findMcdctlHashT loc hash with
      | none => pure (.code .errMcdFault)
      | some mch => do
        match ← mcdPageIn c loc mch with
        | none => pure (.code .errMcdFault)
        | some mh => do
          modify (·.listAddTail loc mh)
          rest mh) := by
  apply allocs_find
  intro o s b t hmem h
  cases o with
  | none => exact ofSlab_allocs.passive.pure _ _ _ _ h
  | some mch =>
    obtain ⟨p, s₁, hin, h⟩ := returns_bind.mp h
    apply ofSlab_allocs.trans (mcdPageIn_allocs (hmem mch rfl) hin)
    cases p with
    | none => exact ofSlab_allocs.passive.pure _ _ _ _ h
    | some mh =>
      exact ofSlab_allocs.passive.bind (listAddTail_allocs loc mh) (fun _ => hrest mh) _ _ _ h

theorem mcdSubCall_allocs {p q : M Reply} (hp : Within Allocs p) (hq : Within Allocs q) :
    Within Allocs (mcdSubCall p q) := by
  intro s r t h
  rcases mcdSubCall_spec h with ⟨-, h⟩ | ⟨-, h⟩
  · exact hq _ _ _ h
  · exact hp _ _ _ h

theorem get_allocs {cap : UInt32} : Within Allocs (mcdOp c (.get id k cap)) := by
  have hp := ofSlab_allocs.passive
  apply mcdSubCall_allocs
  · apply hp.bind (hp.domOf id)
    intro d
    cases findMcdHashT (getHash k.bytes) d.hashList with
    | some mh => exact ofSlab_allocs.deliver _ mh cap _
    | none => exact fetch_allocs fun mh => ofSlab_allocs.deliver _ mh cap _
  · apply hp.bind hp.get
    intro s
    cases findMcdHashT (getHash k.bytes) (s.entries (.bucket (bucketOf (getHash k.bytes)))) with
    | some mh => exact hp.bind (ofSlab_allocs.noteAccess mh) fun _ => ofSlab_allocs.deliver _ mh cap _
    | none =>
      exact fetch_allocs fun mh =>
        hp.bind (ofSlab_allocs.noteAccess mh) fun _ => ofSlab_allocs.deliver _ mh cap _

theorem check_allocs : Within Allocs (mcdOp c (.check id k)) := by
  have hp := ofSlab_allocs.passive
  have hmiss : ∀ loc hash (f : Option McdctlHashT → Reply), Within Allocs (do
      let mch ← findMcdctlHashT loc hash
      addMeasurement c id loc k
      pure (f mch)) := by
    intro loc hash f
    apply allocs_find
    intro o s b t _ h
    exact hp.bind addMeasurement_allocs (fun _ => hp.pure _) _ _ _ h
  apply mcdSubCall_allocs
  · apply hp.bind (hp.domOf id)
    intro d
    cases findMcdHashT (getHash k.bytes) d.hashList with
    | some mh => exact hp.pure _
    | none => exact hmiss _ _ _
  · apply hp.bind hp.get
    intro s
    cases findMcdHashT (getHash k.bytes) (s.entries (.bucket (bucketOf (getHash k.bytes)))) with
    | some mh => exact hp.pure _
    | none => exact hmiss _ _ _

theorem put_allocs {v : GuestVal} : Within Allocs (mcdOp c (.put id k v)) := by
  have hp := ofSlab_allocs.passive
  apply mcdSubCall_allocs
  · refine hp.bind ?_ fun ms => putEntry_allocs
    apply hp.bind (hp.domOf id)
    intro d
    cases findMcdHashT (getHash k.bytes) d.hashList with
    | some mh =>
      apply hp.bind (hp.reading _)
      intro now
      exact hp.bind (ofSlab_allocs.pRemoveHashT (unlinkHashT_allocs _)) fun _ => hp.pure _
    | none => exact hp.bind dropOutsourced_allocs fun _ => hp.pure _
  · refine hp.bind ?_ fun ms => putEntry_allocs
    apply hp.bind hp.get
    intro s
    cases findMcdHashT (getHash k.bytes) (s.shared (bucketOf (getHash k.bytes))) with
    | some mh =>
      apply hp.bind (hp.reading _)
      intro now
      refine hp.bind (ofSlab_allocs.of_modify fun _ => rfl) fun _ => ?_
      exact hp.bind (ofSlab_allocs.sRemoveHashT ofSlab_allocs.unlinkHashT) fun _ => hp.pure _
    | none => exact hp.bind dropOutsourced_allocs fun _ => hp.pure _

theorem remove_allocs : Within Allocs (mcdOp c (.remove id k)) := by
  have hp := ofSlab_allocs.passive
  apply mcdSubCall_allocs
  · apply hp.bind (hp.domOf id)
    intro d
    cases findMcdHashT (getHash k.bytes) d.hashList with
    | some mh =>
      exact hp.bind (ofSlab_allocs.pRemoveHashT ofSlab_allocs.unlinkHashT) fun _ => hp.pure _
    | none => exact hp.bind dropOutsourced_allocs fun _ => hp.pure _
  · apply hp.bind hp.get
    intro s
    cases findMcdHashT (getHash k.bytes) (s.shared (bucketOf (getHash k.bytes))) with
    | some mh =>
      exact hp.bind (ofSlab_allocs.sRemoveHashT ofSlab_allocs.unlinkHashT) fun _ => hp.pure _
    | none => exact hp.bind dropOutsourced_allocs fun _ => hp.pure _

end

/-! ### The release of the pages -/

/-- Some lists were emptied and the pages released; the lists in `spared` are as they were. -/
def Exits (spared : Loc → Prop) (s t : State) : Prop :=
  ∃ a on, (∀ loc, spared loc → a.lists loc = s.slab.lists loc) ∧
    (∀ loc, ¬ spared loc → a.lists loc = []) ∧ t.slab = Slab.exit a on

section
variable {spared : Loc → Prop} {s t : State}

theorem Exits.unlinked_iff {a : Slab Loc}
    (hkept : ∀ loc, spared loc → a.lists loc = s.slab.lists loc)
    (hgone : ∀ loc, ¬ spared loc → a.lists loc = []) :
    a.Unlinked ↔ ∀ loc, spared loc → s.headers loc = [] := by
  constructor
  · intro h loc hloc
    rw [← lists_eq_nil_iff, ← hkept loc hloc]
    exact h loc
  · intro h loc
    by_cases hloc : spared loc
    · rw [hkept loc hloc, lists_eq_nil_iff]
      exact h loc hloc
    · exact hgone loc hloc

/-- The release is sound exactly when no list that was left alone has a header. -/
theorem Exits.sound_iff (h : Exits spared s t) :
    t.slab.Sound ↔ ∀ loc, spared loc → s.headers loc = [] := by
  obtain ⟨a, on, hkept, hgone, ht⟩ := h
  rw [ht, Slab.sound_exit_iff]
  exact unlinked_iff hkept hgone

theorem Exits.inv (h : Exits spared s t) (hnone : ∀ loc, spared loc → s.headers loc = []) :
    t.slab.Inv := by
  obtain ⟨a, on, hkept, hgone, ht⟩ := h
  rw [ht]
  exact ((unlinked_iff hkept hgone).mpr hnone).inv_exit on

end

section
variable {c : Ctx} {s t : State}

theorem sMcdFlush_exit {r : Reply} (h : Returns (sMcdFlush c) s r t) :
    (∃ w : State, t = w.exitMcdctl) ∧ ∀ d, t.slab.lists (.dom d) = s.slab.lists (.dom d) := by
  simp only [sMcdFlush, mcdctlFlush, returns_bind, returns_modify, returns_pure] at h
  obtain ⟨_, s₁, h₁, _, s₄, ⟨_, s₂, h₂, _, s₃, h₃, rfl⟩, -, rfl⟩ := h
  refine ⟨⟨s₃, rfl⟩, fun d => ?_⟩
  have hsame : s₁.slab = s.slab := ofSlab_eq.sFlushBuckets _ _ _ _ h₁
  have hreq : s₃.slab = s₂.slab := ofSlab_eq.minfRequest _ _ _ _ h₃
  have hheads : s₂.headers (.dom d) = s₁.headers (.dom d) :=
    congrFun (congrArg Tiers.headers (flushBuckets_spec h₂)) (.dom d)
  show s₃.slab.lists (.dom d) = _
  rw [hreq, ← hsame]
  exact congrArg (List.map (·.block)) hheads

theorem pMcdFlushAll_exit {ids : List Domid} {u : Unit} (h : Returns (pMcdFlushAll c ids) s u t) :
    ∃ w : State, t = w.exitMcdctl := by
  induction ids generalizing s with
  | nil => exact ⟨s, returns_modify.mp h⟩
  | cons e ids ih =>
    unfold pMcdFlushAll at h
    by_cases hz : e = 0
    · rw [if_pos hz] at h
      exact ih h
    · rw [if_neg hz] at h
      obtain ⟨_, s₁, -, hrest⟩ := returns_bind.mp h
      exact ih hrest

theorem Flushes.exits {m : CacheMode} (h : Flushes c s t m) : Exits m.Spares s t := by
  have hgone : ∀ loc, ¬ m.Spares loc → t.slab.lists loc = [] :=
    fun loc hloc => lists_eq_nil_iff.mpr (h.emptied hloc).2
  cases m with
  | shared =>
    obtain ⟨r, h⟩ := h
    obtain ⟨⟨w, hw⟩, hkept⟩ := sMcdFlush_exit h
    refine ⟨t.slab, t.slab.on, fun loc hloc => ?_, hgone, by rw [hw]; rfl⟩
    cases loc with
    | bucket i => exact hloc.elim
    | dom d => exact hkept d
  | partition =>
    obtain ⟨w, hw⟩ := pMcdFlushAll_exit h
    refine ⟨t.slab, t.slab.on, fun loc hloc => ?_, hgone, by rw [hw]; rfl⟩
    have hnot : ¬ loc.GuestIn s.domids := by
      rintro ⟨d, -, hne, rfl⟩
      exact hne hloc
    exact congrArg (List.map (·.block)) ((pMcdFlushAll_emptied h loc).2 hnot).2

end

/-- The command releases the header pages. -/
def Cmd.Releases (s : State) : Cmd → Prop
  | .flush _ => s.cacheMode = .shared
  | .cacheMode which mode => s.targetMode which mode ≠ s.cacheMode
  | .param which _ p => which = 25 ∧ p = 1
  | .disable => True
  | _ => False

/-- The lists that keep their headers when it does. -/
def Cmd.Spares (s : State) : Cmd → Loc → Prop
  | .disable, _ => True
  | _, loc => s.cacheMode.Spares loc

/-- Pages are released only when no header stays linked. -/
def Cmd.Unlinks (s : State) (cmd : Cmd) : Prop :=
  cmd.Releases s → ∀ loc, cmd.Spares s loc → s.headers loc = []

section
variable {c : Ctx} {r : Reply} {s t : State} {cmd : Cmd}

theorem mcdOp_exits (hrel : cmd.Releases s) (h : Returns (mcdOp c cmd) s r t) :
    Exits (cmd.Spares s) s t := by
  cases cmd with
  | flush d =>
    have hm : s.cacheMode = .shared := hrel
    have hspares : Cmd.Spares s (.flush d) = CacheMode.shared.Spares := by
      funext loc
      show s.cacheMode.Spares loc = _
      rw [hm]
    rw [hspares]
    rcases mcdSubCall_spec h with ⟨-, h⟩ | ⟨hp, -⟩
    · exact Flushes.exits (m := .shared) ⟨r, h⟩
    · rw [hm] at hp
      cases hp
  | cacheMode which mode =>
    obtain ⟨rm, pm, w, hw, ⟨hsame, -⟩ | ⟨-, hflush⟩⟩ := setCacheMode_inv h
    · exact absurd hsame hrel
    · obtain ⟨a, on, hkept, hgone, ht⟩ := hflush.exits
      have hslab : w.slab = s.slab := by
        rw [hw]
        rfl
      rw [hslab] at hkept
      exact ⟨a, on, hkept, hgone, ht⟩
  | param which mode param =>
    rcases setParam_inv h with ⟨-, hflush⟩ | ⟨hnot, -⟩
    · exact hflush.exits
    · exact absurd hrel hnot
  | disable =>
    obtain ⟨_, s₁, hset, h⟩ := returns_bind.mp h
    rw [(returns_pure.mp h).2, returns_modify.mp hset]
    exact ⟨s.slab, false, fun _ _ => rfl, fun _ hloc => absurd trivial hloc, rfl⟩
  | _ => exact hrel.elim

theorem slab_domWeightUpdate (s : State) : s.domWeightUpdate.slab = s.slab := by
  have hh : s.domWeightUpdate.headers = s.headers := congrArg Tiers.headers (tiers_domWeightUpdate s)
  have hrest : s.domWeightUpdate.mcdctlEnabled = s.mcdctlEnabled ∧
      s.domWeightUpdate.pool = s.pool := by
    unfold State.domWeightUpdate
    by_cases hw : s.totalWeight ≤ 0
    · rw [if_pos hw]
      exact ⟨rfl, rfl⟩
    · rw [if_neg hw]
      exact ⟨rfl, rfl⟩
  exact slab_eq hh hrest.1 hrest.2

-- for any limit: the product in `memsizeBytes` must not be unfolded
theorem slab_maxMemBytes (bytes : UInt64) (s : State) :
    ({ s with maxMemBytes := bytes } : State).slab = s.slab := rfl

theorem memsize_allocs {m : Int32} : Within Allocs (mcdOp c (.memsize m)) := by
  have hp := ofSlab_allocs.passive
  apply hp.bind (ofSlab_allocs.of_modify (slab_maxMemBytes _))
  intro _
  apply hp.bind
  · exact hp.bind hp.get fun s => .ite (reclaimed_allocs.cacheFree _ 0) (hp.pure _)
  intro _
  apply hp.bind hp.get
  intro s
  exact hp.bind (hp.domUsageUpdateAll s.domains) fun _ => hp.pure _

theorem weight_allocs {d : Domid} {w : UInt32} : Within Allocs (mcdOp c (.weight d w)) := by
  have hp := ofSlab_allocs.passive
  apply hp.bind (hp.domOf d)
  intro rec
  refine hp.bind (ofSlab_allocs.of_modify fun _ => rfl) fun _ => ?_
  refine hp.bind (ofSlab_allocs.of_modify fun s => ?_) fun _ => ?_
  · exact slab_modifyDom (f := fun d => { d with weight := w }) (fun _ => rfl) (fun _ => rfl) d s
  · exact hp.bind (ofSlab_allocs.of_modify slab_domWeightUpdate) fun _ => hp.pure _

theorem create_allocs {d : Domid} (hd : d ∉ s.tiers.live) (h : Returns (mcdOp c (.create d)) s r t) :
    Allocs s t := by
  obtain ⟨o, s₁, hmalloc, h⟩ := returns_bind.mp h
  apply ofSlab_allocs.trans (reclaimed_allocs.mcdMalloc _ d _ _ _ hmalloc)
  cases o with
  | none =>
    rw [(returns_pure.mp h).2]
    exact allocs_refl s₁
  | some addr =>
    have hlive : s₁.tiers.live = s.tiers.live := (mcdMalloc_spec hmalloc).1.live_eq
    rw [← hlive] at hd
    simp only [returns_bind, returns_modify, returns_pure, exists_eq_left, exists_const] at h
    obtain ⟨_, s₂, hreq, -, rfl⟩ := h
    apply ofSlab_allocs.trans _ (ofSlab_allocs.minfRequest _ _ _ _ hreq)
    apply ofSlab_allocs.same
    have henrol : ∀ w, ({ s₁ with
        totalWeight := w, domains := s₁.domains ++ [freshDomain d] } : State).slab = s₁.slab :=
      fun w => slab_eq (congrArg Tiers.headers (tiers_enrol hd)) rfl rfl
    by_cases hpos : d > 0
    · rw [if_pos hpos, slab_domWeightUpdate]
      exact henrol _
    · rw [if_neg hpos]
      exact henrol _

theorem destroy_allocs {d : Domid} (hnd : s.tiers.live.Nodup)
    (h : Returns (mcdOp c (.destroy d)) s r t) : Allocs s t := by
  obtain ⟨_, s₁, hreq, h⟩ := returns_bind.mp h
  apply ofSlab_allocs.trans (ofSlab_allocs.minfRequest _ _ _ _ hreq)
  simp only [returns_bind, returns_domOf, returns_modify, returns_pure, and_assoc, exists_and_left,
    exists_eq_left, exists_const] at h
  obtain ⟨rec, -, _, s₂, hflush, -, rfl⟩ := h
  generalize hw : ({ s₁ with totalWeight := s₁.totalWeight - rec.weight } : State) = w at hflush
  have hslab : w.slab = s₁.slab := by rw [← hw]; rfl
  apply ofSlab_allocs.trans (ofSlab_allocs.same hslab)
  apply ofSlab_allocs.trans (pMcdFlush_allocs _ _ _ hflush)
  have hdone := pMcdFlush_emptied hflush
  have hlive : s₂.tiers.live.Nodup := by
    obtain ⟨-, u, st, hrem, -, -, htiers⟩ := pMcdFlush_spec hflush
    have hs₂ : s₂.tiers.live = u.live := by rw [htiers]; rfl
    have hs₁ : w.tiers.live = s.tiers.live := by
      rw [← hw]
      show s₁.tiers.live = s.tiers.live
      rcases minfRequest_spec hreq with hs | hs <;> rw [hs]
    rw [hs₂, Clears.live_eq hrem, hs₁]
    exact hnd
  have hempty : s₂.tiers.entries (.dom d) = [] := by rw [hdone.entries, Function.update_self]
  have hnone : s₂.tiers.headers (.dom d) = [] := by rw [hdone.headers, Function.update_self]
  apply ofSlab_allocs.same
  rw [slab_domWeightUpdate]
  exact slab_eq (congrArg Tiers.headers (tiers_retire hlive hempty hnone rfl)) rfl rfl

/-- A command that releases no pages. -/
theorem mcdOp_allocs (hnd : s.tiers.live.Nodup) (hfresh : cmd.Fresh s) (hrel : ¬ cmd.Releases s)
    (hne : cmd ≠ .enable) (h : Returns (mcdOp c cmd) s r t) : Allocs s t := by
  cases cmd with
  | get d k cap => exact get_allocs _ _ _ h
  | put d k v => exact put_allocs _ _ _ h
  | remove d k => exact remove_allocs _ _ _ h
  | check d k => exact check_allocs _ _ _ h
  | getsize d k =>
    have hsame : Returns (mcdOp c (.check d k)) s r t := h
    exact check_allocs _ _ _ hsame
  | flush d =>
    rcases mcdSubCall_spec h with ⟨hm, -⟩ | ⟨-, h⟩
    · exact absurd hm hrel
    · exact pMcdFlush_allocs _ _ _ h
  | memsize m => exact memsize_allocs _ _ _ h
  | weight d w => exact weight_allocs _ _ _ h
  | cacheMode which mode =>
    obtain ⟨rm, pm, w, hw, ⟨-, rfl⟩ | ⟨hother, -⟩⟩ := setCacheMode_inv h
    · rw [hw]
      exact ofSlab_allocs.same rfl
    · exact absurd hother hrel
  | param which mode param =>
    rcases setParam_inv h with ⟨hflush, -⟩ | ⟨-, alpha, beta, user, tick, rfl⟩
    · exact absurd hflush hrel
    · exact ofSlab_allocs.same rfl
  | create d => exact create_allocs hfresh h
  | destroy d => exact destroy_allocs hnd h
  | enable => exact absurd rfl hne
  | disable => exact absurd trivial hrel

/-- A daemon that attaches finds no header linked, since there were no pages. -/
theorem enable_inv (hs : s.slab.Inv) (h : Returns (mcdOp c .enable) s r t) : t.slab.Inv := by
  rw [mcdEventEnable_eq h]
  by_cases hon : s.mcdctlEnabled = true
  · rw [if_pos hon]
    exact hs
  · rw [if_neg hon]
    have hnone := hs.unlinked (hs.off (Bool.not_eq_true _ ▸ hon))
    apply Slab.Unlinked.inv_exit (a := { s.slab with lists := _ }) _ true
    intro loc
    cases loc with
    | bucket i => rfl
    | dom d => exact hnone (.dom d)

theorem mcdOp_sound_iff (hs : s.slab.Inv) (hnd : s.tiers.live.Nodup) (hfresh : cmd.Fresh s)
    (h : Returns (mcdOp c cmd) s r t) :
    (t.slab.Sound ↔ cmd.Unlinks s) ∧ (cmd.Unlinks s → t.slab.Inv) := by
  by_cases hrel : cmd.Releases s
  · have hexit := mcdOp_exits hrel h
    have hiff : cmd.Unlinks s ↔ ∀ loc, cmd.Spares s loc → s.headers loc = [] :=
      ⟨fun hu => hu hrel, fun hall _ => hall⟩
    rw [hiff]
    exact ⟨hexit.sound_iff, hexit.inv⟩
  · have hinv : t.slab.Inv := by
      by_cases hen : cmd = .enable
      · rw [hen] at h
        exact enable_inv hs h
      · exact hs.steps (mcdOp_allocs hnd hfresh hrel hen h)
    have hunlinks : cmd.Unlinks s := fun hr => absurd hr hrel
    exact ⟨⟨fun _ => hunlinks, fun _ => hinv.toSound⟩, fun _ => hinv⟩

end

/-- Calls among which no id is given to a second domain, and no page is released under a header. -/
def Call.Unlinks (y : System) (a : Call) : Prop := a.cmd.Fresh y.mcd ∧ a.cmd.Unlinks y.mcd

section
variable {y z : System} {a : Call} {r : Reply} {l : List (Call × Reply)}

/-- After its operation a hypercall leaves the allocator alone. -/
theorem call_slab (h : y.call a = .ok (r, z)) :
    ∃ t, Returns (mcdOp (y.ctx a.env) a.cmd) y.mcd r t ∧ z.mcd.slab = t.slab := by
  obtain ⟨s, s₁, s₂, hop, husage, hcaller, rfl⟩ := call_returns h
  have hp := ofSlab_eq.passive
  have hu : s₁.slab = s.slab := by
    refine hp.bind (x := get) hp.get (fun w => ?_) _ _ _ husage
    exact .ite (hp.domUsageUpdateAll w.domains) (hp.pure _)
  have hc : s₂.slab = s₁.slab := by
    unfold findCaller at hcaller
    cases hfor : a.cmd.countsFor with
    | none =>
      rw [hfor] at hcaller
      exact hp.pure _ _ _ _ hcaller
    | some id =>
      rw [hfor] at hcaller
      exact hp.bind (hp.domOf id) (fun _ => hp.pure _) _ _ _ hcaller
  exact ⟨s, hop, hc.trans hu⟩

theorem run_slab_inv (h : Run Call.Unlinks .start l y) :
    y.mcd.slab.Inv ∧ y.mcd.tiers.Counted := by
  apply h.invariant (I := fun y => y.mcd.slab.Inv ∧ y.mcd.tiers.Counted)
  · rintro y ⟨a, r⟩ z ⟨hinv, hc⟩ ⟨⟨hfresh, hunlinks⟩, hcall⟩
    obtain ⟨t, hop, hslab⟩ := call_slab hcall
    refine ⟨?_, call_counted hc hfresh hcall⟩
    rw [hslab]
    exact (mcdOp_sound_iff hinv hc.live hfresh hop).2 hunlinks
  · refine ⟨Slab.Unlinked.inv_exit (a := mcdStart.slab) ?_ false, counted_start⟩
    intro loc
    cases loc <;> rfl

end

instance (s : State) : (cmd : Cmd) → Decidable (cmd.Releases s)
  | .flush _ => inferInstanceAs (Decidable (s.cacheMode = .shared))
  | .cacheMode which mode => inferInstanceAs (Decidable (s.targetMode which mode ≠ s.cacheMode))
  | .param which _ p => inferInstanceAs (Decidable (which = 25 ∧ p = 1))
  | .disable => inferInstanceAs (Decidable True)
  | .get .. | .put .. | .remove .. | .check .. | .getsize .. | .memsize .. | .weight ..
  | .create .. | .destroy .. | .enable => inferInstanceAs (Decidable False)

/-- Calls that keep the pages. -/
def Call.KeepsPages (y : System) (a : Call) : Prop := a.cmd.Fresh y.mcd ∧ ¬ a.cmd.Releases y.mcd

instance (y : System) (a : Call) : Decidable (Call.KeepsPages y a) :=
  inferInstanceAs (Decidable (_ ∧ _))

theorem Call.KeepsPages.unlinks {y : System} {a : Call} (h : Call.KeepsPages y a) :
    Call.Unlinks y a := ⟨h.1, fun hrel => absurd hrel h.2⟩

theorem oneOutsourced_run : ∃ l, Run Call.Unlinks .start l System.oneOutsourced := by
  have hstart : System.start.runs Call.KeepsPages [⟨.calm, .create 1⟩, ⟨.calm, .enable⟩,
      ⟨.calm, .put 1 (.single 1) (.single 7)⟩] := by decide +kernel
  have hnext : System.oneShared.runs Call.KeepsPages
      [⟨.full .done, .put 1 (.single 2) (.single 8)⟩] := by decide +kernel
  have hshared : ∃ l, l.map (·.1) = _ ∧ Run Call.KeepsPages .start l System.oneShared :=
    run_of_runs hstart
  have hout : ∃ l, l.map (·.1) = _ ∧
      Run Call.KeepsPages System.oneShared l System.oneOutsourced := run_of_runs hnext
  obtain ⟨l, -, hrun⟩ := hshared
  obtain ⟨l', -, hrun'⟩ := hout
  exact ⟨_, (hrun.append hrun').mono fun hstep => ⟨hstep.1.unlinks, hstep.2⟩⟩

end UniCache.Mcd
