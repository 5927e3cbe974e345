import UniCache.Mcd.RefineOps
import UniCache.Transfer.Faults

/-! What `mcd_page_out` and `mcd_page_in` make of the transfers they wait for. -/
namespace UniCache.Mcd
open Base.Exec Transfer

/-- `mcd_page_out` and the model that drops its result do the same. -/
theorem returns_mcdPageOut {c : Ctx} {mh : McdHashT} {s t : State} :
    Returns (mcdPageOut c mh) s () t ↔ ∃ rc, Returns (mcdPageOutRc c mh) s rc t := by
  simp only [mcdPageOut, mcdPageOutRc, returns_bind, returns_get, and_assoc, exists_and_left,
    exists_eq_left]
  by_cases ho : s.outsourcing
  · simp only [if_neg (not_not_intro ho), returns_bind, returns_reading, and_assoc, exists_and_left,
      exists_eq_left]
    cases c.pageOut s.tick with
    | refused => simp
    | _ =>
      by_cases hflag : mh.flags &&& mcdMinfError ≠ 0
      · simp [if_pos hflag]
      · simp [if_neg hflag, Unique.exists_iff]
  · rw [if_pos ho, if_pos ho]
    simp

def McdHashT.entry (mh : McdHashT) : Entry := ⟨mh.domain, mh.hash, mh.keySize, mh.valSize⟩

def McdctlHashT.entry (mch : McdctlHashT) : Entry :=
  ⟨mch.domain, mch.hash, mch.keySize, mch.valSize⟩

/-- The world of a page-out of `mh`, which is at `addr`. -/
structure Describes (x : World UInt8) (addr : Nat) (s : State) (mh : McdHashT) : Prop where
  idle : x.Idle
  entry : x.entry addr = mh.entry
  bytes : (x.keyVal addr).bytes 0 mh.entry.size = mh.keyVal
  file : x.disk.files mh.domain mh.hash = s.store mh.domain mh.hash

/-- What `mcd_page_out` learns of a run, and the file it leaves. -/
def Tells (mh : McdHashT) (z : World UInt8) (evs : Option (List Event)) (out : PageOut) : Prop :=
  match evs with
  | none => out = .refused
  | some _ => out ≠ .refused ∧ out.file mh = z.disk.files mh.domain mh.hash

/-- A header can be had, at the reading after the next, and linked. -/
structure State.CanLink (c : Ctx) (mh : McdHashT) (s : State) : Prop where
  header : s.pool.freelist ≠ [] ∨
    s.pool.pages.length < maxPagesForMcdctl ∧ c.xmalloc (s.tick + 1) = true
  intact : s.intact (s.pageOutLoc mh) = true
  has : s.Has (s.pageOutLoc mh)

section
variable {c : Ctx} {mh : McdHashT} {s t : State}

theorem takeFree_returns (h : s.pool.freelist ≠ []) :
    ∃ p t, Returns takeFree s (some p) t ∧ t.tiers = s.tiers ∧ t.pool.pages = s.pool.pages := by
  cases hl : s.pool.freelist with
  | nil => exact absurd hl h
  | cons p ps =>
    refine ⟨p, { s with pool := { s.pool with freelist := ps } }, ?_, rfl, rfl⟩
    simp [takeFree, hl]

theorem mcdctlMalloc_returns (ho : s.outsourcing)
    (h : s.pool.freelist ≠ [] ∨ s.pool.pages.length < maxPagesForMcdctl ∧ c.xmalloc s.tick = true) :
    ∃ p t, Returns (mcdctlMalloc c) s (some p) t ∧ t.tiers = s.tiers ∧
      s.pool.pages ⊆ t.pool.pages := by
  simp only [mcdctlMalloc, returns_bind, returns_get, and_assoc, exists_and_left, exists_eq_left,
    if_neg (not_not_intro ho)]
  by_cases hfree : s.pool.freelist = []
  · obtain ⟨hroom, hok⟩ := h.resolve_left (not_not_intro hfree)
    let u : State := { s.bump with pool :=
      { pages := s.pool.pages ++ [s.pool.nextPage]
        freelist := (List.range headersPerPage).map fun i => (s.pool.nextPage, i)
        nextPage := s.pool.nextPage + 1 } }
    have hnew : Returns (mcdctlNewMalloc c) s () u := by
      simp only [mcdctlNewMalloc, returns_bind, returns_get, and_assoc, exists_and_left,
        exists_eq_left, if_neg (not_not_intro ho), if_neg (Nat.not_le.mpr hroom), returns_reading,
        hok, if_true, returns_modify]
      rfl
    obtain ⟨p, t, htake, ht, hpages⟩ := takeFree_returns (s := u) (by simp [u, headersPerPage])
    refine ⟨p, t, ?_, ht, ?_⟩
    · rw [if_pos hfree]
      exact returns_bind.mpr ⟨_, _, hnew, htake⟩
    · rw [hpages]
      exact List.subset_append_left _ _
  · obtain ⟨p, t, htake, ht, hpages⟩ := takeFree_returns hfree
    refine ⟨p, t, ?_, ht, hpages ▸ List.Subset.refl _⟩
    rw [if_neg hfree]
    exact htake

theorem intact_mono {loc : Loc} (hh : t.headers loc = s.headers loc)
    (hp : s.pool.pages ⊆ t.pool.pages) (h : s.intact loc = true) : t.intact loc = true := by
  simp only [State.intact, List.all_eq_true, List.contains_iff_mem] at h ⊢
  rw [hh]
  exact fun mch hm => hp (h mch hm)

/-- A header that can be had is linked. -/
theorem linkHeader_returns (ho : s.outsourcing)
    (hheader : s.pool.freelist ≠ [] ∨
      s.pool.pages.length < maxPagesForMcdctl ∧ c.xmalloc s.tick = true)
    (hintact : s.intact (s.pageOutLoc mh) = true) (hhas : s.Has (s.pageOutLoc mh)) :
    ∃ t, Returns (linkHeader c mh) s () t := by
  obtain ⟨p, u, hmalloc, hu, hpages⟩ := mcdctlMalloc_returns ho hheader
  have hloc : u.pageOutLoc mh = s.pageOutLoc mh := by
    unfold State.pageOutLoc
    rw [show u.cacheMode = s.cacheMode from congrArg (fun t => t.cfg.cacheMode) hu]
  have hheads : u.headers = s.headers := congrArg Tiers.headers hu
  have hintact' : u.intact (u.pageOutLoc mh) = true := by
    rw [hloc]
    exact intact_mono (congrFun hheads _) hpages hintact
  have hhas' : u.Has (u.pageOutLoc mh) := by
    rw [hloc]
    exact has_of_tiers_eq hu hhas
  have hmade : Returns (createMcdctlHashT c mh) s (mh.header p.1 p.2) u :=
    returns_bind.mpr ⟨_, _, hmalloc, returns_pure.mpr ⟨rfl, rfl⟩⟩
  refine ⟨u.setHeaders (u.headers (u.pageOutLoc mh) ++ [mh.header p.1 p.2]) (u.pageOutLoc mh), ?_⟩
  simp only [linkHeader, returns_bind, returns_get, returns_checkIntact, and_assoc,
    exists_and_left, exists_eq_left]
  refine ⟨_, u, hmade, hintact', (), ?_⟩
  unfold State.pageOutLoc at hhas' ⊢
  cases hm : u.cacheMode with
  | shared => exact returns_set.mpr rfl
  | partition =>
    rw [hm] at hhas'
    obtain ⟨d, hd⟩ := Option.isSome_iff_exists.mp hhas'
    rw [hd]
    exact returns_set.mpr rfl

/-- Whatever became of an accepted transfer, `mcd_page_out` links a header and reports success. -/
theorem mcdPageOutRc_accepted (ho : s.outsourcing) (hne : c.pageOut s.tick ≠ .refused)
    (hnormal : mh.flags = mcdHashTNormal) (hlink : s.CanLink c mh) :
    ∃ t page slot, Returns (mcdPageOutRc c mh) s .zero t ∧
      t.tiers = s.tiers.outsource mh ((c.pageOut s.tick).file mh) page slot := by
  have hflag : ¬ (mh.flags &&& mcdMinfError ≠ 0) := by rw [hnormal]; decide
  let u : State := { s.bump with
    store := s.store.set mh.domain mh.hash ((c.pageOut s.tick).file mh) }
  have hhas : u.Has (u.pageOutLoc mh) := has_of_live (s := s) rfl hlink.has
  obtain ⟨t, ht⟩ := linkHeader_returns (s := u) ho hlink.header hlink.intact hhas
  obtain ⟨page, slot, htiers⟩ := linkHeader_spec ht
  refine ⟨t, page, slot, ?_, htiers⟩
  simp only [mcdPageOutRc, returns_bind, returns_get, and_assoc, exists_and_left, exists_eq_left,
    if_neg (not_not_intro ho), returns_reading]
  cases hout : c.pageOut s.tick with
  | refused => exact absurd hout hne
  | _ =>
    refine ⟨(), u, returns_modify.mpr ?_, ?_⟩
    · rw [← hout]
      rfl
    · rw [if_neg hflag]
      exact returns_bind.mpr ⟨(), t, ht, returns_pure.mpr ⟨rfl, rfl⟩⟩

/-- Success and a header exactly for a file that holds the entry. -/
structure PageOutContract (mh : McdHashT) (s : State) (rc : Rc) (t : State) : Prop where
  success : (rc = .zero ∧ ∃ page slot, t.headers (s.pageOutLoc mh) =
      s.headers (s.pageOutLoc mh) ++ [mh.header page slot]) ↔
    t.store mh.domain mh.hash = some mh.keyVal
  failure : t.store mh.domain mh.hash ≠ some mh.keyVal → rc ≠ .zero ∧ t.headers = s.headers

end

/-- An entry of domain 1: key 1 with the value 7. -/
def smallEntry : McdHashT := (freshHashT 1 1 1 1 0 fun _ => 0).fill (.single 1) (.single 7)

def smallLoc : Loc := .bucket (bucketOf (getHash [1]))

/-- The world in which `smallEntry` is paged out. -/
def World.small : World UInt8 := World.quiet smallEntry.entry fun _ o => if o = 0 then 1 else 7

section
variable {c : Ctx} {mh : McdHashT} {s t : State}

/-- The list a `get` works on. -/
def State.getLoc (s : State) (d : Domid) (k : GuestKey) : Loc :=
  match s.cacheMode with
  | .shared => .bucket (bucketOf (getHash k.bytes))
  | .partition => .dom d

/-- An entry only when all its bytes have come; otherwise nothing but the failure is to be seen, by
the caller or by a guest. -/
structure PageInContract (c : Ctx) (loc : Loc) (mch : McdctlHashT) (s : State) (received : Prop)
    (r : Option McdHashT) (t : State) : Prop where
  complete : r.isSome → received
  undone : ¬ received → r = none ∧ mch ∈ t.headers loc ∧ t.data = s.data ∧
    ∀ d, (findMcdDom d t).map (fun m => (m.nrUsedPages, m.nrUsedBytes, m.nrKeys)) =
      (findMcdDom d s).map fun m => (m.nrUsedPages, m.nrUsedBytes, m.nrKeys)
  reply : ¬ received → ∀ d k cap reply w, Returns (mcdOp c (.get d k cap)) s reply w →
    s.getLoc d k = loc → findMcdHashT (getHash k.bytes) (s.entries loc) = none →
    (s.headers loc).find? (·.hash = getHash k.bytes) = some mch →
    reply.rc = .errMcdFault ∧ reply.val = none

theorem transferIn_intact {mch : McdctlHashT} {mh' : McdHashT} {u v : State}
    (h : Returns (transferIn c mch mh) u mh' v) (loc : Loc) : v.intact loc = u.intact loc := by
  obtain ⟨_, _, rfl, -, -⟩ := transferIn_cases h
  cases loc <;> rfl

theorem transferIn_returns (mch : McdctlHashT) (mh : McdHashT) (u : State) :
    ∃ mh' v, Returns (transferIn c mch mh) u mh' v := by
  simp only [transferIn, returns_bind, returns_reading, returns_get, and_assoc, exists_and_left,
    exists_eq_left]
  cases c.pageIn u.tick with
  | done => exact ⟨_, _, returns_bind.mpr ⟨(), _, returns_set.mpr rfl, returns_pure.mpr ⟨rfl, rfl⟩⟩⟩
  | failed got => exact ⟨_, _, returns_pure.mpr ⟨rfl, rfl⟩⟩

/-- A page-in takes its transfer for a success, however it ended. -/
theorem returns_mcdPageIn {loc : Loc} {mch : McdctlHashT} {u : State} {r : Option McdHashT}
    (ho : s.outsourcing)
    (hmade : Returns (createMcdHashT c mch.domain mch.keySize mch.valSize) s (some mh) u) :
    Returns (mcdPageIn c loc mch) s r t ↔ mch.valSize ≠ 0 ∧
      ∃ mh' v, Returns (transferIn c mch mh) u mh' v ∧ r = some mh' ∧
        Returns (mcdctlFree loc mch) v () t := by
  rcases createMcdHashT_spec hmade with ⟨h, -⟩ | ⟨-, addr, now, stale, h, -⟩
  · cases h
  cases h
  simp only [mcdPageIn, returns_bind, returns_get, and_assoc, exists_and_left, exists_eq_left,
    if_neg (not_not_intro ho)]
  constructor
  · rintro ⟨o, u', hmade', h⟩
    obtain ⟨rfl, rfl⟩ := returns_unique hmade hmade'
    obtain ⟨mh', v, htr, h⟩ := returns_bind.mp h
    obtain ⟨hfetch, -⟩ := transferIn_spec htr
    by_cases hval : mch.valSize = 0
    · rw [hfetch.flags, if_pos hval, if_pos (by decide)] at h
      exact (returns_throw.mp h).elim
    · rw [hfetch.flags, if_neg hval, if_neg (by decide)] at h
      obtain ⟨_, w, hfree, h⟩ := returns_bind.mp h
      obtain ⟨rfl, rfl⟩ := returns_pure.mp h
      exact ⟨hval, mh', v, htr, rfl, hfree⟩
  · rintro ⟨hval, mh', v, htr, rfl, hfree⟩
    obtain ⟨hfetch, -⟩ := transferIn_spec htr
    refine ⟨_, u, hmade, returns_bind.mpr ⟨mh', v, htr, ?_⟩⟩
    rw [hfetch.flags, if_neg hval, if_neg (by decide)]
    exact returns_bind.mpr ⟨(), t, hfree, returns_pure.mpr ⟨rfl, rfl⟩⟩

/-- `mcd_page_in` of a header that was found memory for returns and keeps its contract exactly when
no step of its transfer fails, the header is one of a value, and the headers are in place. -/
theorem mcdPageIn_contract_iff {β : Type} {R : β → Prop} {n addr : Nat} {x z : World β}
    {evs : Option (List Event)} {loc : Loc} {mch : McdctlHashT} {u : State} (hn : 1 ≤ n)
    (hidle : x.Idle) (hshared : ∀ i, R (x.sharedPage i)) (hblank : ∀ o, ¬ R (x.keyVal addr o))
    (hentry : x.entry addr = mch.entry) (hrun : GetRun n addr x evs z) (ho : s.outsourcing)
    (hmade : Returns (createMcdHashT c mch.domain mch.keySize mch.valSize) s (some mh) u)
    (hread : c.pageIn u.tick = .done ↔ ∀ o < mch.entry.size, R (z.keyVal addr o)) :
    (∃ r t, Returns (mcdPageIn c loc mch) s r t ∧
        PageInContract c loc mch s (c.pageIn u.tick = .done) r t) ↔
      (Faultless evs ∧ x.Opens mch.domain ∧ mch.entry.size < 2 ^ 32) ∧ mch.valSize ≠ 0 ∧
        u.intact loc = true := by
  have hall (hval : mch.valSize ≠ 0) : c.pageIn u.tick = .done ↔
      Faultless evs ∧ x.Opens mch.domain ∧ mch.entry.size < 2 ^ 32 := by
    have hpos : 0 < mch.entry.size := by
      have h0 : mch.valSize.toNat ≠ 0 := fun h => hval (UInt32.toNat_inj.mp h)
      have h1 : mch.entry.size = mch.keySize.toNat + mch.valSize.toNat := rfl
      omega
    have h := getRun_received_iff (R := R) hn hidle hshared hblank (hentry ▸ hpos) hrun
    rw [hentry] at h
    exact hread.trans h
  constructor
  · rintro ⟨r, t, hret, hcontract⟩
    obtain ⟨hval, mh', v, htr, rfl, hfree⟩ := (returns_mcdPageIn ho hmade).mp hret
    have hintact := mcdctlFree_returns_iff.mp ⟨t, hfree⟩
    rw [transferIn_intact htr] at hintact
    exact ⟨(hall hval).mp (hcontract.complete rfl), hval, hintact⟩
  · rintro ⟨hgood, hval, hintact⟩
    obtain ⟨mh', v, htr⟩ := transferIn_returns (c := c) mch mh u
    rw [← transferIn_intact htr] at hintact
    obtain ⟨t, hfree⟩ := mcdctlFree_returns_iff.mpr hintact
    have hdone := (hall hval).mpr hgood
    exact ⟨some mh', t, (returns_mcdPageIn ho hmade).mpr ⟨hval, mh', v, htr, rfl, hfree⟩,
      fun _ => hdone, fun h => absurd hdone h, fun h => absurd hdone h⟩

end

/-- Key 1 was put and evicted. -/
def System.oneEvicted : System := System.oneGuest.after
  [⟨.calm, .put 1 (.single 1) (.single 7)⟩, ⟨.full .done, .put 1 (.single 2) (.single 8)⟩]

/-- The page-in of the evicted entry; a byte is `true` once it has come. -/
def World.marked : World Bool where
  entry := fun _ => smallEntry.entry
  keyVal := fun _ _ => false
  sharedPage := fun _ => true
  requests := []
  responses := []
  putLock := false
  getLock := false
  disk := { files := fun _ _ => none, fds := fun _ => none, nextFd := 3, dir0 := false }

theorem mcdPageIn_contract_small :
    ∃ k r t, Returns (mcdPageIn (System.oneEvicted.ctx .calm) smallLoc (smallEntry.header 0 0))
        System.oneEvicted.mcd r t ∧
      PageInContract (System.oneEvicted.ctx .calm) smallLoc (smallEntry.header 0 0)
        System.oneEvicted.mcd ((System.oneEvicted.ctx .calm).pageIn k = .done) r t := by
  have hmade : ((createMcdHashT (System.oneEvicted.ctx .calm) 1 1 1).run
      System.oneEvicted.mcd).toOption.map (fun p => (p.1.isSome, p.2.intact smallLoc)) =
        some (true, true) := by decide +kernel
  obtain ⟨o, u, hmade, heq⟩ := returns_of_map hmade
  simp only [Prod.mk.injEq] at heq
  obtain ⟨mh, rfl⟩ := Option.isSome_iff_exists.mp heq.1
  have hidle : World.marked.Idle := ⟨rfl, rfl, rfl, rfl⟩
  have hopens : World.marked.Opens smallEntry.domain := .inl (by decide)
  obtain ⟨evs, z, hrun, hf⟩ : ∃ evs z, GetRun 1 0 World.marked evs z ∧ Faultless evs :=
    exists_getRun (Nat.le_refl 1) hidle hopens
  have hgood : Faultless evs ∧ World.marked.Opens smallEntry.domain ∧
      smallEntry.entry.size < 2 ^ 32 := ⟨hf, hopens, by decide⟩
  have hgot := (getRun_received_iff (R := fun b => b = true) (Nat.le_refl 1) hidle (fun _ => rfl)
    (fun _ => Bool.false_ne_true) (by decide) hrun).mpr hgood
  have hentry : World.marked.entry 0 = (smallEntry.header 0 0).entry := rfl
  have hpos : (smallEntry.header 0 0).valSize ≠ 0 := by decide
  obtain ⟨r, t, hret, hcontract⟩ := (mcdPageIn_contract_iff (R := fun b => b = true)
    (Nat.le_refl 1) hidle (fun _ => rfl) (fun _ => Bool.false_ne_true) hentry hrun
    (by decide +kernel) hmade (iff_of_true rfl hgot)).mpr ⟨hgood, hpos, heq.2⟩
  exact ⟨_, r, t, hret, hcontract⟩

/-- The daemon cannot open the file of a page-in: no byte comes, and yet the `get` succeeds with what
was in memory and the header is gone. -/
theorem failed_page_in_is_delivered :
    (∃ z, GetRun 1 0 World.marked (some [.openFails, .resume]) z ∧ ∀ o < 2, z.keyVal 0 o = false) ∧
      System.oneEvicted.mcd.headers smallLoc = [smallEntry.header 0 0] ∧
      System.oneEvicted.replies [⟨{ Env.calm with pageIn := fun _ => .failed [] }, .get 1 (.single 1) 8⟩] =
        some [⟨.retGetSsd, some 1, some [0]⟩] ∧
      (System.oneEvicted.after [⟨{ Env.calm with pageIn := fun _ => .failed [] },
        .get 1 (.single 1) 8⟩]).mcd.headers smallLoc = [] := by
  refine ⟨?_, by decide +kernel, by decide +kernel, by decide +kernel⟩
  have h : (getEvents 1 0 [.openFails, .resume] World.marked).map
      (fun z => (z.getLock, z.keyVal 0 0, z.keyVal 0 1)) = some (false, false, false) := by
    decide +kernel
  obtain ⟨z, hz, heq⟩ := Option.map_eq_some_iff.mp h
  simp only [Prod.mk.injEq] at heq
  obtain ⟨hlock, h0, h1⟩ := heq
  refine ⟨z, getRun_of_events hz hlock, fun o ho => ?_⟩
  rcases Nat.le_one_iff_eq_zero_or_eq_one.mp (Nat.le_of_lt_succ ho) with rfl | rfl
  · exact h0
  · exact h1

end UniCache.Mcd
