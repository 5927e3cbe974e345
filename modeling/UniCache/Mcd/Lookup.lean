import UniCache.Mcd.Coherence
import UniCache.Mcd.RefineControl

/-! The lookups `XENMCD_cache_check` and `XENMCD_cache_getsize`, and what they leave behind. Beside
the tiers they move the caller's hit rate, which only the adaptive partition mode reads. -/
namespace UniCache.Mcd
open Base.Exec

/-- The same environment with other hit rates. -/
def Ctx.rated (c : Ctx) (rates : Domid → UInt32) : Ctx := { c with hitrate := rates }

section
variable (c : Ctx) (rates : Domid → UInt32) (now : Int) (amount : UInt64)

theorem sweepBucket_rated (i : Bucket) (l : List McdHashT) (latedel : Option McdHashT)
    (tot : UInt64) :
    sweepBucket (c.rated rates) amount i l latedel tot = sweepBucket c amount i l latedel tot := by
  have hone : sremove (c.rated rates) = sremove c := rfl
  induction l generalizing latedel tot with
  | nil => simp only [sweepBucket, hone]
  | cons curr rest ih => simp only [sweepBucket, hone, ih]

theorem sweep_rated (is : List Bucket) (tot : UInt64) :
    sweep (c.rated rates) amount is tot = sweep c amount is tot := by
  induction is generalizing tot with
  | nil => rfl
  | cons i is ih => simp only [sweep, sweepBucket_rated, ih]

theorem sharedCacheFree_rated :
    sharedCacheFree (c.rated rates) amount = sharedCacheFree c amount := by
  have hpolicy : replacePolicy (c.rated rates) = replacePolicy c := rfl
  have hnow : readNow (c.rated rates) = readNow c := rfl
  simp only [sharedCacheFree, sharedReplace, hpolicy, hnow, sweep_rated]

theorem domUsageUpdateAll_rated (l : List McdDomain) :
    domUsageUpdateAll (c.rated rates) l = domUsageUpdateAll c l := by
  have hone : domUsageUpdate (c.rated rates) = domUsageUpdate c := rfl
  induction l with
  | nil => rfl
  | cons d l ih => simp only [domUsageUpdateAll, hone, ih]

theorem walkRemove_rated (id : Domid) (stop : UInt64 → Bool) (l : List McdHashT)
    (latedel : Option McdHashT) (p : Progress) :
    walkRemove (c.rated rates) id stop l latedel p = walkRemove c id stop l latedel p := by
  have hone : premove (c.rated rates) = premove c := rfl
  induction l generalizing latedel p with
  | nil => simp only [walkRemove, hone]
  | cons curr rest ih => simp only [walkRemove, hone, ih]

theorem brutallyFree_rated (ids : List Domid) (p : Progress) :
    brutallyFree (c.rated rates) amount ids p = brutallyFree c amount ids p := by
  induction ids generalizing p with
  | nil => rfl
  | cons id ids ih => simp only [brutallyFree, walkRemove_rated, ih]

theorem replaceModeSubroutine_rated (id : Domid) (r : Reclaim) :
    replaceModeSubroutine (c.rated rates) now id r = replaceModeSubroutine c now id r := by
  have hone : premove (c.rated rates) = premove c := rfl
  have hlfru : lfruRemove (c.rated rates) = lfruRemove c := rfl
  simp only [replaceModeSubroutine, hone, hlfru, walkRemove_rated]

theorem phaseRound_rated (considered : Domid → Bool) (eligible : McdDomain → Bool)
    (ids : List Domid) (r : Reclaim) :
    phaseRound (c.rated rates) now amount considered eligible ids r =
      phaseRound c now amount considered eligible ids r := by
  induction ids generalizing r with
  | nil => rfl
  | cons id ids ih => simp only [phaseRound, phaseStep, replaceModeSubroutine_rated, ih]

theorem phaseLoop_rated (considered : Domid → Bool) (eligible : McdDomain → Bool) (turns : Nat)
    (r : Reclaim) :
    phaseLoop (c.rated rates) now amount considered eligible turns r =
      phaseLoop c now amount considered eligible turns r := by
  induction turns generalizing r with
  | zero => rfl
  | succ turns ih => simp only [phaseLoop, phaseRound_rated, ih]

theorem selfBrutalRound_rated (id : Domid) (ids : List Domid) (p : Progress) :
    selfBrutalRound (c.rated rates) amount id ids p = selfBrutalRound c amount id ids p := by
  induction ids generalizing p with
  | nil => rfl
  | cons i ids ih => simp only [selfBrutalRound, walkRemove_rated, ih]

theorem selfBrutalLoop_rated (id : Domid) (turns : Nat) (p : Progress) :
    selfBrutalLoop (c.rated rates) amount id turns p = selfBrutalLoop c amount id turns p := by
  induction turns generalizing p with
  | zero => rfl
  | succ turns ih => simp only [selfBrutalLoop, selfBrutalRound_rated, ih]

theorem partitionCfWeightBased_rated (id : Domid) :
    partitionCfWeightBased (c.rated rates) amount id = partitionCfWeightBased c amount id := by
  have hnow : readNow (c.rated rates) = readNow c := rfl
  have hpatience : (c.rated rates).patience = c.patience := rfl
  simp only [partitionCfWeightBased, brutalPhase, weightPhases, weightPhase, selfBrutalPhase, hnow,
    hpatience, domUsageUpdateAll_rated, brutallyFree_rated, phaseLoop_rated, selfBrutalLoop_rated]

end
/-- The hit rates are not read: this is not the adaptive partition mode. -/
def State.Unrated (s : State) : Prop := ¬ (s.cacheMode = .partition ∧ s.partitionMode = .ad)

theorem unrated_of_cfg {s t : State} (h : t.tiers.cfg = s.tiers.cfg) (hs : s.Unrated) :
    t.Unrated := by
  have hc : t.cacheMode = s.cacheMode := congrArg Config.cacheMode h
  have hp : t.partitionMode = s.partitionMode := congrArg Config.partitionMode h
  unfold State.Unrated at hs ⊢
  rw [hc, hp]
  exact hs

section
variable {α : Type} {x : M α}

theorem agree_of_cfg (h : ∀ s a t, Returns x s a t → t.tiers.cfg = s.tiers.cfg) :
    Agree State.Unrated x x :=
  agree_of_keeps fun s a t hx hs => unrated_of_cfg (h s a t hx) hs

theorem agree_of_quiet (h : Quiet x) : Agree State.Unrated x x :=
  agree_of_cfg fun s a t hx => congrArg Tiers.cfg (h s a t hx)

end

section
variable (c : Ctx) (rates : Domid → UInt32) (id : Domid)

theorem cacheFree_agree (amount : UInt64) :
    Agree State.Unrated (cacheFree c amount id) (cacheFree (c.rated rates) amount id) := by
  intro s hs
  refine ⟨?_, fun rc t h => unrated_of_cfg (cacheFree_clears h).1.cfg_eq hs⟩
  cases hm : s.cacheMode with
  | shared =>
    have hrun (c : Ctx) : (cacheFree c amount id).run s = (sharedCacheFree c amount).run s := by
      simp [cacheFree, hm]
    rw [hrun c, hrun (c.rated rates), sharedCacheFree_rated]
  | partition =>
    cases hp : s.partitionMode with
    | be =>
      have hrun (c : Ctx) : (cacheFree c amount id).run s = (pure .errNo : M Rc).run s := by
        simp [cacheFree, hm, partitionCacheFree, hp]
      rw [hrun c, hrun (c.rated rates)]
    | wb =>
      have hrun (c : Ctx) : (cacheFree c amount id).run s =
          (partitionCfWeightBased c amount id).run s := by
        simp [cacheFree, hm, partitionCacheFree, hp]
      rw [hrun c, hrun (c.rated rates), partitionCfWeightBased_rated]
    | ad => exact absurd ⟨hm, hp⟩ hs

theorem firstTrial_agree (size maxBytes : UInt64) :
    Agree State.Unrated (firstTrial c size maxBytes id) (firstTrial (c.rated rates) size maxBytes id) :=
  agree_get fun _ _ => agree_ite (cacheFree_agree c rates id _) (agree_pure _)

theorem secondTrial_agree (size : UInt64) :
    Agree State.Unrated (secondTrial c size id) (secondTrial (c.rated rates) size id) :=
  agree_bind (cacheFree_agree c rates id _) fun rc => agree_of_quiet (quiet_allocateIf c rc)

theorem mcdMalloc_agree (size : UInt64) :
    Agree State.Unrated (mcdMalloc c size id) (mcdMalloc (c.rated rates) size id) := by
  refine agree_bind (agree_of_quiet (quiet_getTotMemSize c)) fun maxBytes => ?_
  refine agree_ite (agree_pure _) ?_
  refine agree_bind (firstTrial_agree c rates id size maxBytes) fun rc => ?_
  refine agree_bind (agree_of_quiet (quiet_allocateIf c rc)) fun val => ?_
  cases val with
  | some p => exact agree_pure _
  | none => exact secondTrial_agree c rates id size

theorem createMcdHashT_agree (ks vs : UInt32) :
    Agree State.Unrated (createMcdHashT c id ks vs) (createMcdHashT (c.rated rates) id ks vs) := by
  refine agree_bind (mcdMalloc_agree c rates id _) fun val => ?_
  cases val with
  | none => exact agree_pure _
  | some addr =>
    refine agree_bind (agree_of_quiet (quiet_reading _)) fun now => ?_
    refine agree_bind (agree_of_quiet (quiet_reading _)) fun stale => ?_
    refine agree_bind (agree_modify fun _ hs => hs) fun _ => ?_
    refine agree_bind (agree_modify fun _ hs => hs) fun _ => ?_
    refine agree_bind (agree_of_quiet (quiet_domOf id)) fun _ => ?_
    exact agree_bind (agree_modify fun _ hs => hs) fun _ => agree_pure _

theorem agree_listAddTail (loc : Loc) (mh : McdHashT) :
    Agree State.Unrated (modify (·.listAddTail loc mh) : M Unit) (modify (·.listAddTail loc mh)) := by
  refine agree_modify fun s hs => ?_
  cases loc <;> exact hs

theorem putEntry_agree (k : GuestKey) (loc : Loc) (v : GuestVal) (ms : UInt32) :
    Agree State.Unrated (putEntry c id k loc v ms) (putEntry (c.rated rates) id k loc v ms) := by
  refine agree_bind (agree_bind (createMcdHashT_agree c rates id _ _) fun o => ?_) fun o => ?_
  · cases o with
    | none => exact agree_pure _
    | some mh => exact agree_pure _
  · cases o with
    | none => exact agree_pure _
    | some mh =>
      refine agree_bind (agree_of_cfg fun s a t h => ?_) fun mh => ?_
      · exact congrArg Tiers.cfg (setQueryTime_spec h).2.1
      · exact agree_bind (agree_listAddTail loc mh) fun _ => agree_pure _

theorem agree_deliver (loc : Loc) (mh : McdHashT) (cap : UInt32) (rc : Rc) :
    Agree State.Unrated (deliver c loc mh cap rc) (deliver c loc mh cap rc) := by
  refine agree_bind (agree_of_quiet (quiet_reading _)) fun now => ?_
  refine agree_bind (agree_modify fun s hs => ?_) fun _ => agree_ite (agree_pure _) (agree_pure _)
  cases loc <;> exact hs

theorem agree_findMcdctlHashT (loc : Loc) (hash : UInt32) :
    Agree State.Unrated (findMcdctlHashT loc hash) (findMcdctlHashT loc hash) :=
  agree_of_quiet fun s r t h => by rw [(returns_findMcdctlHashT.mp h).2.2]

theorem agree_mcdctlFree (loc : Loc) (mch : McdctlHashT) :
    Agree State.Unrated (mcdctlFree loc mch) (mcdctlFree loc mch) := by
  refine agree_bind (agree_of_quiet fun s u t h => by rw [(returns_checkIntact.mp h).2]) fun _ => ?_
  refine agree_get fun s hs => agree_ite (agree_pure _) (agree_set ?_)
  cases loc <;> exact hs

theorem agree_transferIn (mch : McdctlHashT) (mh : McdHashT) :
    Agree State.Unrated (transferIn c mch mh) (transferIn c mch mh) := by
  refine agree_bind (agree_of_quiet (quiet_reading _)) fun out => ?_
  refine agree_bind (agree_of_quiet (quiet_reading _)) fun stale => agree_get fun s hs => ?_
  cases out with
  | done => exact agree_bind (agree_set hs) fun _ => agree_pure _
  | failed got => exact agree_pure _

theorem mcdPageIn_agree (loc : Loc) (mch : McdctlHashT) :
    Agree State.Unrated (mcdPageIn c loc mch) (mcdPageIn (c.rated rates) loc mch) := by
  refine agree_get fun s _ => agree_ite (agree_pure _) ?_
  refine agree_bind (createMcdHashT_agree c rates mch.domain _ _) fun o => ?_
  cases o with
  | none => exact agree_pure _
  | some mh =>
    refine agree_bind (agree_transferIn c mch mh) fun mh => agree_ite (agree_throw _) ?_
    exact agree_bind (agree_mcdctlFree loc mch) fun _ => agree_pure _

/-- The part of both `get`s after a miss in memory. -/
theorem agree_fetch {loc : Loc} {hash : UInt32} {rest : McdHashT → M Reply}
    (hrest : ∀ mh, Agree State.Unrated (rest mh) (rest mh)) :
    Agree State.Unrated (do
      match ← findMcdctlHashT loc hash with
      | none => pure (.code .errMcdFault)
      | some mch => do
        match ← mcdPageIn c loc mch with
        | none => pure (.code .errMcdFault)
        | some mh => do
          modify (·.listAddTail loc mh)
          rest mh) (do
      match ← findMcdctlHashT loc hash with
      | none => pure (.code .errMcdFault)
      | some mch => do
        match ← mcdPageIn (c.rated rates) loc mch with
        | none => pure (.code .errMcdFault)
        | some mh => do
          modify (·.listAddTail loc mh)
          rest mh) := by
  refine agree_bind (agree_findMcdctlHashT _ _) fun o => ?_
  cases o with
  | none => exact agree_pure _
  | some mch =>
    refine agree_bind (mcdPageIn_agree c rates _ mch) fun o => ?_
    cases o with
    | none => exact agree_pure _
    | some mh => exact agree_bind (agree_listAddTail _ mh) fun _ => hrest mh

theorem pMcdGet_agree (k : GuestKey) (cap : UInt32) :
    Agree State.Unrated (pMcdGet c id k cap) (pMcdGet (c.rated rates) id k cap) := by
  refine agree_bind (agree_of_quiet (quiet_domOf id)) fun d => ?_
  cases findMcdHashT (getHash k.bytes) d.hashList with
  | some mh => exact agree_deliver c _ mh cap _
  | none => exact agree_fetch c rates fun mh => agree_deliver c _ mh cap _

theorem agree_noteAccess (mh : McdHashT) :
    Agree State.Unrated (noteAccess c mh) (noteAccess c mh) :=
  agree_of_quiet fun _ _ _ h => noteAccess_spec h

theorem sMcdGet_agree (k : GuestKey) (cap : UInt32) :
    Agree State.Unrated (sMcdGet c k cap) (sMcdGet (c.rated rates) k cap) := by
  have hnoted : ∀ loc mh rc, Agree State.Unrated (do noteAccess c mh; deliver c loc mh cap rc)
      (do noteAccess c mh; deliver c loc mh cap rc) := fun loc mh rc =>
    agree_bind (agree_noteAccess c mh) fun _ => agree_deliver c loc mh cap rc
  refine agree_get fun s _ => ?_
  cases findMcdHashT (getHash k.bytes) (s.entries (.bucket (bucketOf (getHash k.bytes)))) with
  | some mh => exact hnoted _ mh _
  | none => exact agree_fetch c rates fun mh => hnoted _ mh _

theorem pMcdPut_agree (k : GuestKey) (v : GuestVal) :
    Agree State.Unrated (pMcdPut c id k v) (pMcdPut (c.rated rates) id k v) :=
  agree_bind (agree_of_cfg fun _ _ _ h => (pMcdReplace_spec h).cfg_eq)
    fun ms => putEntry_agree c rates id k _ v ms

theorem sMcdPut_agree (k : GuestKey) (v : GuestVal) :
    Agree State.Unrated (sMcdPut c id k v) (sMcdPut (c.rated rates) id k v) :=
  agree_bind (agree_of_cfg fun _ _ _ h => (sMcdReplace_spec h).1.cfg_eq)
    fun ms => putEntry_agree c rates id k _ v ms

end

/-- The operations on a key that are not lookups. -/
def Cmd.Access : Cmd → Prop
  | .get .. | .put .. | .remove .. => True
  | _ => False

theorem mcdOp_agree (c : Ctx) (rates : Domid → UInt32) {cmd : Cmd} (hcmd : cmd.Access) :
    Agree State.Unrated (mcdOp c cmd) (mcdOp (c.rated rates) cmd) := by
  have hsub {p q p' q' : M Reply} (hp : Agree State.Unrated p p') (hq : Agree State.Unrated q q') :
      Agree State.Unrated (mcdSubCall p q) (mcdSubCall p' q') := by
    refine agree_get fun s _ => ?_
    cases s.cacheMode with
    | shared => exact hq
    | partition => exact hp
  match cmd, hcmd with
  | .get id k cap, _ => exact hsub (pMcdGet_agree c rates id k cap) (sMcdGet_agree c rates k cap)
  | .put id k v, _ => exact hsub (pMcdPut_agree c rates id k v) (sMcdPut_agree c rates id k v)
  | .remove id k, _ =>
    exact hsub (agree_of_cfg fun _ _ _ h => (pMcdRemove_spec h).2.cfg_eq)
      (agree_of_cfg fun _ _ _ h => (sMcdRemove_spec h).2.cfg_eq)

theorem doMcdOp_agree (c : Ctx) (rates : Domid → UInt32) {cmd : Cmd} (hcmd : cmd.Access) :
    Agree State.Unrated (doMcdOp c cmd) (doMcdOp (c.rated rates) cmd) := by
  have husage : updateUsage (c.rated rates) cmd = updateUsage c cmd := by
    simp only [updateUsage, domUsageUpdateAll_rated]
  refine agree_bind (mcdOp_agree c rates hcmd) fun r => ?_
  rw [husage]
  refine agree_bind (agree_of_quiet (quiet_updateUsage c cmd)) fun _ => ?_
  exact agree_bind (agree_of_quiet (quiet_findCaller cmd)) fun _ => agree_pure _

/-- Systems that differ in their hit counters answer an access alike, and still differ in no more. -/
theorem call_agree {y z : System} (hm : z.mcd = y.mcd) (hu : y.mcd.Unrated) {a : Call}
    (ha : a.cmd.Access) :
    (∃ e, y.call a = .error e ∧ z.call a = .error e) ∨
      ∃ r y' z', y.call a = .ok (r, y') ∧ z.call a = .ok (r, z') ∧ z'.mcd = y'.mcd ∧
        y'.mcd.Unrated := by
  obtain ⟨heq, hkeep⟩ :=
    doMcdOp_agree (y.ctx a.env) (fun d => (z.hits d).hitrate) ha y.mcd hu
  have hctx : z.ctx a.env = (y.ctx a.env).rated fun d => (z.hits d).hitrate := rfl
  unfold System.call
  rw [hm, hctx, ← heq]
  cases hrun : (doMcdOp (y.ctx a.env) a.cmd).run y.mcd with
  | error e => exact .inl ⟨e, rfl, rfl⟩
  | ok p => exact .inr ⟨p.1, _, _, rfl, rfl, rfl, hkeep p.1 p.2 hrun⟩

theorem replies_agree {y z : System} (hm : z.mcd = y.mcd) (hu : y.mcd.Unrated) {l : List Call}
    (hl : ∀ b ∈ l, b.cmd.Access) : z.replies l = y.replies l := by
  induction l generalizing y z with
  | nil => rfl
  | cons a l ih =>
    have hrest (b : Call) (hb : b ∈ l) : b.cmd.Access := hl b (List.mem_cons_of_mem _ hb)
    unfold System.replies
    rcases call_agree hm hu (hl a List.mem_cons_self) with
      ⟨e, hy, hz⟩ | ⟨r, y', z', hy, hz, hm', hu'⟩
    · rw [hy, hz]
    · rw [hy, hz]
      simp only [ih hm' hu' hrest]

/-- The key's hash is in the list of entries that a lookup by domain `d` searches. -/
def State.InMemory (s : State) (d : Domid) (k : GuestKey) : Prop :=
  (findMcdHashT (getHash k.bytes) (s.entries (s.cacheMode.home d (getHash k.bytes)))).isSome

/-- A lookup that finds its key in memory changes nothing. -/
theorem lookup_inMemory {c : Ctx} {d : Domid} {k : GuestKey} {r : Reply} {s t : State}
    (hmem : s.InMemory d k) (h : Returns (mcdOp c (.check d k)) s r t) : t = s := by
  cases check_path h with
  | found mh _ _ after => exact after
  | absent absent _ _ _ _ =>
    have hmem : (findMcdHashT (getHash k.bytes) (s.entries (s.home d k))).isSome := hmem
    rw [absent] at hmem
    exact absurd hmem (by simp)

theorem call_lookup {y z : System} {a : Call} {d : Domid} {k : GuestKey} {r : Reply}
    (hcmd : a.cmd = .check d k ∨ a.cmd = .getsize d k) (hmem : y.mcd.InMemory d k)
    (hcall : y.call a = .ok (r, z)) :
    z.mcd = { y.mcd with tick := 0 } ∧ (a.cmd = .getsize d k → z.hits = y.hits) := by
  obtain ⟨s, s₁, s₂, hop, husage, hcaller, rfl⟩ := call_returns hcall
  have hs : s = y.mcd := by
    rcases hcmd with h | h
    · rw [h] at hop
      exact lookup_inMemory hmem hop
    · rw [h] at hop
      exact lookup_inMemory hmem hop
  have hs₁ : s₁ = s := by
    have hno : ¬ a.cmd.updatesUsage = true := by rcases hcmd with h | h <;> simp [h, Cmd.updatesUsage]
    simp only [updateUsage, returns_bind, returns_get, if_neg hno, returns_pure] at husage
    obtain ⟨_, _, ⟨-, rfl⟩, -, rfl⟩ := husage
    rfl
  have hs₂ : s₂ = s₁ := by
    rcases hcmd with h | h
    · simp only [findCaller, h, Cmd.countsFor, returns_bind, returns_domOf, returns_pure] at hcaller
      obtain ⟨_, _, ⟨-, rfl⟩, -, rfl⟩ := hcaller
      rfl
    · simp only [findCaller, h, Cmd.countsFor, returns_pure] at hcaller
      exact hcaller.2
  refine ⟨?_, fun h => ?_⟩
  · rw [hs₂, hs₁, hs]
  · simp only [System.hitsAfter, h, Cmd.countsFor]

/-- A lookup of a key that is in memory is neutral: whatever accesses follow are answered as if it
had not been made. In the adaptive partition mode this is so for `getsize` only. -/
theorem lookup_neutral {hist : List (Call × Reply)} {y z : System} {a : Call} {d : Domid}
    {k : GuestKey} {r : Reply} (hreach : Run (fun _ _ => True) System.start hist y)
    (hcmd : a.cmd = .check d k ∨ a.cmd = .getsize d k) (hmem : y.mcd.InMemory d k)
    (hrate : a.cmd = .getsize d k ∨ y.mcd.Unrated) (hcall : y.call a = .ok (r, z))
    {l : List Call} (hl : ∀ b ∈ l, b.cmd.Access) : z.replies l = y.replies l := by
  obtain ⟨hmcd, hhits⟩ := call_lookup hcmd hmem hcall
  have htick := run_tick hreach
  have hm : z.mcd = y.mcd := by
    rw [hmcd, ← htick]
  rcases hrate with hsize | hu
  · have hz : z = y := by
      cases z
      cases y
      simp only [System.mk.injEq]
      exact ⟨hm, hhits hsize⟩
    rw [hz]
  · exact replies_agree hm hu hl

/-- Guest 1 has put key 1. -/
def System.onePut : System :=
  System.start.after
    [⟨.calm, .create 1⟩, ⟨.calm, .enable⟩, ⟨.calm, .put 1 (.single 1) (.single 7)⟩]

theorem lookup_neutral_hit :
    ∃ r z, System.onePut.call ⟨.calm, .check 1 (.single 1)⟩ = .ok (r, z) ∧
      z.replies [⟨.calm, .get 1 (.single 1) 8⟩] =
        System.onePut.replies [⟨.calm, .get 1 (.single 1) 8⟩] := by
  have hstart : System.start.replies
      [⟨.calm, .create 1⟩, ⟨.calm, .enable⟩, ⟨.calm, .put 1 (.single 1) (.single 7)⟩] =
        some [.code .errNo, .code .zero, ⟨.errNo, some 1, none⟩] := by
    decide +kernel
  have hcheck : System.onePut.replies [⟨.calm, .check 1 (.single 1)⟩] =
      some [⟨.errNo, some 1, none⟩] := by
    decide +kernel
  have hmem : System.onePut.mcd.InMemory 1 (.single 1) := by
    unfold State.InMemory
    decide +kernel
  have hmode : System.onePut.mcd.cacheMode = .shared := by decide +kernel
  have hunrated : System.onePut.mcd.Unrated := fun h => CacheMode.noConfusion (hmode.symm.trans h.1)
  obtain ⟨r, z, _, hcall, -⟩ := call_of_replies hcheck
  refine ⟨r, z, hcall, ?_⟩
  exact lookup_neutral (run_after (fun _ _ _ => trivial) hstart) (.inl rfl) hmem (.inr hunrated) hcall
    (by simp [Cmd.Access])

/-- A key that was never put is missed; after a `check` of it a `get` reports a hit, with no bytes. -/
theorem get_after_check :
    System.oneGuest.replies [⟨.calm, .get 1 (.single 1) 8⟩] = some [.code .errMcdFault] ∧
      System.oneGuest.replies [⟨.calm, .check 1 (.single 1)⟩, ⟨.calm, .get 1 (.single 1) 8⟩] =
        some [⟨.errNo, some (0 - 2000), none⟩, ⟨.retGetMem, some 0, some []⟩] := by
  decide +kernel

end UniCache.Mcd
