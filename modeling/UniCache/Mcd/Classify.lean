import UniCache.Mcd.Provenance

/-! What `do_mcd_op` counts as a hit, against what a hit ought to be: the key has a value in memory
or outsourced, and a `get` delivers it. -/
namespace UniCache.Mcd
open Base Base.Exec

/-- The lists in which domain `d` may have values. -/
def Loc.Open (d : Domid) : Loc → Prop
  | .bucket _ => True
  | .dom e => e = d

/-- The list at `loc` has the value `v` of key `k`, or a header whose file has it. -/
inductive Tiers.Stands (t : Tiers) (loc : Loc) (k v : List UInt8) : Prop
  | entry (mh : McdHashT) (mem : mh ∈ t.entries loc) (key : mh.key = k) (value : mh.value = v)
  | header (mch : McdctlHashT) (mem : mch ∈ t.headers loc)
      (file : t.store mch.domain mch.hash = some (k ++ v)) (size : mch.keySize.toNat = k.length)

/-- Domain `d` has put the value `v` for key `k`. -/
def WasPut (l : List (Call × Reply)) (d : Domid) (k v : List UInt8) : Prop :=
  ∃ env gk gv r, (⟨env, .put d gk gv⟩, r) ∈ l ∧ r.rc = .errNo ∧ gk.again = k ∧ gv.bytes = v

/-- A value put for key `k` of domain `d` is in memory or outsourced. -/
def Held (l : List (Call × Reply)) (t : Tiers) (d : Domid) (k v : List UInt8) : Prop :=
  ∃ loc e, loc.Open d ∧ loc.Open e ∧ t.Stands loc k v ∧ WasPut l e k v

/-- The calls that ought to count as hits. -/
def Cmd.Due (l : List (Call × Reply)) (t : Tiers) (r : Reply) : Cmd → Prop
  | .check d k => ∃ v, Held l t d k.bytes v
  | .get d k _ => ∃ v, Held l t d k.bytes v ∧ r.val = some v
  | _ => False

/-- One hit is counted if it is due, one miss if not. -/
def HitStat.Classified (h h' : HitStat) (due : Prop) : Prop :=
  (due → h'.getSucc = h.getSucc + 1 ∧ h'.getFail = h.getFail) ∧
    (¬ due → h'.getSucc = h.getSucc ∧ h'.getFail = h.getFail + 1)

theorem classified_count_iff (h : HitStat) (r : Reply) (due : Prop) :
    h.Classified (h.count r.rc) due ↔ (r.Hit ↔ due) := by
  by_cases hr : r.Hit
  · have hrc : r.rc = .retGetMem ∨ r.rc = .retGetSsd := hr
    have hcount : (h.count r.rc).getSucc = h.getSucc + 1 ∧ (h.count r.rc).getFail = h.getFail := by
      simp [HitStat.count, hrc]
    rw [HitStat.Classified, hcount.1, hcount.2]
    simp [hr]
  · have hrc : ¬ (r.rc = .retGetMem ∨ r.rc = .retGetSsd) := hr
    have hcount : (h.count r.rc).getSucc = h.getSucc ∧ (h.count r.rc).getFail = h.getFail + 1 := by
      simp [HitStat.count, hrc]
    rw [HitStat.Classified, hcount.1, hcount.2]
    simp [hr]

/-- Something is filed under the hash of the key where a lookup searches. -/
def State.Filed (s : State) (d : Domid) (k : GuestKey) : Prop :=
  (findMcdHashT (getHash k.bytes) (s.entries (s.home d k))).isSome ∨
    ((s.headers (s.home d k)).find? (·.hash = getHash k.bytes)).isSome

/-- What a lookup of the key comes upon is a value put for it, and no such value lies elsewhere. -/
structure Sees (l : List (Call × Reply)) (s : State) (d : Domid) (k : GuestKey) : Prop where
  entry : ∀ mh, findMcdHashT (getHash k.bytes) (s.entries (s.home d k)) = some mh →
    mh.key = k.bytes ∧ Held l s.tiers d k.bytes mh.value
  header : findMcdHashT (getHash k.bytes) (s.entries (s.home d k)) = none →
    ∀ mch, (s.headers (s.home d k)).find? (·.hash = getHash k.bytes) = some mch →
      mch.keySize.toNat = k.bytes.length ∧
        ∃ v, s.store mch.domain mch.hash = some (k.bytes ++ v) ∧ Held l s.tiers d k.bytes v
  filed : ∀ v, Held l s.tiers d k.bytes v → s.Filed d k

section
variable {l : List (Call × Reply)} {c : Ctx} {d : Domid} {k : GuestKey} {r : Reply} {s t : State}

theorem Sees.filed_iff (h : Sees l s d k) : s.Filed d k ↔ ∃ v, Held l s.tiers d k.bytes v := by
  constructor
  · intro hf
    cases hfind : findMcdHashT (getHash k.bytes) (s.entries (s.home d k)) with
    | some mh => exact ⟨mh.value, (h.entry mh hfind).2⟩
    | none =>
      have hsome : ((s.headers (s.home d k)).find? (·.hash = getHash k.bytes)).isSome := by
        simpa [State.Filed, hfind] using hf
      obtain ⟨mch, hmch⟩ := Option.isSome_iff_exists.mp hsome
      obtain ⟨-, v, -, hheld⟩ := h.header hfind mch hmch
      exact ⟨v, hheld⟩
  · rintro ⟨v, hv⟩
    exact h.filed v hv

/-- A lookup reports a hit in partition mode only, if anything is filed under its hash. -/
theorem check_hit_iff (h : Returns (mcdOp c (.check d k)) s r t) :
    r.Hit ↔ s.cacheMode = .partition ∧ s.Filed d k := by
  cases check_path h with
  | found mh find reply after =>
    cases hm : s.cacheMode with
    | shared => simp [Reply.Hit, reply, hm, CacheMode.checkRc]
    | partition => simp [Reply.Hit, reply, hm, CacheMode.checkRc, State.Filed, find]
  | absent absent mch find adds reply =>
    cases hm : s.cacheMode with
    | shared => simp [Reply.Hit, reply, hm, CacheMode.checkRc]
    | partition =>
      cases hmch : mch with
      | none => simp [Reply.Hit, reply, hm, hmch, CacheMode.checkRc, State.Filed, absent, ← find]
      | some x => simp [Reply.Hit, reply, hm, hmch, CacheMode.checkRc, State.Filed, absent, ← find]

theorem Delivers.hit_of_val {mh : McdHashT} {cap : UInt32} {rc : Rc} {v : List UInt8}
    (h : Delivers mh cap rc r) (hrc : rc = .retGetMem ∨ rc = .retGetSsd) (hv : r.val = some v) :
    r.Hit := by
  rcases h with ⟨-, rfl⟩ | ⟨-, rfl⟩
  · cases hv
  · exact hrc

/-- The value in a buffer that holds a key and a value. -/
theorem McdHashT.value_of_append {mh : McdHashT} {k v : List UInt8} (hbuf : mh.keyVal = k ++ v)
    (hsize : mh.keySize.toNat = k.length) : mh.value = v := by
  unfold McdHashT.value
  rw [hbuf, hsize, List.drop_left]

/-- A `get` that sees what was put reports a hit if and only if it delivers a value held. -/
theorem get_hit_iff {cap : UInt32} (hown : s.tiers.HeadersOwned) (hsees : Sees l s d k)
    (hrec : (Cmd.get d k cap).Recalls c s) (h : Returns (mcdOp c (.get d k cap)) s r t) :
    r.Hit ↔ ∃ v, Held l s.tiers d k.bytes v ∧ r.val = some v := by
  have hmiss : r = .code .errMcdFault →
      (r.Hit ↔ ∃ v, Held l s.tiers d k.bytes v ∧ r.val = some v) := by
    rintro rfl
    simp [Reply.Hit, Reply.code]
  have hgot : ∀ {mh : McdHashT} {rc : Rc}, Delivers mh cap rc r →
      rc = .retGetMem ∨ rc = .retGetSsd → Held l s.tiers d k.bytes mh.value →
      (r.Hit ↔ ∃ v, Held l s.tiers d k.bytes v ∧ r.val = some v) := by
    intro mh rc reply hrc hheld
    constructor
    · intro hr
      exact ⟨mh.value, hheld, reply.value hr⟩
    · rintro ⟨v, -, hv⟩
      exact reply.hit_of_val hrc hv
  cases get_path (fun _ => hown) h with
  | hit mh now find reply _ => exact hgot reply (.inl rfl) (hsees.entry mh find).2
  | absent _ _ reply _ => exact hmiss reply
  | refused _ _ _ _ reply => exact hmiss reply
  | load mch mh u now absent find pages reply _ =>
    have hloc := for_home_headers (fun _ => hown) mch (List.mem_of_find?_eq_some find)
    obtain ⟨-, -, w, st, -, -, hfetch, -⟩ := mcdPageIn_some pages hloc
    obtain ⟨hsize, v, hfile, hheld⟩ := hsees.header absent mch find
    have hbuf : mh.keyVal = k.bytes ++ v := by
      have hpaged := hrec mch find mh (pagedIn_eq pages)
      exact Option.some.inj (hpaged.symm.trans hfile)
    have hvalue : mh.value = v := McdHashT.value_of_append hbuf (by rw [hfetch.keySize, hsize])
    rw [← hvalue] at hheld
    exact hgot reply (.inr rfl) hheld

end

section
variable {l : List (Call × Reply)} {s : State} {d e : Domid} {k : GuestKey} {mh : McdHashT}

theorem open_home (s : State) (d : Domid) (k : GuestKey) : (s.home d k).Open d := by
  cases hm : s.cacheMode with
  | shared =>
    rw [home_shared hm]
    trivial
  | partition =>
    rw [home_partition hm]
    rfl

theorem held_of_find (hfind : findMcdHashT (getHash k.bytes) (s.entries (s.home d k)) = some mh)
    (hkey : mh.key = k.bytes) (hopen : (s.home d k).Open e) (hput : WasPut l e k.bytes mh.value) :
    Held l s.tiers d k.bytes mh.value :=
  ⟨s.home d k, e, open_home s d k, hopen,
    .entry mh (List.mem_of_find?_eq_some hfind) hkey rfl, hput⟩

/-- A key is seen as it was put where the entry found for it holds a value put for it. -/
theorem sees_of_find (hfind : findMcdHashT (getHash k.bytes) (s.entries (s.home d k)) = some mh)
    (hkey : mh.key = k.bytes) (hopen : (s.home d k).Open e) (hput : WasPut l e k.bytes mh.value) :
    Sees l s d k where
  entry m hm := by
    obtain rfl := Option.some.inj (hfind.symm.trans hm)
    exact ⟨hkey, held_of_find hfind hkey hopen hput⟩
  header hnone := by
    rw [hfind] at hnone
    cases hnone
  filed _ _ := .inl (by rw [hfind]; rfl)

end

section
variable {l : List (Call × Reply)} {y z : System} {env : Env} {cmd : Cmd} {d : Domid} {k : GuestKey}
  {r : Reply}

end

/-- Guest 1 puts key 1 in the cache mode `m`. -/
def keyOneCalls (m : UInt32) : List Call :=
  [⟨.calm, .create 1⟩, ⟨.calm, .cacheMode 0 m⟩, ⟨.calm, .put 1 (.single 1) (.single 7)⟩]

/-- In both modes key 1 is then seen as it was put. -/
theorem keyOne_seen : ∀ m ∈ ([0, 1] : List UInt32), ∃ l,
    Run Call.Fresh .start l (System.start.after (keyOneCalls m)) ∧
      Sees l (System.start.after (keyOneCalls m)).mcd 1 (.single 1) ∧
      Held l (System.start.after (keyOneCalls m)).mcd.tiers 1 [1] [7] := by
  have hfacts : ([0, 1] : List UInt32).all (fun m => decide (
      System.start.runs Call.Fresh (keyOneCalls m) = true ∧
      ((System.start.replies (keyOneCalls m)).map fun rs => rs.map (·.rc)) =
        some [.errNo, .errNo, .errNo] ∧
      (findMcdHashT (getHash [1]) ((System.start.after (keyOneCalls m)).mcd.entries
        ((System.start.after (keyOneCalls m)).mcd.home 1 (.single 1)))).map
          (fun mh => (mh.key, mh.value)) = some ([1], [7]))) = true := by
    decide +kernel
  intro m hm
  obtain ⟨hruns, hreplies, hfind⟩ := of_decide_eq_true (List.all_eq_true.mp hfacts m hm)
  obtain ⟨rs, hrs, hrc⟩ := Option.map_eq_some_iff.mp hreplies
  have hrun : Run Call.Fresh .start ((keyOneCalls m).zip rs) _ := run_zip_of_runs hruns hrs
  generalize System.start.after (keyOneCalls m) = y at *
  obtain ⟨mh, hmh, hbuf⟩ := Option.map_eq_some_iff.mp hfind
  obtain ⟨hkey, hvalue⟩ := Prod.mk.inj hbuf
  have hput : WasPut ((keyOneCalls m).zip rs) 1 [1] mh.value := by
    rcases rs with _ | ⟨r₁, _ | ⟨r₂, _ | ⟨r₃, rest⟩⟩⟩
    iterate 3 simp at hrc
    have hr : r₃.rc = .errNo := (List.cons.inj (List.cons.inj (List.cons.inj hrc).2).2).1
    exact ⟨.calm, .single 1, .single 7, r₃, by simp [keyOneCalls], hr, rfl, hvalue.symm⟩
  have hopen := open_home y.mcd 1 (.single 1)
  have hheld : Held ((keyOneCalls m).zip rs) y.mcd.tiers 1 [1] mh.value :=
    held_of_find hmh hkey hopen hput
  rw [hvalue] at hheld
  exact ⟨_, hrun, sees_of_find hmh hkey hopen hput, hheld⟩

/-- Guest 1, with a list of its own, looks key 1 up. -/
def missedCalls : List Call :=
  [⟨.calm, .create 1⟩, ⟨.calm, .cacheMode 0 1⟩, ⟨.calm, .check 1 (.single 1)⟩]

end UniCache.Mcd
