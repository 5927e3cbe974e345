import UniCache.Mcd.Destroy
import UniCache.Mcd.Placement

/-! Where the bytes in the cache come from. Every byte buffer in memory or in a file was brought in
by a `put`; the other hypercalls move buffers between the tiers and lose them. -/
namespace UniCache.Mcd
open Base Base.Exec

/-- Whose an entry is, its hash and its buffer, unless the buffer has no value that could be read
or paged out. -/
def McdHashT.parcel (mh : McdHashT) : Option (Domid × UInt32 × List UInt8) :=
  if mh.flags = mcdHashTNormal ∨ mh.valSize ≠ 0 then some (mh.domain, mh.hash, mh.keyVal) else none

namespace Tiers

/-- The buffer `b` is in memory or in a file, under domain `d` and hash `h`. -/
inductive Bears (t : Tiers) (d : Domid) (h : UInt32) (b : List UInt8) : Prop
  | entry (loc : Loc) (mem : some (d, h, b) ∈ (t.entries loc).map McdHashT.parcel)
  | file (eq : t.store d h = some b)

/-- From `s` to `t` no buffer was brought in. -/
def Yields (s t : Tiers) : Prop := ∀ ⦃d h b⦄, t.Bears d h b → s.Bears d h b

end Tiers

open Tiers

theorem McdHashT.value_suffix (mh : McdHashT) : mh.value <:+ mh.keyVal := List.drop_suffix _ _

theorem McdHashT.value_eq_nil {mh : McdHashT} (h : mh.valSize = 0) : mh.value = [] := by
  apply List.eq_nil_of_length_eq_zero
  show (mh.keyVal.drop mh.keySize.toNat).length = 0
  rw [List.length_drop, mh.keyVal_length, h]
  simp

section
variable {c : Ctx} {s t u : Tiers} {loc : Loc} {mh : McdHashT}

theorem Tiers.Yields.trans (h₁ : s.Yields t) (h₂ : t.Yields u) : s.Yields u :=
  fun _ _ _ hb => h₁ (h₂ hb)

theorem bears_of_mem (hmem : mh ∈ t.entries loc)
    (hfull : mh.flags = mcdHashTNormal ∨ mh.valSize ≠ 0) : t.Bears mh.domain mh.hash mh.keyVal := by
  have hparcel : mh.parcel = some (mh.domain, mh.hash, mh.keyVal) := if_pos hfull
  refine .entry loc ?_
  rw [← hparcel]
  exact List.mem_map_of_mem hmem

/-- Entries may go and files may go. -/
theorem yields_of_subset (he : ∀ loc, (t.entries loc).map McdHashT.parcel ⊆
      (s.entries loc).map McdHashT.parcel)
    (hst : ∀ d h, t.store d h = none ∨ t.store d h = s.store d h) : s.Yields t := by
  intro d h b hb
  cases hb with
  | entry loc mem => exact .entry loc (he loc mem)
  | file eq =>
    rcases hst d h with hnone | hsame
    · rw [hnone] at eq
      cases eq
    · exact .file (hsame.symm.trans eq)

theorem yields_of_store (he : t.entries = s.entries)
    (hst : ∀ d h, t.store d h = none ∨ t.store d h = s.store d h) : s.Yields t := by
  refine yields_of_subset (fun loc => ?_) hst
  rw [he]
  exact List.Subset.refl _

theorem yields_of_eq (he : t.entries = s.entries) (hst : t.store = s.store) : s.Yields t :=
  yields_of_store he fun d h => .inr (by rw [hst])

theorem yields_touch (t : Tiers) (loc : Loc) (mh : McdHashT) (now : Int) :
    t.Yields (t.touch loc mh now) := by
  refine yields_of_subset (fun l => ?_) fun _ _ => .inr rfl
  rw [map_entries_touch rfl]
  exact List.Subset.refl _

theorem yields_drop (t : Tiers) (loc : Loc) (mh : McdHashT) : t.Yields (t.drop loc mh) :=
  yields_of_subset (fun l => (((shrinks_drop t loc mh).entries l).map _).subset)
    fun _ _ => .inr rfl

theorem store_set_cases (st : Store) (d d' : Domid) (h h' : UInt32) (x : Option (List UInt8)) :
    (d' = d ∧ h' = h ∧ st.set d h x d' h' = x) ∨ st.set d h x d' h' = st d' h' := by
  unfold Store.set
  by_cases hx : d' = d ∧ h' = h
  · exact .inl ⟨hx.1, hx.2, if_pos hx⟩
  · exact .inr (if_neg hx)

theorem store_set_none (st : Store) (d d' : Domid) (h h' : UInt32) :
    st.set d h none d' h' = none ∨ st.set d h none d' h' = st d' h' := by
  rcases store_set_cases st d d' h h' none with ⟨-, -, hx⟩ | hx
  · exact .inl hx
  · exact .inr hx

/-- No page-out of the hypercall breaks off. -/
def Env.Whole (env : Env) : Prop := ∀ n left, env.pageOut n ≠ .broken left

theorem PageOut.file_eq {out : PageOut} (h : ∀ left, out ≠ .broken left) (mh : McdHashT) :
    out.file mh = some mh.keyVal := by
  cases out with
  | broken left => exact absurd rfl (h left)
  | done => rfl
  | refused => rfl

theorem Removal.yields (h : Removal c s loc mh t) (hc : c.Whole) : s.Yields t := by
  cases h with
  | drop _ => exact yields_drop s loc mh
  | evict mem normal _ n read _ page slot =>
    intro d x b hb
    cases hb with
    | entry l hmem => exact yields_drop s loc mh (.entry l hmem)
    | file eq =>
      rcases store_set_cases s.store mh.domain d mh.hash x _ with ⟨rfl, rfl, hset⟩ | hset
      · have hfile := hset.symm.trans eq
        rw [PageOut.file_eq (by rw [read]; exact hc n)] at hfile
        rw [← Option.some.inj hfile]
        exact bears_of_mem mem (.inl normal)
      · exact .file (hset.symm.trans eq)

theorem Clears.yields {P : Loc → Prop} {k : Nat} (h : Clears c P s t k) (hc : c.Whole) :
    s.Yields t := by
  obtain ⟨l, hl, -, -⟩ := h
  exact hl.induct (I := s.Yields) (fun hr hv => hv.trans (hr.yields hc)) (yields_of_eq rfl rfl)

theorem Forgets.yields {hash : UInt32} (h : Forgets s loc hash t) : s.Yields t := by
  rcases h with ⟨-, rfl⟩ | ⟨mch, -, st, hst, rfl⟩
  · exact yields_of_eq rfl rfl
  · have hfiles : ∀ d x, st d x = none ∨ st d x = s.store d x := by
      intro d x
      rcases hst with rfl | rfl
      · exact .inr rfl
      · exact store_set_none s.store mch.domain d mch.hash x
    by_cases ho : s.outsourcing
    · rw [if_pos ho]
      exact yields_of_store rfl hfiles
    · rw [if_neg ho]
      exact yields_of_store rfl hfiles

theorem Evacuates.yields {hash : UInt32} (h : Evacuates c s loc hash t) (hc : c.Whole) :
    s.Yields t := by
  cases h with
  | entry mh _ rem => exact rem.yields hc
  | header _ forget => exact forget.yields

theorem Discards.yields {hash : UInt32} (h : Discards s loc hash t) : s.Yields t := by
  rcases h with ⟨mh, -, rfl⟩ | ⟨-, hf⟩
  · exact yields_drop s loc mh
  · exact hf.yields

/-- What a link brings in is the buffer of its entry. -/
theorem bears_link {d : Domid} {h : UInt32} {b : List UInt8} (hb : (t.link loc mh).Bears d h b) :
    t.Bears d h b ∨ mh.parcel = some (d, h, b) := by
  cases hb with
  | entry l mem =>
    obtain ⟨m, hm, hparcel⟩ := List.mem_map.mp mem
    rcases mem_entries_link hm with hold | ⟨-, rfl⟩
    · exact .inl (.entry l (List.mem_map.mpr ⟨m, hold, hparcel⟩))
    · exact .inr hparcel
  | file eq => exact .inl (.file eq)

theorem parcel_eq {d : Domid} {h : UInt32} {b : List UInt8} (hp : mh.parcel = some (d, h, b)) :
    d = mh.domain ∧ h = mh.hash ∧ b = mh.keyVal := by
  unfold McdHashT.parcel at hp
  by_cases hfull : mh.flags = mcdHashTNormal ∨ mh.valSize ≠ 0
  · rw [if_pos hfull] at hp
    cases hp
    exact ⟨rfl, rfl, rfl⟩
  · rw [if_neg hfull] at hp
    cases hp

theorem Adds.yields (h : Adds c s loc mh t) (hc : c.Whole) {d : Domid} {x : UInt32}
    {b : List UInt8} (hb : t.Bears d x b) : s.Bears d x b ∨ mh.parcel = some (d, x, b) := by
  obtain ⟨-, u, hcl, -, rfl⟩ := h
  rcases bears_link hb with hb | hb
  · exact .inl (hcl.yields hc hb)
  · exact .inr hb

/-- A page-in that hands over its file brings nothing in. -/
theorem Loads.yields {mch : McdctlHashT} (h : Loads c s loc mch mh t) (hc : c.Whole)
    (hfile : s.store mch.domain mch.hash = some mh.keyVal) : s.Yields t := by
  obtain ⟨-, u, st, hcl, -, hfetch, rfl⟩ := h
  have hst : ∀ d x, st d x = none ∨ st d x = u.store d x := by
    obtain ⟨n, stale, hcase⟩ := hfetch.transfer
    intro d x
    rcases hcase with ⟨-, rfl, -⟩ | ⟨got, -, rfl, -⟩
    · exact store_set_none u.store mch.domain d mch.hash x
    · exact .inr rfl
  have hforget : u.Yields { u.setHeaders loc ((u.headers loc).erase mch) with store := st } :=
    yields_of_store rfl hst
  intro d x b hb
  rcases bears_link hb with hb | hp
  · exact hcl.yields hc (hforget hb)
  · obtain ⟨rfl, rfl, rfl⟩ := parcel_eq hp
    rw [hfetch.domain, hfetch.hash]
    exact .file hfile

end
/-- What a `get` pages in is what the file of its header holds. -/
def Cmd.Recalls (c : Ctx) (s : State) : Cmd → Prop
  | .get d k _ => ∀ mch ∈ (s.headers (s.home d k)).find? (·.hash = getHash k.bytes),
      ∀ mh ∈ pagedIn c (s.home d k) mch s, s.store mch.domain mch.hash = some mh.keyVal
  | _ => True

instance (c : Ctx) (s : State) : (cmd : Cmd) → Decidable (cmd.Recalls c s)
  | .get d k _ => inferInstanceAs
      (Decidable (∀ mch ∈ (s.headers (s.home d k)).find? (·.hash = getHash k.bytes),
        ∀ mh ∈ pagedIn c (s.home d k) mch s, s.store mch.domain mch.hash = some mh.keyVal))
  | .put .. | .remove .. | .check .. | .getsize .. | .flush .. | .memsize .. | .weight ..
  | .cacheMode .. | .param .. | .create .. | .destroy .. | .enable | .disable =>
    inferInstanceAs (Decidable True)

section
variable {c : Ctx} {d : Domid} {k : GuestKey} {r : Reply} {s t : State}

theorem put_yields {v : GuestVal} (h : Returns (mcdOp c (.put d k v)) s r t) (hc : c.Whole)
    {e : Domid} {x : UInt32} {b : List UInt8} (hb : t.tiers.Bears e x b) :
    s.tiers.Bears e x b ∨
      r.rc = .errNo ∧ e = d ∧ x = getHash k.again ∧ b = k.again ++ v.bytes := by
  obtain ⟨ms, u, hev, -, hloc, hput⟩ := put_path h
  rcases putEntry_spec hput hloc with ⟨-, hcl⟩ | ⟨mh, hr, hmh, hadd⟩
  · exact .inl ((hev.yields hc).trans (hcl.yields hc) hb)
  · rcases hadd.yields hc hb with hb | hp
    · exact .inl (hev.yields hc hb)
    · obtain ⟨he, hx, hbuf⟩ := parcel_eq hp
      rw [hmh.domain] at he
      rw [hmh.hash] at hx
      rw [hmh.keyVal] at hbuf
      exact .inr ⟨hr, he, hx, hbuf⟩

/-- A lookup leaves a buffer of which nothing is ever handed out. -/
theorem check_yields (h : Returns (mcdOp c (.check d k)) s r t) (hc : c.Whole) :
    s.tiers.Yields t.tiers := by
  cases check_path h with
  | found mh _ _ after =>
    rw [after]
    exact yields_of_eq rfl rfl
  | absent _ _ _ adds _ =>
    rcases addMeasurement_spec adds (for_home s d k) with
      hcl | ⟨mh, -, hflags, -, -, hsize, -, -, hadd⟩
    · exact hcl.yields hc
    · have hnone : mh.parcel = none := by
        refine if_neg ?_
        rw [hflags, hsize]
        decide
      intro e x b hb
      rcases hadd.yields hc hb with hb | hp
      · exact hb
      · rw [hnone] at hp
        cases hp

theorem get_yields {cap : UInt32} (hown : s.tiers.HeadersOwned)
    (h : Returns (mcdOp c (.get d k cap)) s r t) (hc : c.Whole)
    (hrec : (Cmd.get d k cap).Recalls c s) : s.tiers.Yields t.tiers := by
  cases get_path (fun _ => hown) h with
  | hit mh now _ _ after =>
    rw [after]
    exact yields_touch _ _ mh now
  | absent _ _ _ after =>
    rw [after]
    exact yields_of_eq rfl rfl
  | refused mch _ find pages _ =>
    have hloc := for_home_headers (fun _ => hown) mch (List.mem_of_find?_eq_some find)
    exact (mcdPageIn_none pages hloc).yields hc
  | load mch mh u now _ find pages _ after =>
    have hloc := for_home_headers (fun _ => hown) mch (List.mem_of_find?_eq_some find)
    obtain ⟨-, hload⟩ := mcdPageIn_some pages hloc
    rw [after]
    exact (hload.yields hc (hrec mch find mh (pagedIn_eq pages))).trans (yields_touch _ _ mh now)

theorem remove_yields (h : Returns (mcdOp c (.remove d k)) s r t) : s.tiers.Yields t.tiers :=
  (remove_discards h).2.yields

theorem sMcdFlush_yields (h : Returns (sMcdFlush c) s r t) (hc : c.Whole) :
    s.tiers.Yields t.tiers := by
  obtain ⟨-, u, st, hrem, -, hst, ht⟩ := sMcdFlush_spec h
  refine (Clears.yields hrem hc).trans ?_
  rw [ht]
  refine yields_of_store rfl fun d x => ?_
  rcases hst with rfl | rfl
  · exact .inr rfl
  · exact .inl rfl

theorem ite_none_or (p : Prop) [Decidable p] (x : Option (List UInt8)) :
    (if p then none else x) = none ∨ (if p then none else x) = x := by
  by_cases hp : p
  · exact .inl (if_pos hp)
  · exact .inr (if_neg hp)

theorem pMcdFlush_yields (h : Returns (pMcdFlush c d) s r t) (hc : c.Whole) :
    s.tiers.Yields t.tiers := by
  obtain ⟨-, u, st, hrem, -, hst, ht⟩ := pMcdFlush_spec h
  refine (Clears.yields hrem hc).trans ?_
  rw [ht]
  refine yields_of_store rfl fun e x => ?_
  rcases hst with rfl | rfl
  · exact .inr rfl
  · exact ite_none_or _ _

theorem flush_yields (h : Returns (mcdOp c (.flush d)) s r t) (hc : c.Whole) :
    s.tiers.Yields t.tiers := by
  rcases mcdSubCall_spec h with ⟨-, h⟩ | ⟨-, h⟩
  · exact sMcdFlush_yields h hc
  · exact pMcdFlush_yields h hc

theorem pMcdFlushAll_yields {ids : List Domid} {u : Unit} (h : Returns (pMcdFlushAll c ids) s u t)
    (hc : c.Whole) : s.tiers.Yields t.tiers := by
  induction ids generalizing s with
  | nil =>
    rw [returns_modify.mp h]
    exact yields_of_eq rfl rfl
  | cons id ids ih =>
    unfold pMcdFlushAll at h
    by_cases hz : id = 0
    · rw [if_pos hz] at h
      exact ih h
    · rw [if_neg hz] at h
      obtain ⟨_, s₁, hone, hrest⟩ := returns_bind.mp h
      exact (pMcdFlush_yields hone hc).trans (ih hrest)

theorem Flushes.yields {m : CacheMode} (h : Flushes c s t m) (hc : c.Whole) :
    s.tiers.Yields t.tiers := by
  cases m with
  | shared =>
    obtain ⟨r, h⟩ := h
    exact sMcdFlush_yields h hc
  | partition => exact pMcdFlushAll_yields h hc

/-- A one-way request that keeps or deletes each file. -/
theorem minfRequest_yields {f : Store → Store} {u : Unit} (h : Returns (minfRequest c f) s u t)
    (hf : ∀ st d x, f st d x = none ∨ f st d x = st d x) : s.tiers.Yields t.tiers := by
  rcases minfRequest_spec h with h | h
  · rw [h]
    exact yields_of_eq rfl rfl
  · rw [h]
    exact yields_of_store rfl (hf s.tiers.store)

theorem memsize_yields {m : Int32} (h : Returns (mcdOp c (.memsize m)) s r t) (hc : c.Whole) :
    s.tiers.Yields t.tiers := by
  obtain ⟨rc, u, hfree, hq⟩ := setMemsize_spec h
  rw [hq]
  -- for any limit: the product in `memsizeBytes` must not be unfolded
  have hset : ∀ bytes : UInt64,
      s.tiers.Yields ({ s with maxMemBytes := bytes } : State).tiers :=
    fun _ => yields_of_eq rfl rfl
  refine (hset (memsizeBytes m)).trans ?_
  rcases freeExcess_spec hfree with ⟨-, -, hfree⟩ | ⟨-, rfl⟩
  · exact (cacheFree_clears hfree).1.yields hc
  · exact yields_of_eq rfl rfl

theorem cacheMode_yields {which mode : UInt32}
    (h : Returns (mcdOp c (.cacheMode which mode)) s r t) (hc : c.Whole) :
    s.tiers.Yields t.tiers := by
  obtain ⟨rm, pm, w, hw, h⟩ := setCacheMode_inv h
  have hset : s.tiers.Yields w.tiers := by
    rw [hw]
    exact yields_of_eq rfl rfl
  rcases h with ⟨-, rfl⟩ | ⟨-, hflush⟩
  · exact hset
  · exact hset.trans (hflush.yields hc)

theorem param_yields {which mode param : UInt32}
    (h : Returns (mcdOp c (.param which mode param)) s r t) (hc : c.Whole) :
    s.tiers.Yields t.tiers := by
  rcases setParam_inv h with ⟨-, hflush⟩ | ⟨-, alpha, beta, user, tick, rfl⟩
  · exact hflush.yields hc
  · exact yields_of_eq rfl rfl

theorem create_yields (hd : d ∉ s.tiers.live) (h : Returns (mcdOp c (.create d)) s r t)
    (hc : c.Whole) : s.tiers.Yields t.tiers := by
  obtain ⟨p, s₁, hmalloc, h⟩ := returns_bind.mp h
  obtain ⟨hcl, -⟩ := mcdMalloc_spec hmalloc
  refine (hcl.yields hc).trans ?_
  cases p with
  | none =>
    rw [(returns_pure.mp h).2]
    exact yields_of_eq rfl rfl
  | some addr =>
    simp only [returns_bind, returns_modify, returns_pure, exists_eq_left, exists_const] at h
    obtain ⟨_, s₃, hreq, -, rfl⟩ := h
    have hfresh : d ∉ s₁.tiers.live := by rw [hcl.live_eq]; exact hd
    refine Yields.trans ?_ (minfRequest_yields hreq fun st e x => ite_none_or _ _)
    rw [tiers_ite_domWeightUpdate, tiers_enrol hfresh]
    exact yields_of_eq rfl rfl

theorem destroy_yields (hnd : s.tiers.live.Nodup) (h : Returns (mcdOp c (.destroy d)) s r t)
    (hc : c.Whole) : s.tiers.Yields t.tiers := by
  obtain ⟨w, q, u, hreq, hflush, -, -, ht⟩ := destroy_inv hnd h
  have hdel : s.tiers.Yields w.tiers := by
    rcases hreq with hs | hs
    · rw [hs]
      exact yields_of_eq rfl rfl
    · rw [hs]
      exact yields_of_store rfl fun e x => ite_none_or _ _
  rw [ht]
  exact (hdel.trans (pMcdFlush_yields hflush hc)).trans (yields_of_eq rfl rfl)

theorem enable_yields (h : Returns (mcdOp c .enable) s r t) : s.tiers.Yields t.tiers := by
  rw [mcdEventEnable_eq h]
  by_cases hon : s.mcdctlEnabled = true
  · rw [if_pos hon]
    exact yields_of_eq rfl rfl
  · rw [if_neg hon]
    exact yields_of_store rfl fun _ _ => .inl rfl

theorem disable_yields (h : Returns (mcdOp c .disable) s r t) : s.tiers.Yields t.tiers := by
  have h : Returns mcdEventDisable s r t := h
  simp only [mcdEventDisable, returns_bind, returns_modify, returns_pure, exists_and_left,
    exists_eq_left, exists_const] at h
  obtain ⟨-, rfl⟩ := h
  exact yields_of_eq rfl rfl

/-- The commands other than `put` bring no buffer in. -/
theorem mcdOp_yields {cmd : Cmd} (hcount : s.tiers.Counted) (hfresh : cmd.Fresh s)
    (hrec : cmd.Recalls c s) (hput : ∀ d k v, cmd ≠ .put d k v) (hc : c.Whole)
    (h : Returns (mcdOp c cmd) s r t) : s.tiers.Yields t.tiers := by
  cases cmd with
  | get d k cap => exact get_yields hcount.headersOwned h hc hrec
  | put d k v => exact absurd rfl (hput d k v)
  | remove d k => exact remove_yields h
  | check d k => exact check_yields h hc
  | getsize d k =>
    have hsame : Returns (mcdOp c (.check d k)) s r t := h
    exact check_yields hsame hc
  | flush d => exact flush_yields h hc
  | memsize m => exact memsize_yields h hc
  | weight d w =>
    rw [setWeight_spec h]
    exact yields_of_eq rfl rfl
  | cacheMode which mode => exact cacheMode_yields h hc
  | param which mode param => exact param_yields h hc
  | create d => exact create_yields hfresh h hc
  | destroy d => exact destroy_yields hcount.live h hc
  | enable => exact enable_yields h
  | disable => exact disable_yields h

end

/-- Calls among which no id is given to a second domain, and whose page-ins hand over their files. -/
def Call.Recalls (y : System) (a : Call) : Prop :=
  a.cmd.Fresh y.mcd ∧ a.cmd.Recalls (y.ctx a.env) y.mcd

instance (y : System) (a : Call) : Decidable (Call.Recalls y a) :=
  inferInstanceAs (Decidable (_ ∧ _))

/-- `b` is what domain `d` stored in a `put` under hash `h`. -/
def Supplied (l : List (Call × Reply)) (d : Domid) (h : UInt32) (b : List UInt8) : Prop :=
  ∃ env k v r, (⟨env, .put d k v⟩, r) ∈ l ∧ r.rc = .errNo ∧ h = getHash k.again ∧
    b = k.again ++ v.bytes

section
variable {y z : System} {a : Call} {r : Reply} {l : List (Call × Reply)} {d : Domid} {h : UInt32}
  {b : List UInt8}

theorem call_bears (hcount : y.mcd.tiers.Counted) (hrec : Call.Recalls y a) (hw : a.env.Whole)
    (hcall : y.call a = .ok (r, z)) (hb : z.mcd.tiers.Bears d h b) :
    y.mcd.tiers.Bears d h b ∨ Supplied [(a, r)] d h b := by
  obtain ⟨t, hop, ht, -⟩ := call_spec hcall
  rw [ht] at hb
  obtain ⟨env, cmd⟩ := a
  by_cases hput : ∃ e k v, cmd = .put e k v
  · obtain ⟨e, k, v, rfl⟩ := hput
    rcases put_yields hop hw hb with hb | ⟨hr, rfl, hh, hbuf⟩
    · exact .inl hb
    · exact .inr ⟨env, k, v, r, List.mem_singleton_self _, hr, hh, hbuf⟩
  · refine .inl (mcdOp_yields hcount hrec.1 hrec.2 ?_ hw hop hb)
    intro e k v hcmd
    exact hput ⟨e, k, v, hcmd⟩

theorem Supplied.mono {l' : List (Call × Reply)} (hs : Supplied l d h b) (hle : l ⊆ l') :
    Supplied l' d h b := by
  obtain ⟨env, k, v, r, hmem, hput⟩ := hs
  exact ⟨env, k, v, r, hle hmem, hput⟩

theorem not_bears_start : ¬ System.start.mcd.tiers.Bears d h b := by
  intro hb
  cases hb with
  | entry loc mem =>
    have hnil : System.start.mcd.tiers.entries loc = [] := by cases loc <;> rfl
    rw [hnil] at mem
    cases mem
  | file eq => cases eq

/-- Along a run every buffer in the cache was stored by a `put` of the run. -/
theorem run_supplied (hrun : Run Call.Recalls .start l y) (hw : ∀ x ∈ l, x.1.env.Whole) :
    y.mcd.tiers.Counted ∧ ∀ {d h b}, y.mcd.tiers.Bears d h b → Supplied l d h b := by
  have hinv := hrun.invariant_history (I := fun pre u => u.mcd.tiers.Counted ∧
    ((∀ x ∈ pre, x.1.env.Whole) → ∀ {d h b}, u.mcd.tiers.Bears d h b → Supplied pre d h b))
    ?_ [] ⟨counted_start, fun _ _ _ _ hb => (not_bears_start hb).elim⟩
  · rw [List.nil_append] at hinv
    exact ⟨hinv.1, hinv.2 hw⟩
  · intro pre u x v hu hstep
    refine ⟨call_counted hu.1 hstep.1.1 hstep.2, ?_⟩
    intro hpre d h b hb
    have hx : x.1.env.Whole := hpre x (by simp)
    rcases call_bears hu.1 hstep.1 hx hstep.2 hb with hb | hnew
    · have hold := hu.2 (fun e he => hpre e (List.mem_append_left _ he)) hb
      exact hold.mono (List.subset_append_left _ _)
    · exact hnew.mono (List.subset_append_right _ _)

/-- What a `get` delivers is the end of a buffer that was in the cache under the hash it looked
up. -/
theorem get_bears {env : Env} {k : GuestKey} {cap : UInt32} (hown : y.mcd.tiers.HeadersOwned)
    (hrec : Call.Recalls y ⟨env, .get d k cap⟩) (hcall : y.call ⟨env, .get d k cap⟩ = .ok (r, z))
    (hb : r.val = some b) :
    b = [] ∨ ∃ e kv, y.mcd.tiers.Bears e (getHash k.bytes) kv ∧ b <:+ kv := by
  obtain ⟨t, hop, -, -⟩ := call_spec hcall
  have hvalue : ∀ {mh : McdHashT} {rc : Rc}, Delivers mh cap rc r → b = mh.value := by
    rintro mh rc (⟨-, hr⟩ | ⟨-, hr⟩)
    · rw [hr] at hb
      cases hb
    · rw [hr] at hb
      exact (Option.some.inj hb).symm
  cases get_path (fun _ => hown) hop with
  | hit mh now find reply after =>
    rw [hvalue reply]
    by_cases hz : mh.valSize = 0
    · exact .inl (McdHashT.value_eq_nil hz)
    · have hhash : mh.hash = getHash k.bytes := by simpa using List.find?_some find
      have hbears := bears_of_mem (t := y.mcd.tiers) (List.mem_of_find?_eq_some find) (.inr hz)
      rw [hhash] at hbears
      exact .inr ⟨mh.domain, mh.keyVal, hbears, mh.value_suffix⟩
  | absent _ _ reply _ =>
    rw [reply] at hb
    cases hb
  | refused _ _ _ _ reply =>
    rw [reply] at hb
    cases hb
  | load mch mh u now _ find pages reply _ =>
    rw [hvalue reply]
    have hhash : mch.hash = getHash k.bytes := by simpa using List.find?_some find
    have hfile := hrec.2 mch find mh (pagedIn_eq pages)
    rw [hhash] at hfile
    exact .inr ⟨mch.domain, mh.keyVal, .file hfile, mh.value_suffix⟩

end

end UniCache.Mcd
