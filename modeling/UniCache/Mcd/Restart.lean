import UniCache.Mcd.CoherentRuns
import UniCache.Mcd.Destroy

/-! Shared mode while daemons come and go and the cache is administered. Without a daemon the cache
behaves like one with a daemon that has nothing: the headers that are still linked are not used, and
the next daemon starts with empty lists. So coherence survives. -/
namespace UniCache.Mcd
open Base Base.Exec Base.LossyMap Tiers

namespace Tiers

/-- The tiers with a daemon that has nothing. -/
def mask (t : Tiers) : Tiers :=
  { t with
    headers := fun _ => []
    store := fun _ _ => none
    cfg := { t.cfg with mcdctlEnabled := true, mcdctlUserEnabled := true } }

/-- The tiers as far as a guest can reach them. -/
def view (t : Tiers) : Tiers := if t.outsourcing then t else t.mask

end Tiers

section
variable {c : Ctx} {s t u : Tiers} {loc : Loc} {mh : McdHashT} {hash : UInt32} {k : Nat}

theorem view_on (h : t.outsourcing) : t.view = t := if_pos h

theorem view_off (h : ¬ t.outsourcing) : t.view = t.mask := if_neg h

theorem view_elim {P : Tiers → Prop} (hon : t.outsourcing → P t) (hoff : P t.mask) : P t.view := by
  by_cases h : t.outsourcing
  · rw [view_on h]
    exact hon h
  · rw [view_off h]
    exact hoff

theorem view_outsourcing (t : Tiers) : t.view.outsourcing :=
  view_elim (P := fun v => v.outsourcing) (fun h => h) rfl

theorem view_cacheMode (t : Tiers) : t.view.cfg.cacheMode = t.cfg.cacheMode :=
  view_elim (P := fun v => v.cfg.cacheMode = t.cfg.cacheMode) (fun _ => rfl) rfl

theorem view_entries (t : Tiers) : t.view.entries = t.entries :=
  view_elim (P := fun v => v.entries = t.entries) (fun _ => rfl) rfl

theorem exists_bucket (h : IsBucket loc) : ∃ i, loc = .bucket i := by
  cases loc with
  | bucket i => exact ⟨i, rfl⟩
  | dom d => exact CacheMode.noConfusion h

theorem outsourcing_congr (h : t.cfg = s.cfg) : t.outsourcing = s.outsourcing := by
  unfold outsourcing
  rw [h]

/-! ### The acts of the operations, seen through the view -/

theorem Removal.mask (h : Removal c s loc mh t) (hoff : ¬ s.outsourcing) :
    Removal c s.mask loc mh t.mask := by
  cases h with
  | drop mem => exact .drop mem
  | evict _ _ on => exact (hoff on).elim

theorem Removals.mask {l : List (Loc × McdHashT)} (h : Removals c s l t) (hoff : ¬ s.outsourcing) :
    Removals c s.mask l t.mask := by
  induction h with
  | nil t => exact .nil _
  | cons h _ ih =>
    refine .cons (h.mask hoff) (ih ?_)
    rw [outsourcing_congr h.cfg_eq]
    exact hoff

theorem Clears.mask {P : Loc → Prop} (h : Clears c P s t k) (hoff : ¬ s.outsourcing) :
    Clears c P s.mask t.mask k := by
  obtain ⟨l, hl, hP, hk⟩ := h
  exact ⟨l, hl.mask hoff, hP, hk⟩

theorem Clears.view {P : Loc → Prop} (h : Clears c P s t k) : Clears c P s.view t.view k := by
  have hcfg := outsourcing_congr h.cfg_eq
  by_cases hon : s.outsourcing
  · rw [view_on hon, view_on (hcfg.trans hon)]
    exact h
  · rw [view_off hon, view_off (hcfg ▸ hon)]
    exact h.mask hon

theorem current_view (s : Tiers) : s.view.Current = s.Current := by
  funext loc
  unfold Current
  rw [view_cacheMode]

theorem Discards.view (h : Discards s loc hash t) : Discards s.view loc hash t.view := by
  have hcfg := outsourcing_congr h.cfg_eq
  by_cases hon : s.outsourcing
  · rw [view_on hon, view_on (hcfg.trans hon)]
    exact h
  · rw [view_off hon, view_off (hcfg ▸ hon)]
    rcases h with ⟨mh, hfind, rfl⟩ | ⟨habs, hforget⟩
    · exact .inl ⟨mh, hfind, rfl⟩
    · refine .inr ⟨habs, .inl ⟨rfl, ?_⟩⟩
      -- a header that is found stays, and the mask hides whether its file does
      rcases hforget with ⟨-, rfl⟩ | ⟨mch, -, st, -, rfl⟩
      · rfl
      · rw [if_neg hon]
        rfl

theorem Granted.view {size : UInt64} (h : Granted c s t size) : Granted c s.view t.view size := by
  rcases h with hbe | hroom | hcl
  · exact .inl (view_elim (P := Tiers.BestEffort) (fun _ => hbe) hbe)
  · exact .inr (.inl (view_elim (P := fun v => v.cfg.maxMemBytes ≠ 0 →
      v.totUsedBytes + size + safetyBytes < v.cfg.maxMemBytes) (fun _ => hroom) hroom))
  · refine .inr (.inr ?_)
    rw [current_view]
    exact hcl.view

theorem view_link (t : Tiers) (loc : Loc) (mh : McdHashT) :
    (t.link loc mh).view = t.view.link loc mh := by
  by_cases hon : t.outsourcing
  · have hon' : (t.link loc mh).outsourcing := hon
    rw [view_on hon, view_on hon']
  · have hoff : ¬ (t.link loc mh).outsourcing := hon
    rw [view_off hon, view_off hoff]
    rfl

theorem view_touch (t : Tiers) (loc : Loc) (mh : McdHashT) (now : Int) :
    (t.touch loc mh now).view = t.view.touch loc mh now := by
  by_cases hon : t.outsourcing
  · have hon' : (t.touch loc mh now).outsourcing := hon
    rw [view_on hon, view_on hon']
  · have hoff : ¬ (t.touch loc mh now).outsourcing := hon
    rw [view_off hon, view_off hoff]
    rfl

theorem Adds.view (h : Adds c s loc mh t) : Adds c s.view loc mh t.view := by
  obtain ⟨hlive, u, hcl, hg, rfl⟩ := h
  refine ⟨view_elim (P := fun v => mh.domain ∈ v.live) (fun _ => hlive) hlive, u.view, ?_, hg.view,
    view_link u loc mh⟩
  rw [current_view]
  exact hcl.view

theorem Gets.view {cap : UInt32} {r : Reply} (h : Gets c s loc hash cap r t) :
    Gets c s.view loc hash cap r t.view := by
  cases h with
  | hit mh now find reply after =>
    rw [after, view_touch]
    exact .hit mh now (by rw [view_entries]; exact find) reply rfl
  | load mch mh u now absent find on loads reply after =>
    have hon : t.outsourcing := by
      obtain ⟨-, w, st, hcl, -, -, hu⟩ := loads
      have hcfg : t.cfg = s.cfg := by
        rw [after, hu]
        exact hcl.cfg_eq
      exact (outsourcing_congr hcfg).trans on
    rw [view_on on, view_on hon]
    exact .load mch mh u now absent find on loads reply after
  | miss absent reply clears =>
    refine .miss (by rw [view_entries]; exact absent) reply ?_
    rw [current_view]
    exact clears.view

/-! ### Control operations -/

/-- In the lists of the current mode nothing is new, and the files behind what is left of the
headers are the same. -/
structure Thins (s t : Tiers) : Prop where
  mode : t.cfg.cacheMode = s.cfg.cacheMode
  entries : ∀ loc, s.Current loc → (t.entries loc).Sublist (s.entries loc)
  headers : ∀ loc, s.Current loc → (t.headers loc).Sublist (s.headers loc)
  file : ∀ loc, s.Current loc → ∀ mch ∈ t.headers loc, t.file mch = s.file mch

theorem thins_refl (t : Tiers) : Thins t t :=
  ⟨rfl, fun _ _ => .refl _, fun _ _ => .refl _, fun _ _ _ _ => rfl⟩

theorem Shrinks.thins (h : Shrinks s t) : Thins s t where
  mode := by rw [h.cfg]
  entries loc _ := h.entries loc
  headers loc _ := h.headers loc
  file := h.file

theorem Thins.current (h : Thins s t) (hl : t.Current loc) : s.Current loc := by
  unfold Current at hl ⊢
  rwa [h.mode] at hl

theorem Thins.tidy (h : Thins s t) (hs : s.Tidy) : t.Tidy := by
  have hhome : ∀ d x, t.homeOf d x = s.homeOf d x := by
    intro d x
    unfold homeOf
    rw [h.mode]
  refine ⟨fun loc hl mh hm => ?_, fun loc hl mch hm => ?_, fun loc hl => ?_,
    fun loc hl mch hm => ?_⟩
  · rw [hhome]
    exact hs.entry_home loc (h.current hl) mh ((h.entries loc (h.current hl)).subset hm)
  · rw [hhome]
    exact hs.header_home loc (h.current hl) mch ((h.headers loc (h.current hl)).subset hm)
  · refine (hs.nodup loc (h.current hl)).sublist ?_
    exact ((h.entries loc (h.current hl)).map _).append ((h.headers loc (h.current hl)).map _)
  · rw [h.file loc (h.current hl) mch hm]
    exact hs.complete loc (h.current hl) mch ((h.headers loc (h.current hl)).subset hm)

theorem Thins.held {x : Loc × UInt32} {v : List UInt8} (h : Thins s t) (hv : t.held x v) :
    s.held x v := by
  obtain ⟨hcur, hst⟩ := hv
  have hcur' := h.current hcur
  refine ⟨hcur', ?_⟩
  cases hst with
  | entry mh mem hash value =>
    exact .entry mh ((h.entries x.1 hcur').subset mem) hash value
  | header mch mem hash value =>
    refine .header mch ((h.headers x.1 hcur').subset mem) hash ?_
    rw [← h.file x.1 hcur' mch mem]
    exact value

/-- A control operation in shared mode: what guests can reach stays in order, and nothing is new. -/
def Wanes (s t : Tiers) : Prop :=
  InOrder .shared s.view → InOrder .shared t.view ∧ ∀ x v, t.view.held x v → s.view.held x v

theorem wanes_of_eq (h : t = s) : Wanes s t := by
  subst h
  exact fun hs => ⟨hs, fun _ _ hv => hv⟩

theorem Wanes.trans (h₁ : Wanes s t) (h₂ : Wanes t u) : Wanes s u := by
  intro hs
  obtain ⟨ht, hst⟩ := h₁ hs
  obtain ⟨hu, htu⟩ := h₂ ht
  exact ⟨hu, fun x v hv => hst x v (htu x v hv)⟩

theorem wanes_of_thins (h : Thins s.view t.view) : Wanes s t := by
  intro hs
  exact ⟨⟨h.mode.trans hs.mode, view_outsourcing t, h.tidy hs.tidy⟩, fun _ _ hv => h.held hv⟩

theorem Clears.wanes (h : Clears c s.Current s t k) (hc : c.Unbroken) : Wanes s t := by
  intro hs
  have hcl := h.view
  rw [← current_view] at hcl
  obtain ⟨ht, hkeep⟩ := hcl.tidy hc hs.tidy
  refine ⟨hs.of_cfg hcl.cfg_eq ht, fun x v hv => ?_⟩
  have hcur : s.view.Current x.1 := (current_iff hcl.cfg_eq).mp hv.1
  exact ⟨hcur, hkeep x.1 hcur x.2 v hv.2⟩

/-- Without a daemon only the entries are in reach. -/
theorem thins_mask (he : t.entries = s.entries) (hm : t.cfg.cacheMode = s.cfg.cacheMode) :
    Thins s.view t.mask where
  mode := by
    rw [view_cacheMode]
    exact hm
  entries loc _ := by
    have hmask : t.mask.entries loc = s.view.entries loc := by
      rw [view_entries, ← he]
      rfl
    rw [hmask]
  headers _ _ := List.nil_sublist _
  file _ _ _ hmem := (List.not_mem_nil hmem).elim

/-- A change that leaves the lists of the current mode, its files and the switches alone. -/
theorem wanes_of_same (hsame : t.outsourcing = s.outsourcing)
    (hm : t.cfg.cacheMode = s.cfg.cacheMode)
    (he : ∀ loc, s.Current loc → t.entries loc = s.entries loc)
    (hh : ∀ loc, s.Current loc → t.headers loc = s.headers loc)
    (hf : ∀ loc, s.Current loc → ∀ mch ∈ s.headers loc, t.file mch = s.file mch) : Wanes s t := by
  refine wanes_of_thins ?_
  by_cases hon : s.outsourcing
  · rw [view_on hon, view_on (hsame.trans hon)]
    refine ⟨hm, fun loc hl => ?_, fun loc hl => ?_, fun loc hl mch hmem => ?_⟩
    · rw [he loc hl]
    · rw [hh loc hl]
    · rw [hh loc hl] at hmem
      exact hf loc hl mch hmem
  · rw [view_off hon, view_off (hsame ▸ hon)]
    refine ⟨hm, fun loc hl => ?_, fun _ _ => List.nil_sublist _, fun _ _ _ hmem => ?_⟩
    · have hent : t.mask.entries loc = s.mask.entries loc := he loc hl
      rw [hent]
    · exact (List.not_mem_nil hmem).elim

theorem wanes_configure (ht : t = { s with cfg := t.cfg })
    (hm : t.cfg.cacheMode = s.cfg.cacheMode) (he : t.cfg.mcdctlEnabled = s.cfg.mcdctlEnabled)
    (hu : t.cfg.mcdctlUserEnabled = s.cfg.mcdctlUserEnabled) : Wanes s t := by
  refine wanes_of_same ?_ hm (fun _ _ => by rw [ht]) (fun _ _ => by rw [ht])
    (fun _ _ _ _ => by rw [ht]; rfl)
  unfold outsourcing
  rw [he, hu]

/-- A flush leaves nothing in reach. -/
theorem forgetShared_wanes (st : Store) : Wanes t (t.forgetShared st) := by
  intro ht
  refine wanes_of_thins ?_ ht
  have hmode : t.cfg.cacheMode = .shared := by
    rw [← view_cacheMode]
    exact ht.mode
  by_cases hon : t.outsourcing
  · have hon' : (t.forgetShared st).outsourcing := hon
    rw [view_on hon, view_on hon']
    exact (shrinks_forgetShared st hmode).thins
  · have hoff : ¬ (t.forgetShared st).outsourcing := hon
    rw [view_off hoff]
    exact thins_mask rfl rfl

end

section
variable {c : Ctx} {s t : State} {d : Domid} {k : GuestKey} {r : Reply}

theorem cacheMode_of_view (hs : InOrder .shared s.tiers.view) : s.cacheMode = .shared :=
  (view_cacheMode s.tiers).symm.trans hs.mode

theorem current_of_isBucket (hm : s.cacheMode = .shared) (loc : Loc) (hl : IsBucket loc) :
    s.tiers.Current loc := hl.trans hm.symm

theorem sMcdFlush_wanes (hc : c.Unbroken) (h : Returns (sMcdFlush c) s r t) :
    Wanes s.tiers t.tiers := by
  intro hs
  obtain ⟨-, u, st, hrem, -, -, ht⟩ := sMcdFlush_spec h
  have hcl : Clears c s.tiers.Current s.tiers u 0 :=
    hrem.imp (current_of_isBucket (cacheMode_of_view hs))
  rw [ht]
  exact ((hcl.wanes hc).trans (forgetShared_wanes st)) hs

theorem sMcdFlush_unseen {x : Loc × UInt32} {v : List UInt8} (ht : InOrder .shared t.tiers.view)
    (h : Returns (sMcdFlush c) s r t) : ¬ t.tiers.view.held x v := by
  obtain ⟨-, u, st, -, hnil, -, htiers⟩ := sMcdFlush_spec h
  have hmode := ht.mode
  rw [htiers] at hmode ⊢
  rintro ⟨hcur, hst⟩
  obtain ⟨i, hi⟩ := exists_bucket (hcur.trans hmode)
  rw [hi] at hst
  refine not_stored_of_nil ?_ ?_ hst
  · rw [view_entries]
    exact hnil i
  · exact view_elim (P := fun v => v.headers (.bucket i) = []) (fun _ => rfl) rfl

/-- A guest operation with or without a daemon. -/
theorem guest_seen {cmd : Cmd} (hs : InOrder .shared s.tiers.view) (hg : cmd.Guest)
    (hc : c.Unbroken) (hin : c.Fetches) (h : Returns (mcdOp c cmd) s r t) :
    InOrder .shared t.tiers.view ∧
      Follows (cmd.writes .shared r) s.tiers.view.held t.tiers.view.held ∧
      ∀ d k cap, cmd = .get d k cap → r.Hit → ∃ v, r.val = some v ∧
        s.tiers.view.held (CacheMode.shared.home d (getHash k.bytes), getHash k.bytes) v := by
  have hm := cacheMode_of_view hs
  cases cmd with
  | get d k cap =>
    have hcur := hs.current d (getHash k.bytes)
    have hget := (get_gets (fun hp => CacheMode.noConfusion (hm.symm.trans hp)) h).view
    rw [home_shared hm] at hget
    obtain ⟨hcfg, htidy, hk, hhit⟩ := hget.spec hcur hc hin hs.tidy
    refine ⟨hs.of_cfg hcfg htidy, follows_of_keeps hk hcfg fun x v he => (he rfl).elim, ?_⟩
    intro d' k' cap' heq hr
    cases heq
    obtain ⟨v, hv, hst⟩ := hhit hr
    exact ⟨v, hv, hcur, hst⟩
  | put d k v =>
    obtain ⟨ms, u, hev, hdrop, hloc, hput⟩ := put_path h
    rw [home_shared hm] at hev hdrop hloc hput
    have hdis :
        Discards s.tiers (.bucket (bucketOf (getHash k.bytes))) (getHash k.bytes) u.tiers := by
      cases hev with
      | header find forget => exact .inr ⟨find, forget⟩
      | entry mh find _ => exact .inl ⟨mh, find, hdrop hm mh find⟩
    have hend : (r = .code .errMcdFault ∧
          Clears c u.tiers.view.Current u.tiers.view t.tiers.view 0) ∨
        ∃ mh, r.rc = .errNo ∧ Holds d k v mh ∧
          Adds c u.tiers.view (.bucket (bucketOf (getHash k.bytes))) mh t.tiers.view := by
      rcases putEntry_spec hput hloc with ⟨hr, hcl⟩ | ⟨mh, hr, hmh, hadd⟩
      · refine .inl ⟨hr, ?_⟩
        rw [current_view]
        exact hcl.view
      · exact .inr ⟨mh, hr, hmh, hadd.view⟩
    obtain ⟨ht, hf⟩ := put_follows hs hc hg hdis.view hend
    exact ⟨ht, hf, fun d' k' cap' heq => Cmd.noConfusion heq⟩
  | remove d k =>
    have hdis := (remove_discards h).2.view
    rw [home_shared hm] at hdis
    obtain ⟨hshrink, hgone⟩ := hdis.spec (hs.current d (getHash k.bytes)) hs.on hs.tidy
    refine ⟨hs.of_cfg hshrink.cfg (hshrink.tidy hs.tidy),
      follows_of_keeps hshrink.keeps hshrink.cfg ?_, fun d' k' cap' heq => Cmd.noConfusion heq⟩
    intro x v he hv
    by_cases hx : x = (.bucket (bucketOf (getHash k.bytes)), getHash k.bytes)
    · subst hx
      exact hgone (mem_hashes_iff.mpr ⟨v, hv.2⟩)
    · exact he (if_neg hx)
  | flush d =>
    rcases mcdSubCall_spec h with ⟨-, hflush⟩ | ⟨hp, -⟩
    · obtain ⟨ht, -⟩ := sMcdFlush_wanes hc hflush hs
      refine ⟨ht, fun x v hv => (sMcdFlush_unseen ht hflush hv).elim, ?_⟩
      exact fun d' k' cap' heq => Cmd.noConfusion heq
    · exact CacheMode.noConfusion (hm.symm.trans hp)
  | check | getsize | memsize | weight | cacheMode | param | create | destroy | enable | disable =>
    exact hg.elim

/-- Reclaim in shared mode outsources nothing of a domain that has nothing in memory. -/
theorem Clears.sharedFree {a b : Tiers} {n : Nat} (h : Clears c IsBucket a b n)
    (hf : a.SharedFree d) : b.SharedFree d := by
  obtain ⟨l, hl, hP, -⟩ := h
  induction hl with
  | nil t => exact hf
  | @cons t u v loc mh rest hr _ ih =>
    refine ih ?_ (fun x hx => hP x (List.mem_cons_of_mem _ hx))
    obtain ⟨i, rfl⟩ := exists_bucket (hP (loc, mh) List.mem_cons_self)
    intro j
    refine ⟨fun m hm => ?_, fun mch hmch => ?_⟩
    · rw [hr.entries_eq] at hm
      exact (hf j).1 m ((Base.update_erase_sublist t.entries _ mh _).subset hm)
    · cases hr with
      | drop mem => exact (hf j).2 mch hmch
      | evict mem _ _ _ _ _ page slot =>
        rcases Base.mem_of_update_append hmch with hold | ⟨-, rfl⟩
        · exact (hf j).2 mch hold
        · exact (hf i).1 mh mem

/-- Files of a domain go of which nothing is outsourced. -/
theorem wanes_store {a : Tiers} {st : Store} (hf : ∀ i, ∀ mch ∈ a.headers (.bucket i),
    st mch.domain mch.hash = a.store mch.domain mch.hash) : Wanes a { a with store := st } := by
  intro ha
  refine wanes_of_same rfl rfl (fun _ _ => rfl) (fun _ _ => rfl) (fun loc hl mch hmem => ?_) ha
  obtain ⟨i, rfl⟩ := exists_bucket (hl.trans ((view_cacheMode a).symm.trans ha.mode))
  exact congrArg (·.getD []) (hf i mch hmem)

-- for any limit: the product in `memsizeBytes` must not be unfolded
theorem wanes_maxMemBytes (bytes : UInt64) :
    Wanes s.tiers ({ s with maxMemBytes := bytes } : State).tiers :=
  wanes_configure rfl rfl rfl rfl

theorem memsize_wanes {m : Int32} (hc : c.Unbroken) (h : Returns (mcdOp c (.memsize m)) s r t) :
    Wanes s.tiers t.tiers := by
  obtain ⟨rc, u, hfree, ht⟩ := setMemsize_spec h
  rw [ht]
  refine (wanes_maxMemBytes (memsizeBytes m)).trans ?_
  rcases freeExcess_spec hfree with ⟨-, -, hcf⟩ | ⟨-, rfl⟩
  · exact (cacheFree_clears hcf).1.wanes hc
  · exact wanes_of_eq rfl

/-- Only the switch itself changes `mcdctl_user_enabled`. -/
theorem setParam_user {which mode param : UInt32} (hp : ¬ (which = 25 ∧ param = 2))
    (hf : ¬ (which = 25 ∧ param = 1)) (h : Returns (setParam c which mode param) s r t) :
    t.mcdctlUserEnabled = s.mcdctlUserEnabled := by
  unfold setParam at h
  split_ifs at h with halpha hbeta hpage
  · obtain ⟨_, s₁, hset, h⟩ := returns_bind.mp h
    rw [(returns_pure.mp h).2, returns_modify.mp hset]
  · obtain ⟨_, s₁, hset, h⟩ := returns_bind.mp h
    rw [(returns_pure.mp h).2, returns_modify.mp hset]
  · obtain ⟨rc, s₁, hinc, h⟩ := returns_bind.mp h
    rw [(returns_pure.mp h).2]
    have hinc := returns_get_bind.mp hinc
    split_ifs at hinc
    · obtain ⟨ok, s₂, hread, hinc⟩ := returns_bind.mp hinc
      rw [(returns_pure.mp hinc).2, (returns_reading.mp hread).2]
      rfl
    · rw [(returns_pure.mp hinc).2]
  · rw [(returns_pure.mp h).2]

theorem param_wanes {which mode param : UInt32} (hc : c.Unbroken)
    (hp : ¬ (which = 25 ∧ param = 2)) (h : Returns (mcdOp c (.param which mode param)) s r t) :
    Wanes s.tiers t.tiers := by
  intro hs
  rcases setParam_inv h with ⟨-, hflush⟩ | ⟨hf, alpha, beta, user, tick, ht⟩
  · rw [cacheMode_of_view hs] at hflush
    obtain ⟨_, hflush⟩ := hflush
    exact sMcdFlush_wanes hc hflush hs
  · have huser := setParam_user hp hf h
    subst ht
    exact wanes_configure rfl rfl rfl huser hs

theorem cacheMode_wanes {which mode : UInt32} (hstay : s.targetMode which mode = .shared)
    (h : Returns (mcdOp c (.cacheMode which mode)) s r t) : Wanes s.tiers t.tiers := by
  intro hs
  have hm := cacheMode_of_view hs
  obtain ⟨rm, pm, w, hw, ⟨hsame, rfl⟩ | ⟨hne, -⟩⟩ := setCacheMode_inv h
  · rw [hw]
    exact wanes_configure rfl hsame rfl rfl hs
  · exact (hne (hstay.trans hm.symm)).elim

theorem create_wanes (hc : c.Unbroken) (hd : d ∉ s.domids) (hf : s.tiers.SharedFree d)
    (h : Returns (mcdOp c (.create d)) s r t) : Wanes s.tiers t.tiers := by
  intro hs
  obtain ⟨p, s₁, hmalloc, h⟩ := returns_bind.mp h
  obtain ⟨hcl, -⟩ := mcdMalloc_spec hmalloc
  refine (hcl.wanes hc).trans ?_ hs
  cases p with
  | none => exact wanes_of_eq (by rw [(returns_pure.mp h).2])
  | some addr =>
    simp only [returns_bind, returns_modify, returns_pure, exists_eq_left, exists_const] at h
    obtain ⟨_, s₃, hreq, -, rfl⟩ := h
    have hfresh : d ∉ s₁.tiers.live := by
      rw [hcl.live_eq]
      exact hd
    have hfree : s₁.tiers.SharedFree d := by
      refine Clears.sharedFree (hcl.imp fun loc hl => ?_) hf
      exact hl.trans (cacheMode_of_view hs)
    have henrol : Wanes s₁.tiers { s₁.tiers with live := s₁.tiers.live ++ [d] } :=
      wanes_of_same rfl rfl (fun _ _ => rfl) (fun _ _ => rfl) (fun _ _ _ _ => rfl)
    have hreqs := minfRequest_spec hreq
    rw [tiers_ite_domWeightUpdate, tiers_enrol hfresh] at hreqs
    rcases hreqs with ht | ht
    · rw [ht]
      exact henrol
    · rw [ht]
      refine henrol.trans (wanes_store fun i mch hmem => ?_)
      exact if_neg ((hfree i).2 mch hmem)

theorem destroy_wanes (hnd : s.tiers.live.Nodup)
    (hf : ∀ i, ∀ mch ∈ s.tiers.headers (.bucket i), mch.domain ≠ d)
    (h : Returns (mcdOp c (.destroy d)) s r t) : Wanes s.tiers t.tiers := by
  intro hs
  have hempt := destroy_emptied hnd h
  obtain ⟨w, q, u, hreq, hflush, -, -, ht⟩ := destroy_inv hnd h
  have hcfg : t.tiers.cfg = s.tiers.cfg := by
    obtain ⟨-, v, st, hrem, -, -, hu⟩ := pMcdFlush_spec hflush
    have hw : w.tiers.cfg = s.tiers.cfg := by
      rcases hreq with hw | hw
      · rw [hw]
      · rw [hw]
    rw [ht, hu, ← hw]
    show v.cfg = w.tiers.cfg
    exact Clears.cfg_eq hrem
  have hbucket : ∀ loc, s.tiers.Current loc → ∃ i, loc = .bucket i :=
    fun loc hl => exists_bucket (hl.trans (cacheMode_of_view hs))
  refine wanes_of_same (outsourcing_congr hcfg) (by rw [hcfg]) ?_ ?_ ?_ hs
  · intro loc hl
    obtain ⟨i, rfl⟩ := hbucket loc hl
    rw [hempt.entries, Function.update_of_ne Loc.noConfusion]
  · intro loc hl
    obtain ⟨i, rfl⟩ := hbucket loc hl
    rw [hempt.headers, Function.update_of_ne Loc.noConfusion]
  · intro loc hl mch hmem
    obtain ⟨i, rfl⟩ := hbucket loc hl
    unfold file
    rw [hempt.store _ (hf i mch hmem)]

theorem disable_wanes (h : Returns (mcdOp c .disable) s r t) : Wanes s.tiers t.tiers := by
  have h : Returns mcdEventDisable s r t := h
  simp only [mcdEventDisable, returns_bind, returns_modify, returns_pure, exists_and_left,
    exists_eq_left, exists_const] at h
  obtain ⟨-, rfl⟩ := h
  refine wanes_of_thins ?_
  have hoff : ¬ ({ s.exitMcdctl with mcdctlEnabled := false } : State).tiers.outsourcing :=
    Bool.false_ne_true
  rw [view_off hoff]
  exact thins_mask rfl rfl

/-- A daemon that attaches finds what was in reach without one. -/
theorem enable_wanes (h : Returns (mcdOp c .enable) s r t) : Wanes s.tiers t.tiers := by
  rw [mcdEventEnable_eq h]
  by_cases hon : s.mcdctlEnabled = true
  · rw [if_pos hon]
    exact wanes_of_eq rfl
  rw [if_neg hon]
  have hoff : ¬ s.tiers.outsourcing := fun ho => hon (Bool.and_eq_true_iff.mp ho).1
  intro hs
  have hm := cacheMode_of_view hs
  refine wanes_of_thins ?_ hs
  rw [view_off hoff]
  by_cases huser : s.mcdctlUserEnabled = true
  · have hon' : s.attached.tiers.outsourcing := huser
    rw [view_on hon']
    refine ⟨rfl, fun _ _ => .refl _, fun loc hl => ?_, fun loc hl mch hmem => ?_⟩
    · obtain ⟨i, rfl⟩ := exists_bucket (hl.trans hm)
      exact .refl _
    · obtain ⟨i, rfl⟩ := exists_bucket (hl.trans hm)
      exact (List.not_mem_nil hmem).elim
  · have hoff' : ¬ s.attached.tiers.outsourcing := huser
    rw [view_off hoff']
    exact thins_refl _

/-- What keeps shared mode coherent: lookups, which leave entries of their own behind, the user's
switch and a change to partition mode are left out, and a domain is created or destroyed only while
nothing of it is outsourced. -/
def Cmd.Proper (s : State) : Cmd → Prop
  | .get _ k _ | .put _ k _ | .remove _ k => k.Stable
  | .flush _ | .memsize _ | .weight .. | .enable | .disable => True
  | .cacheMode which mode => s.targetMode which mode = .shared
  | .param which _ p => ¬ (which = 25 ∧ p = 2)
  | .create d => d ∉ s.domids ∧ s.tiers.SharedFree d
  | .destroy d => ∀ i, ∀ mch ∈ s.tiers.headers (.bucket i), mch.domain ≠ d
  | .check .. | .getsize .. => False

theorem Cmd.Proper.fresh {cmd : Cmd} (h : cmd.Proper s) : cmd.Fresh s := by
  cases cmd with
  | create d => exact h.1
  | _ => exact trivial

theorem control_wanes {cmd : Cmd} (hc : c.Unbroken) (hnd : s.tiers.live.Nodup) (hp : cmd.Proper s)
    (hg : ¬ cmd.Guest) (h : Returns (mcdOp c cmd) s r t) : Wanes s.tiers t.tiers := by
  cases cmd with
  | memsize m => exact memsize_wanes hc h
  | weight d w => exact wanes_of_eq (setWeight_spec h)
  | cacheMode which mode => exact cacheMode_wanes hp h
  | param which mode param => exact param_wanes hc hp h
  | create d => exact create_wanes hc hp.1 hp.2 h
  | destroy d => exact destroy_wanes hnd hp h
  | enable => exact enable_wanes h
  | disable => exact disable_wanes h
  | get | put | remove | flush => exact (hg hp).elim
  | check | getsize => exact hp.elim

theorem writes_control {cmd : Cmd} {m : CacheMode} (hp : cmd.Proper s) (hg : ¬ cmd.Guest)
    (x : Loc × UInt32) : cmd.writes m r x = none := by
  cases cmd with
  | get | put | remove | flush => exact (hg hp).elim
  | _ => rfl

end

/-- A proper command whose transfers do not break off. -/
structure Call.Proper (y : System) (a : Call) : Prop where
  cmd : a.cmd.Proper y.mcd
  fetches : a.env.Fetches
  unbroken : a.env.Unbroken

section
variable {y z : System} {a : Call} {r : Reply} {hist : List (Call × Reply)}

theorem call_seen (hnd : y.mcd.tiers.live.Nodup) (hy : InOrder .shared y.mcd.tiers.view)
    (ha : a.Proper y) (h : y.call a = .ok (r, z)) :
    InOrder .shared z.mcd.tiers.view ∧
      Follows (a.cmd.writes .shared r) y.mcd.tiers.view.held z.mcd.tiers.view.held ∧
      ∀ d k cap, a.cmd = .get d k cap → r.Hit → ∃ v, r.val = some v ∧
        y.mcd.tiers.view.held (CacheMode.shared.home d (getHash k.bytes), getHash k.bytes) v := by
  obtain ⟨t, hop, ht, -⟩ := call_spec h
  have hc : (y.ctx a.env).Unbroken := ha.unbroken
  have hin : (y.ctx a.env).Fetches := ha.fetches
  rw [ht]
  by_cases hg : a.cmd.Guest
  · exact guest_seen hy hg hc hin hop
  · obtain ⟨hz, hsub⟩ := control_wanes hc hnd ha.cmd hg hop hy
    refine ⟨hz, fun x v hv => .inr ⟨writes_control ha.cmd hg x, hsub x v hv⟩, ?_⟩
    intro d k cap hget
    have hproper := ha.cmd
    rw [hget] at hg hproper
    exact (hg hproper).elim

theorem start_seen : InOrder .shared System.start.mcd.tiers.view ∧
    ∀ x v, ¬ System.start.mcd.tiers.view.held x v := by
  have hoff : ¬ System.start.mcd.tiers.outsourcing := Bool.false_ne_true
  have hnil : ∀ loc, System.start.mcd.tiers.mask.entries loc = [] := by
    intro loc
    cases loc with
    | bucket i => rfl
    | dom d =>
      have hno : d ∉ System.start.mcd.domids := List.not_mem_nil
      exact (lists_of_unlisted hno).1
  rw [view_off hoff]
  refine ⟨⟨rfl, rfl, ?_, ?_, ?_, ?_⟩, fun x v hv => not_stored_of_nil (hnil x.1) rfl hv.2⟩
  · intro loc _ mh hm
    rw [hnil] at hm
    cases hm
  · intro loc _ mch hm
    cases hm
  · intro loc _
    unfold hashes
    rw [hnil]
    exact List.nodup_nil
  · intro loc _ mch hm
    cases hm

theorem run_seen (h : Run Call.Proper .start hist z) :
    z.mcd.tiers.Counted ∧ InOrder .shared z.mcd.tiers.view ∧
      Coherent (fun x : Call × Reply => x.1.cmd.writes .shared x.2) hist z.mcd.tiers.view.held := by
  obtain ⟨hin, hnone⟩ := start_seen
  refine h.invariant_history (I := fun pre (u : System) => u.mcd.tiers.Counted ∧
    InOrder .shared u.mcd.tiers.view ∧ Coherent (fun x : Call × Reply => x.1.cmd.writes .shared x.2)
      pre u.mcd.tiers.view.held) ?_ [] ⟨counted_start, hin, coherent_of_empty hnone⟩
  rintro pre s ⟨a, r⟩ t ⟨hcount, hs, hcoh⟩ ⟨ha, hcall⟩
  obtain ⟨ht, hfollow, -⟩ := call_seen hcount.live hs ha hcall
  exact ⟨call_counted hcount ha.cmd.fresh hcall, ht, hcoh.step hfollow⟩

/-- Key 1 is outsourced when its daemon goes; with the next one it is put and outsourced again. -/
def restartCalls : List Call :=
  [⟨.calm, .enable⟩, ⟨.calm, .put 1 (.single 1) (.single 7)⟩,
    ⟨.full .done, .put 1 (.single 2) (.single 8)⟩, ⟨.calm, .disable⟩, ⟨.calm, .enable⟩,
    ⟨.calm, .put 1 (.single 1) (.single 9)⟩, ⟨.full .done, .put 1 (.single 2) (.single 8)⟩,
    ⟨.calm, .get 1 (.single 1) 100⟩]

/-- The replies up to the `get`, that of `create` included. -/
def restartReplies : List Reply :=
  [.code .errNo, .code .zero, ⟨.errNo, some 1, none⟩, .code .errMcdFault, .code .zero, .code .zero,
    ⟨.errNo, some 1, none⟩, .code .errMcdFault]

end

end UniCache.Mcd
