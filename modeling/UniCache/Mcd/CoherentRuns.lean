import UniCache.Mcd.Coherence
import UniCache.Mcd.RefineControl

/-! Coherence over runs: a `get` delivers what the last `put` of its hash stored. Both modes share
one argument; they differ in where a hash lives and in how `put` clears the way. -/
namespace UniCache.Mcd
open Base Base.Exec Base.LossyMap Tiers

/-- What a command with its reply writes at each place and hash. A `put` that fails has already
discarded what was there. -/
def Cmd.writes (m : CacheMode) (cmd : Cmd) (r : Reply) : Write (Loc × UInt32) (List UInt8) :=
  fun x => match cmd with
    | .put d k v =>
      if x = (m.home d (getHash k.bytes), getHash k.bytes)
      then some (if r.rc = .errNo then some v.bytes else none) else none
    | .remove d k =>
      if x = (m.home d (getHash k.bytes), getHash k.bytes) then some none else none
    | .flush d => if m = .shared ∨ x.1 = .dom d then some none else none
    | _ => none

/-- What the lists of the current mode hold. -/
def Tiers.held (t : Tiers) (x : Loc × UInt32) (v : List UInt8) : Prop :=
  t.Current x.1 ∧ t.Stored x.1 x.2 v

section
variable {c : Ctx} {s t u : Tiers} {loc : Loc} {hash : UInt32} {e : Write (Loc × UInt32) (List UInt8)}

theorem current_iff (h : t.cfg = s.cfg) : t.Current loc ↔ s.Current loc := by
  unfold Current
  rw [h]

theorem follows_of_keeps (hk : s.Keeps t) (hcfg : t.cfg = s.cfg)
    (hgone : ∀ x v, e x ≠ none → ¬ t.held x v) : Follows e s.held t.held := by
  intro x v hv
  by_cases he : e x = none
  · have hcur : s.Current x.1 := (current_iff hcfg).mp hv.1
    exact .inr ⟨he, hcur, hk x.1 hcur x.2 v hv.2⟩
  · exact (hgone x v he hv).elim

theorem follows_of_heldOr {v : List UInt8} (hh : HeldOr s t loc hash v) (hcfg : t.cfg = s.cfg)
    (hnew : hash ∉ s.hashes loc) (hset : e (loc, hash) = some (some v))
    (hrest : ∀ x, x ≠ (loc, hash) → e x = none) : Follows e s.held t.held := by
  rintro ⟨l, h⟩ x ⟨hl, hx⟩
  have hcur : s.Current l := (current_iff hcfg).mp hl
  rcases hh l hcur h x hx with hold | ⟨rfl, rfl, rfl⟩
  · by_cases he : (l, h) = (loc, hash)
    · cases he
      exact (hnew (mem_hashes_iff.mpr ⟨x, hold⟩)).elim
    · exact .inr ⟨hrest _ he, hcur, hold⟩
  · exact .inl hset

theorem follows_after_keeps (hk : s.Keeps u) (hcfg : u.cfg = s.cfg) (h : Follows e u.held t.held) :
    Follows e s.held t.held := by
  intro x v hv
  rcases h x v hv with hset | ⟨hnone, hcur, hst⟩
  · exact .inl hset
  · have hcur' : s.Current x.1 := (current_iff hcfg).mp hcur
    exact .inr ⟨hnone, hcur', hk x.1 hcur' x.2 v hst⟩

end

/-- The state of a run in mode `m` with outsourcing on. -/
structure InOrder (m : CacheMode) (t : Tiers) : Prop where
  mode : t.cfg.cacheMode = m
  on : t.outsourcing
  tidy : t.Tidy

theorem InOrder.of_cfg {m : CacheMode} {s t : Tiers} (h : InOrder m s) (hcfg : t.cfg = s.cfg)
    (ht : t.Tidy) : InOrder m t := by
  refine ⟨by rw [hcfg]; exact h.mode, ?_, ht⟩
  have hon := h.on
  unfold outsourcing at hon ⊢
  rwa [hcfg]

theorem InOrder.current {m : CacheMode} {t : Tiers} (h : InOrder m t) (d : Domid) (x : UInt32) :
    t.Current (m.home d x) := by
  unfold Current
  rw [h.mode]
  exact m.home_mode d x

/-- A `put` whose first half discarded the old value. -/
theorem put_follows {m : CacheMode} {c : Ctx} {d : Domid} {k : GuestKey} {v : GuestVal} {r : Reply}
    {s u t : Tiers} (hs : InOrder m s) (hc : c.Unbroken) (hk : k.Stable)
    (hdis : Discards s (m.home d (getHash k.bytes)) (getHash k.bytes) u)
    (hput : (r = .code .errMcdFault ∧ Clears c u.Current u t 0) ∨
      ∃ mh, r.rc = .errNo ∧ Holds d k v mh ∧ Adds c u (m.home d (getHash k.bytes)) mh t) :
    InOrder m t ∧ Follows (Cmd.writes m (.put d k v) r) s.held t.held := by
  have hcur := hs.current d (getHash k.bytes)
  obtain ⟨hshrink, hgone⟩ := hdis.spec hcur hs.on hs.tidy
  have hu : InOrder m u := hs.of_cfg hshrink.cfg (hshrink.tidy hs.tidy)
  have hcur' := hu.current d (getHash k.bytes)
  rcases hput with ⟨rfl, hcl⟩ | ⟨mh, hr, hmh, -, w, hcl, -, rfl⟩
  · obtain ⟨ht, hkeep⟩ := hcl.tidy hc hu.tidy
    refine ⟨hu.of_cfg hcl.cfg_eq ht, follows_after_keeps hshrink.keeps hshrink.cfg
      (follows_of_keeps hkeep hcl.cfg_eq ?_)⟩
    intro x val he hv
    by_cases hx : x = (m.home d (getHash k.bytes), getHash k.bytes)
    · subst hx
      exact hkeep.not_mem hcur' hgone (mem_hashes_iff.mpr ⟨val, hv.2⟩)
    · exact he (if_neg hx)
  · have hhash : mh.hash = getHash k.bytes := by rw [hmh.hash, hk]
    have hvalue : mh.value = v.bytes := by
      unfold McdHashT.value
      rw [hmh.keyVal, hmh.keySize, ← k.again_length]
      exact List.drop_left
    have hhome : u.homeOf mh.domain mh.hash = m.home d (getHash k.bytes) := by
      unfold homeOf
      rw [hu.mode, hmh.domain, hhash]
    have hnew : mh.hash ∉ u.hashes (m.home d (getHash k.bytes)) := by
      rw [hhash]
      exact hgone
    obtain ⟨ht, hheld⟩ := hu.tidy.of_link hcl hc hcur' hhome hnew
    refine ⟨hu.of_cfg hcl.cfg_eq ht, follows_after_keeps hshrink.keeps hshrink.cfg
      (follows_of_heldOr hheld hcl.cfg_eq hnew ?_ ?_)⟩
    · show (if _ then some _ else none) = _
      rw [hhash, if_pos rfl, if_pos hr, hvalue]
    · intro x hx
      rw [hhash] at hx
      exact if_neg hx

section
variable {m : CacheMode} {c : Ctx} {d : Domid} {k : GuestKey} {r : Reply} {s t : State}

theorem InOrder.home_eq (h : InOrder m s.tiers) (d : Domid) (k : GuestKey) :
    s.home d k = m.home d (getHash k.bytes) := by
  have hm : s.cacheMode = m := h.mode
  unfold State.home
  rw [hm]

theorem InOrder.headersOwned (h : InOrder m s.tiers) (hp : s.cacheMode = .partition) :
    s.tiers.HeadersOwned := by
  intro id mch hm
  have hmode : m = .partition := h.mode.symm.trans hp
  subst hmode
  have hcur : s.tiers.Current (.dom id) := h.mode.symm
  have hhome := h.tidy.header_home (.dom id) hcur mch hm
  unfold homeOf at hhome
  rw [h.mode] at hhome
  exact Loc.dom.inj hhome

/-- A `put` over an entry of the caller's own list that `p_mcd_put` would page out. -/
def Cmd.Overwrites (s : State) : Cmd → Prop
  | .put d k _ => ∃ mh, findMcdHashT (getHash k.bytes) (s.entries (.dom d)) = some mh ∧
      mh.flags = mcdHashTNormal
  | _ => False

/-- `s_mcd_put` discards what it replaces; `p_mcd_put` does when it does not page it out. -/
theorem put_discards {v : GuestVal} (hs : InOrder m s.tiers)
    (ho : m = .partition → ¬ (Cmd.put d k v).Overwrites s)
    (h : Returns (mcdOp c (.put d k v)) s r t) :
    ∃ u : State, Discards s.tiers (m.home d (getHash k.bytes)) (getHash k.bytes) u.tiers ∧
      ((r = .code .errMcdFault ∧ Clears c u.tiers.Current u.tiers t.tiers 0) ∨
        ∃ mh, r.rc = .errNo ∧ Holds d k v mh ∧
          Adds c u.tiers (m.home d (getHash k.bytes)) mh t.tiers) := by
  have hhome := hs.home_eq d k
  obtain ⟨ms, u, hev, hdrop, hloc, hput⟩ := put_path h
  rw [hhome] at hev hdrop hloc hput
  refine ⟨u, ?_, putEntry_spec hput hloc⟩
  cases hev with
  | header find forget => exact .inr ⟨find, forget⟩
  | entry mh find rem =>
    cases m with
    | shared => exact .inl ⟨mh, find, hdrop hs.mode mh find⟩
    | partition =>
      generalize u.tiers = w at rem
      cases rem with
      | drop mem => exact .inl ⟨mh, find, rfl⟩
      | evict mem normal => exact (ho rfl ⟨mh, find, normal⟩).elim

end

/-- A flush in shared mode empties every bucket, whoever calls it; in partition mode the caller's
lists. -/
theorem flush_follows {m : CacheMode} {c : Ctx} {d : Domid} {r : Reply} {s t : State}
    (hs : InOrder m s.tiers) (hc : c.Unbroken) (h : Returns (mcdOp c (.flush d)) s r t) :
    InOrder m t.tiers ∧ Follows (Cmd.writes m (.flush d) r) s.tiers.held t.tiers.held := by
  have hmode : s.cacheMode = m := hs.mode
  rcases mcdSubCall_spec h with ⟨hm, h⟩ | ⟨hm, h⟩
  · obtain rfl : CacheMode.shared = m := hm.symm.trans hmode
    obtain ⟨-, u, st, hrem, hnil, -, ht⟩ := sMcdFlush_spec h
    have hcl : Clears c s.tiers.Current s.tiers u 0 :=
      hrem.imp fun loc hl => hl.trans hs.mode.symm
    obtain ⟨hu, hk⟩ := hcl.tidy hc hs.tidy
    have hin := hs.of_cfg hcl.cfg_eq hu
    have hshrink := shrinks_forgetShared st hin.mode
    rw [ht]
    refine ⟨hin.of_cfg rfl (hshrink.tidy hu), follows_after_keeps hk hcl.cfg_eq
      (follows_of_keeps hshrink.keeps rfl ?_)⟩
    rintro ⟨l, x⟩ v - ⟨hl, hv⟩
    cases l with
    | bucket i =>
      have hn : (u.forgetShared st).entries (.bucket i) = [] := hnil i
      exact not_stored_of_nil hn rfl hv
    | dom id =>
      have hd : CacheMode.partition = u.cfg.cacheMode := hl
      rw [hin.mode] at hd
      exact CacheMode.noConfusion hd
  · obtain rfl : CacheMode.partition = m := hm.symm.trans hmode
    obtain ⟨-, u, st, hrem, hent, hst, ht⟩ := pMcdFlush_spec h
    have hcl : Clears c s.tiers.Current s.tiers u 0 :=
      hrem.imp fun loc hl => hl.trans hs.mode.symm
    obtain ⟨hu, hk⟩ := hcl.tidy hc hs.tidy
    have hin := hs.of_cfg hcl.cfg_eq hu
    have hshrink := shrinks_forgetDom hu hin.mode hst
    rw [ht]
    refine ⟨hin.of_cfg rfl (hshrink.tidy hu), follows_after_keeps hk hcl.cfg_eq
      (follows_of_keeps hshrink.keeps rfl ?_)⟩
    rintro ⟨l, x⟩ v he ⟨-, hv⟩
    have hl : l = .dom d := by
      by_contra hne
      refine he (if_neg ?_)
      rintro (h | h)
      · exact CacheMode.noConfusion h
      · exact hne h
    subst hl
    have hn : (u.forgetDom d st).entries (.dom d) = [] := by
      show u.entries (.dom d) = []
      rw [hent, Function.update_self]
    have hh : (u.forgetDom d st).headers (.dom d) = [] := Function.update_self ..
    exact not_stored_of_nil hn hh hv

/-- A guest operation; the guest leaves its key alone meanwhile. -/
def Cmd.Guest : Cmd → Prop
  | .get _ k _ | .put _ k _ | .remove _ k => k.Stable
  | .flush _ => True
  | _ => False

/-- One hypercall of a guest: what is held afterwards it has written or was held before, and a
`get` delivers what was held. -/
theorem call_follows {m : CacheMode} {y z : System} {a : Call} {r : Reply}
    (hy : InOrder m y.mcd.tiers) (hg : a.cmd.Guest) (hc : a.env.Unbroken) (hin : a.env.Fetches)
    (ho : m = .partition → ¬ a.cmd.Overwrites y.mcd) (h : y.call a = .ok (r, z)) :
    InOrder m z.mcd.tiers ∧ Follows (a.cmd.writes m r) y.mcd.tiers.held z.mcd.tiers.held ∧
      ∀ d k cap, a.cmd = .get d k cap → r.Hit → ∃ v, r.val = some v ∧
        y.mcd.tiers.held (m.home d (getHash k.bytes), getHash k.bytes) v := by
  obtain ⟨t, hop, ht, -⟩ := call_spec h
  rw [ht]
  obtain ⟨env, cmd⟩ := a
  have hc' : (y.ctx env).Unbroken := hc
  have hin' : (y.ctx env).Fetches := hin
  cases cmd with
  | get d k cap =>
    have hcur := hy.current d (getHash k.bytes)
    have hget := get_gets hy.headersOwned hop
    rw [hy.home_eq] at hget
    obtain ⟨hcfg, htidy, hk, hhit⟩ := hget.spec hcur hc' hin' hy.tidy
    refine ⟨hy.of_cfg hcfg htidy, follows_of_keeps hk hcfg fun x v he => (he rfl).elim, ?_⟩
    intro d' k' cap' heq hr
    cases heq
    obtain ⟨v, hv, hst⟩ := hhit hr
    exact ⟨v, hv, hcur, hst⟩
  | put d k v =>
    obtain ⟨u, hdis, hput⟩ := put_discards hy ho hop
    obtain ⟨hz, hf⟩ := put_follows hy hc' hg hdis hput
    exact ⟨hz, hf, fun d' k' cap' heq => Cmd.noConfusion heq⟩
  | remove d k =>
    have hdis := (remove_discards hop).2
    rw [hy.home_eq] at hdis
    obtain ⟨hshrink, hgone⟩ := hdis.spec (hy.current d _) hy.on hy.tidy
    refine ⟨hy.of_cfg hshrink.cfg (hshrink.tidy hy.tidy),
      follows_of_keeps hshrink.keeps hshrink.cfg ?_, fun d' k' cap' heq => Cmd.noConfusion heq⟩
    intro x v he hv
    by_cases hx : x = (m.home d (getHash k.bytes), getHash k.bytes)
    · subst hx
      exact hgone (mem_hashes_iff.mpr ⟨v, hv.2⟩)
    · exact he (if_neg hx)
  | flush d =>
    obtain ⟨hz, hf⟩ := flush_follows hy hc' hop
    exact ⟨hz, hf, fun d' k' cap' heq => Cmd.noConfusion heq⟩
  | check | getsize | memsize | weight | cacheMode | param | create | destroy | enable | disable =>
    exact hg.elim

/-- In mode `m`, domains `d` and `d'` use the same keys. -/
def CacheMode.Shares (m : CacheMode) (d d' : Domid) : Prop := m = .shared ∨ d' = d

/-- The commands that put, remove or flush a hash as domain `d` sees it. -/
def Cmd.Concerns (m : CacheMode) (d : Domid) (hash : UInt32) : Cmd → Prop
  | .put d' k _ | .remove d' k => m.Shares d d' ∧ getHash k.bytes = hash
  | .flush d' => m.Shares d d'
  | _ => False

/-- `val` is the value of the last `put` of `hash`, which succeeded, and no command after it
concerns the hash. -/
def LastPut (m : CacheMode) (d : Domid) (hash : UInt32) (hist : List (Call × Reply))
    (val : Option (List UInt8)) : Prop :=
  ∃ before env d' k v r after, hist = before ++ (⟨env, .put d' k v⟩, r) :: after ∧
    m.Shares d d' ∧ getHash k.bytes = hash ∧ r.rc = .errNo ∧ val = some v.bytes ∧
    ∀ x ∈ after, ¬ x.1.cmd.Concerns m d hash

section
variable {m : CacheMode} {d d' : Domid} {hash : UInt32}

theorem shares_of_home_eq {x : UInt32} (h : m.home d x = m.home d' hash) : m.Shares d d' := by
  cases m with
  | shared => exact .inl rfl
  | partition => exact .inr (Loc.dom.inj h).symm

theorem home_eq_of_shares (h : m.Shares d d') : m.home d' hash = m.home d hash := by
  rcases h with rfl | rfl
  · rfl
  · rfl

theorem writes_of_concerns {cmd : Cmd} {r : Reply} (h : cmd.Concerns m d hash) :
    cmd.writes m r (m.home d hash, hash) ≠ none := by
  cases cmd with
  | put d' k v =>
    obtain ⟨hs, rfl⟩ := h
    show (if _ then some _ else none) ≠ none
    rw [if_pos (by rw [home_eq_of_shares hs])]
    exact Option.some_ne_none _
  | remove d' k =>
    obtain ⟨hs, rfl⟩ := h
    show (if _ then some _ else none) ≠ none
    rw [if_pos (by rw [home_eq_of_shares hs])]
    exact Option.some_ne_none _
  | flush d' =>
    show (if _ then some _ else none) ≠ none
    rw [if_pos]
    · exact Option.some_ne_none _
    · rcases h with rfl | rfl
      · exact .inl rfl
      · cases m with
        | shared => exact .inl rfl
        | partition => exact .inr rfl
  | get | check | getsize | memsize | weight | cacheMode | param | create | destroy | enable
  | disable => exact h.elim

theorem writes_eq_put {cmd : Cmd} {r : Reply} {v : List UInt8}
    (h : cmd.writes m r (m.home d hash, hash) = some (some v)) :
    ∃ d' k v', cmd = .put d' k v' ∧ m.Shares d d' ∧ getHash k.bytes = hash ∧ r.rc = .errNo ∧
      v = v'.bytes := by
  cases cmd with
  | put d' k v' =>
    have h' : (if (m.home d hash, hash) = (m.home d' (getHash k.bytes), getHash k.bytes)
        then some (if r.rc = .errNo then some v'.bytes else none) else none) = some (some v) := h
    split_ifs at h' with hx hr
    · obtain ⟨hhome, hhash⟩ := Prod.mk.inj hx
      exact ⟨d', k, v', rfl, shares_of_home_eq hhome, hhash.symm, hr,
        (Option.some.inj (Option.some.inj h')).symm⟩
    · cases h'
  | remove d' k =>
    have h' : (if (m.home d hash, hash) = (m.home d' (getHash k.bytes), getHash k.bytes)
        then some none else none) = some (some v) := h
    split_ifs at h' with hx
    cases h'
  | flush d' =>
    have h' : (if m = .shared ∨ m.home d hash = .dom d' then some none else none) =
        some (some v) := h
    split_ifs at h' with hx
    cases h'
  | get | check | getsize | memsize | weight | cacheMode | param | create | destroy | enable
  | disable => cases h

theorem lastPut_of_replay {hist : List (Call × Reply)} {v : List UInt8}
    (h : replay (fun x : Call × Reply => x.1.cmd.writes m x.2) hist (m.home d hash, hash) = some v) :
    LastPut m d hash hist (some v) := by
  obtain ⟨before, ⟨⟨env, cmd⟩, r⟩, after, hhist, hput, hafter⟩ := exists_write_of_replay _ h
  obtain ⟨d', k, v', rfl, hs, hk, hr, rfl⟩ := writes_eq_put hput
  exact ⟨before, env, d', k, v', r, after, hhist, hs, hk, hr, rfl,
    fun x hx hc => writes_of_concerns hc (hafter x hx)⟩

end

/-- What is asked of each hypercall in a state of a run in mode `m`. -/
def Careful (m : CacheMode) (y : System) (a : Call) : Prop :=
  a.cmd.Guest ∧ a.env.Fetches ∧ a.env.Unbroken ∧ (m = .partition → ¬ a.cmd.Overwrites y.mcd)

/-- Nothing is cached in the lists of mode `m`. -/
def State.EmptyIn (m : CacheMode) (s : State) : Prop :=
  ∀ loc, loc.mode = m → s.entries loc = [] ∧ s.headers loc = []

theorem inOrder_of_empty {m : CacheMode} {s : State} (hm : s.cacheMode = m) (hon : s.outsourcing)
    (he : s.EmptyIn m) : InOrder m s.tiers ∧ ∀ x v, ¬ s.tiers.held x v := by
  have hnil : ∀ loc, s.tiers.Current loc →
      s.tiers.entries loc = [] ∧ s.tiers.headers loc = [] := by
    intro loc hl
    exact he loc (Eq.trans hl hm)
  refine ⟨⟨hm, hon, ?_, ?_, ?_, ?_⟩, fun x v hv => ?_⟩
  · intro loc hl mh hmem
    rw [(hnil loc hl).1] at hmem
    exact (List.not_mem_nil hmem).elim
  · intro loc hl mch hmem
    rw [(hnil loc hl).2] at hmem
    exact (List.not_mem_nil hmem).elim
  · intro loc hl
    unfold hashes
    rw [(hnil loc hl).1, (hnil loc hl).2]
    exact List.nodup_nil
  · intro loc hl mch hmem
    rw [(hnil loc hl).2] at hmem
    exact (List.not_mem_nil hmem).elim
  · exact not_stored_of_nil (hnil x.1 hv.1).1 (hnil x.1 hv.1).2 hv.2

/-- Both modes: along a careful run from an empty cache the tiers stay coherent with the history. -/
theorem run_coherent {m : CacheMode} {y z : System} {hist : List (Call × Reply)}
    (hm : y.mcd.cacheMode = m) (hon : y.mcd.outsourcing) (he : y.mcd.EmptyIn m)
    (hrun : Run (Careful m) y hist z) :
    InOrder m z.mcd.tiers ∧
      Coherent (fun x : Call × Reply => x.1.cmd.writes m x.2) hist z.mcd.tiers.held := by
  obtain ⟨hin, hnone⟩ := inOrder_of_empty hm hon he
  refine hrun.invariant_history (I := fun pre (u : System) => InOrder m u.mcd.tiers ∧
    Coherent (fun x : Call × Reply => x.1.cmd.writes m x.2) pre u.mcd.tiers.held) ?_ []
    ⟨hin, coherent_of_empty hnone⟩
  rintro pre s ⟨a, r⟩ t ⟨hs, hcoh⟩ ⟨⟨hg, hf, hu, ho⟩, hcall⟩
  obtain ⟨ht, hfollow, -⟩ := call_follows hs hg hu hf ho hcall
  exact ⟨ht, hcoh.step hfollow⟩

theorem get_lastPut {m : CacheMode} {y w : System} {hist : List (Call × Reply)} {env : Env}
    {d : Domid} {k : GuestKey} {cap : UInt32} {r : Reply} (hm : y.mcd.cacheMode = m)
    (hon : y.mcd.outsourcing) (he : y.mcd.EmptyIn m)
    (hrun : Run (Careful m) y (hist ++ [(⟨env, .get d k cap⟩, r)]) w) (hhit : r.Hit) :
    LastPut m d (getHash k.bytes) hist r.val := by
  obtain ⟨z, hrun, ⟨hg, hf, hu, ho⟩, hcall⟩ := hrun.of_concat
  obtain ⟨hz, hcoh⟩ := run_coherent hm hon he hrun
  obtain ⟨-, -, hval⟩ := call_follows hz hg hu hf ho hcall
  obtain ⟨v, hv, hheld⟩ := hval d k cap rfl hhit
  rw [hv]
  exact lastPut_of_replay (hcoh _ v hheld)

/-- Shared mode: a `get` that succeeds delivers the value of the last `put` of its hash, by whatever
domain, as long as no page-out breaks off after it was accepted. -/
theorem shared_get_lastPut {y w : System} {hist : List (Call × Reply)} {env : Env} {d : Domid}
    {k : GuestKey} {cap : UInt32} {r : Reply} (hm : y.mcd.cacheMode = .shared)
    (hon : y.mcd.outsourcing) (he : y.mcd.EmptyIn .shared)
    (hrun : Run (fun _ a => a.cmd.Guest ∧ a.env.Fetches ∧ a.env.Unbroken) y
      (hist ++ [(⟨env, .get d k cap⟩, r)]) w) (hhit : r.Hit) :
    LastPut .shared d (getHash k.bytes) hist r.val := by
  refine get_lastPut hm hon he (hrun.mono ?_) hhit
  rintro s x t ⟨⟨hg, hf, hu⟩, hcall⟩
  exact ⟨⟨hg, hf, hu, fun h => CacheMode.noConfusion h⟩, hcall⟩

theorem fetches_calm : Env.calm.Fetches := fun _ => rfl

theorem oneGuest_start : System.oneGuest.mcd.cacheMode = .shared ∧ System.oneGuest.mcd.outsourcing ∧
    System.oneGuest.mcd.EmptyIn .shared := by
  obtain ⟨hm, hon, hnil⟩ : System.oneGuest.mcd.cacheMode = .shared ∧
      System.oneGuest.mcd.outsourcing ∧ ∀ i : Bucket, System.oneGuest.mcd.shared i = [] ∧
        System.oneGuest.mcd.mcdctlShared i = [] := by decide +kernel
  refine ⟨hm, hon, fun loc hl => ?_⟩
  cases loc with
  | bucket i => exact hnil i
  | dom d => exact CacheMode.noConfusion hl

/-- Key 1 is put and evicted, then key 2; at the end key 1 is read, with the shared page still
holding key 2 and its value. -/
def evictTwice (out : PageOut) : List Call :=
  [⟨.calm, .put 1 (.single 1) (.single 7)⟩, ⟨.full out, .put 1 (.single 2) (.single 8)⟩,
    ⟨.calm, .put 1 (.single 2) (.single 8)⟩, ⟨.full .done, .put 1 (.single 3) (.single 9)⟩,
    ⟨{ Env.calm with stale := fun _ i => if i = 0 then 2 else 8 }, .get 1 (.single 1) 100⟩]

/-- The replies up to the `get`. -/
def evictTwiceReplies : List Reply :=
  [⟨.errNo, some 1, none⟩, .code .errMcdFault, ⟨.errNo, some 1, none⟩, .code .errMcdFault]

theorem shared_get_lastPut_evicted :
    LastPut .shared 1 (getHash [1]) ((evictTwice .done).zip evictTwiceReplies) (some [7]) := by
  obtain ⟨hm, hon, he⟩ := oneGuest_start
  have hr : System.oneGuest.replies (evictTwice .done) =
      some (evictTwiceReplies ++ [⟨.retGetSsd, some 1, some [7]⟩]) := by
    decide +kernel
  have hP : ∀ a ∈ evictTwice .done, ∀ _ : System,
      a.cmd.Guest ∧ a.env.Fetches ∧ a.env.Unbroken := by
    intro a ha _
    simp only [evictTwice, List.mem_cons, List.not_mem_nil, or_false] at ha
    rcases ha with rfl | rfl | rfl | rfl | rfl <;>
      exact ⟨rfl, fetches_calm, fun _ _ h => PageOut.noConfusion h⟩
  obtain ⟨w, hrun⟩ := run_of_replies hP hr
  have hrun' : Run _ _ ((evictTwice .done).zip evictTwiceReplies ++ [_]) w := hrun
  exact shared_get_lastPut hm hon he hrun' (.inr rfl)

/-- The same run when the first page-out breaks off and leaves no file: its header is linked all the
same, and the `get` of key 1 succeeds with the value of key 2. -/
theorem shared_get_after_broken_pageOut :
    ∃ y w hist env d k cap r, y.mcd.cacheMode = .shared ∧ y.mcd.outsourcing ∧
      y.mcd.EmptyIn .shared ∧ Run (fun _ a => a.cmd.Guest ∧ a.env.Fetches) y
        (hist ++ [(⟨env, .get d k cap⟩, r)]) w ∧ r.Hit ∧
      ¬ LastPut .shared d (getHash k.bytes) hist r.val := by
  obtain ⟨hm, hon, he⟩ := oneGuest_start
  have hr : System.oneGuest.replies (evictTwice (.broken none)) =
      some (evictTwiceReplies ++ [⟨.retGetSsd, some 1, some [8]⟩]) := by
    decide +kernel
  have hP : ∀ a ∈ evictTwice (.broken none), ∀ _ : System, a.cmd.Guest ∧ a.env.Fetches := by
    intro a ha _
    simp only [evictTwice, List.mem_cons, List.not_mem_nil, or_false] at ha
    rcases ha with rfl | rfl | rfl | rfl | rfl <;> exact ⟨rfl, fetches_calm⟩
  obtain ⟨w, hrun⟩ := run_of_replies hP hr
  have hrun' : Run _ _ ((evictTwice (.broken none)).zip evictTwiceReplies ++ [_]) w := hrun
  refine ⟨_, w, _, _, _, _, _, _, hm, hon, he, hrun', .inr rfl, ?_⟩
  rintro ⟨before, env, d, k, v, r, after, hhist, -, hk, -, hval, -⟩
  have hmem : (⟨env, .put d k v⟩, r) ∈ before ++ (⟨env, .put d k v⟩, r) :: after := by simp
  rw [← hhist] at hmem
  have hput : k = .single 1 ∧ v = .single 7 ∨ k = .single 2 ∨ k = .single 3 := by
    simp only [evictTwice, evictTwiceReplies, List.zip_cons_cons, List.zip_nil_right, List.mem_cons,
      List.not_mem_nil, or_false, Prod.mk.injEq, Call.mk.injEq, Cmd.put.injEq] at hmem
    rcases hmem with ⟨⟨-, -, hk, hv⟩, -⟩ | ⟨⟨-, -, hk, -⟩, -⟩ | ⟨⟨-, -, hk, -⟩, -⟩ | ⟨⟨-, -, hk, -⟩, -⟩
    · exact .inl ⟨hk, hv⟩
    · exact .inr (.inl hk)
    · exact .inr (.inl hk)
    · exact .inr (.inr hk)
  rcases hput with ⟨rfl, rfl⟩ | rfl | rfl
  · cases hval
  · exact absurd hk (by decide)
  · exact absurd hk (by decide)

/-- Partition mode: a domain's `get` that succeeds delivers the value of its own last `put` of the
hash, as long as no `put` pages out the value it replaces. -/
theorem partition_get_lastPut {y w : System} {hist : List (Call × Reply)} {env : Env} {d : Domid}
    {k : GuestKey} {cap : UInt32} {r : Reply} (hm : y.mcd.cacheMode = .partition)
    (hon : y.mcd.outsourcing) (he : y.mcd.EmptyIn .partition)
    (hrun : Run (fun u a => a.cmd.Guest ∧ a.env.Fetches ∧ a.env.Unbroken ∧
      ¬ a.cmd.Overwrites u.mcd) y (hist ++ [(⟨env, .get d k cap⟩, r)]) w) (hhit : r.Hit) :
    LastPut .partition d (getHash k.bytes) hist r.val := by
  refine get_lastPut hm hon he (hrun.mono ?_) hhit
  rintro s x t ⟨⟨hg, hf, hu, ho⟩, hcall⟩
  exact ⟨⟨hg, hf, hu, fun _ => ho⟩, hcall⟩

/-- Right after a command that takes a hash away there is no last `put` of it. -/
theorem not_lastPut_concat {m : CacheMode} {d : Domid} {hash : UInt32} {hist : List (Call × Reply)}
    {x : Call × Reply} {val : Option (List UInt8)} (hc : x.1.cmd.Concerns m d hash)
    (hx : ∀ d k v, x.1.cmd ≠ .put d k v) : ¬ LastPut m d hash (hist ++ [x]) val := by
  rintro ⟨before, env, d', k, v, r, after, hhist, -, -, -, -, hafter⟩
  rcases List.eq_nil_or_concat after with rfl | ⟨after', y, rfl⟩
  · obtain ⟨-, hlast⟩ := List.append_inj' hhist rfl
    exact hx d' k v (by rw [List.singleton_inj.mp hlast])
  · have heq : hist ++ [x] = (before ++ (⟨env, .put d' k v⟩, r) :: after') ++ [y] := by
      simpa using hhist
    obtain ⟨-, hlast⟩ := List.append_inj' heq rfl
    rw [List.singleton_inj.mp hlast] at hc
    exact hafter y (by simp) hc

/-- The guest of `oneGuest` in partition mode. -/
def System.onePartition : System := System.oneGuest.after [⟨.calm, .cacheMode 0 1⟩]

theorem emptyIn_partition {s : State}
    (h : ∀ d ∈ s.domains, d.hashList = [] ∧ d.mcdctlList = []) : s.EmptyIn .partition := by
  intro loc hl
  cases loc with
  | bucket i => exact CacheMode.noConfusion hl
  | dom d =>
    cases hd : findMcdDom d s with
    | none => simp [State.entries, State.headers, hd]
    | some rec =>
      have hnil := h rec (List.mem_of_find?_eq_some hd)
      simpa [State.entries, State.headers, hd] using hnil

theorem onePartition_start : System.onePartition.mcd.cacheMode = .partition ∧
    System.onePartition.mcd.outsourcing ∧ System.onePartition.mcd.EmptyIn .partition := by
  obtain ⟨hm, hon, hnil⟩ : System.onePartition.mcd.cacheMode = .partition ∧
      System.onePartition.mcd.outsourcing ∧
      ∀ d ∈ System.onePartition.mcd.domains, d.hashList = [] ∧ d.mcdctlList = [] := by decide +kernel
  exact ⟨hm, hon, emptyIn_partition hnil⟩

theorem partition_get_lastPut_memory :
    LastPut .partition 1 (getHash [1])
      [(⟨.calm, .put 1 (.single 1) (.single 7)⟩, ⟨.errNo, some 1, none⟩)] (some [7]) := by
  obtain ⟨hm, hon, he⟩ := onePartition_start
  have hr : System.onePartition.replies [⟨.calm, .put 1 (.single 1) (.single 7)⟩,
      ⟨.calm, .get 1 (.single 1) 100⟩] =
      some [⟨.errNo, some 1, none⟩, ⟨.retGetMem, some 1, some [7]⟩] := by
    decide +kernel
  have hunbroken : Env.calm.Unbroken := fun _ _ h => PageOut.noConfusion h
  obtain ⟨w, hrun⟩ := run_of_replies (P := fun _ a => a.cmd.Guest ∧ a.env.Fetches ∧ a.env.Unbroken)
    (fun a ha _ => by
      simp only [List.mem_cons, List.not_mem_nil, or_false] at ha
      rcases ha with rfl | rfl <;> exact ⟨rfl, fetches_calm, hunbroken⟩) hr
  -- the list is empty when the key is put, and a `get` overwrites nothing
  have hfresh : ¬ (Cmd.put 1 (.single 1) (.single 7)).Overwrites System.onePartition.mcd := by
    rintro ⟨mh, hfind, -⟩
    rw [(he (.dom 1) rfl).1] at hfind
    cases hfind
  have hrun' : Run _ _ ([_] ++ [_]) w := hrun
  obtain ⟨z, hone, ⟨hg, hf, hu⟩, hget⟩ := hrun'.of_concat
  have hone' : Run _ _ ([] ++ [_]) z := hone
  obtain ⟨y, hnil, ⟨hg', hf', hu'⟩, hput⟩ := hone'.of_concat
  have hstart : System.onePartition = y := hnil.eq_of_nil
  subst hstart
  have hcareful : Run (fun u a => a.cmd.Guest ∧ a.env.Fetches ∧ a.env.Unbroken ∧
      ¬ a.cmd.Overwrites u.mcd) System.onePartition ([_] ++ [_]) w :=
    .cons ⟨⟨hg', hf', hu', hfresh⟩, hput⟩ (.cons ⟨⟨hg, hf, hu, id⟩, hget⟩ (.nil w))
  exact partition_get_lastPut hm hon he hcareful (.inl rfl)

/-- `put(k, 7); put(k, 8); remove(k)`: the value 7 was paged out by the second `put`, and the next
`get` delivers it. -/
theorem partition_get_after_remove :
    ∃ y w hist env d k cap r, y.mcd.cacheMode = .partition ∧ y.mcd.outsourcing ∧
      y.mcd.EmptyIn .partition ∧
      Run (fun _ a => a.cmd.Guest ∧ a.env.Fetches ∧ a.env.Unbroken) y
        (hist ++ [(⟨env, .get d k cap⟩, r)]) w ∧ r.Hit ∧ r.val = some [7] ∧
      ¬ LastPut .partition d (getHash k.bytes) hist r.val := by
  obtain ⟨hm, hon, he⟩ := onePartition_start
  have hr : System.onePartition.replies [⟨.calm, .put 1 (.single 1) (.single 7)⟩,
      ⟨.calm, .put 1 (.single 1) (.single 8)⟩, ⟨.calm, .remove 1 (.single 1)⟩,
      ⟨.calm, .get 1 (.single 1) 100⟩] =
      some [⟨.errNo, some 1, none⟩, ⟨.errNo, some 1, none⟩, .code .errNo,
        ⟨.retGetSsd, some 1, some [7]⟩] := by
    decide +kernel
  obtain ⟨w, hrun⟩ := run_of_replies
    (P := fun _ a => a.cmd.Guest ∧ a.env.Fetches ∧ a.env.Unbroken) (fun a ha _ => by
      simp only [List.mem_cons, List.not_mem_nil, or_false] at ha
      rcases ha with rfl | rfl | rfl | rfl <;>
        exact ⟨rfl, fetches_calm, fun _ _ h => PageOut.noConfusion h⟩) hr
  have hrun' : Run _ _ (([_, _] ++ [_]) ++ [_]) w := hrun
  refine ⟨_, w, _, _, _, _, _, _, hm, hon, he, hrun', .inr rfl, rfl, not_lastPut_concat ?_ ?_⟩
  · exact ⟨.inr rfl, rfl⟩
  · exact fun d k v h => Cmd.noConfusion h

end UniCache.Mcd
