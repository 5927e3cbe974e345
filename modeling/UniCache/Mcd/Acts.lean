import Mathlib.Logic.Relation
import UniCache.Mcd.RefineControl

/-! Every hypercall as a sequence of acts on the tiers. -/
namespace UniCache.Mcd
open Base.Exec

/-- All that a hypercall other than the destruction of a domain does to the tiers. -/
inductive Act (c : Ctx) : Tiers → Tiers → Prop
  | removal {t u : Tiers} {loc : Loc} {mh : McdHashT} (h : Removal c t loc mh u) : Act c t u
  | link {t : Tiers} {loc : Loc} {mh : McdHashT} (payer : loc.payer mh = mh.domain)
      (listed : mh.domain ∈ t.live) : Act c t (t.link loc mh)
  | touch {t : Tiers} (loc : Loc) (mh : McdHashT) (now : Int) : Act c t (t.touch loc mh now)
  | forget {t : Tiers} (headers : Loc → List McdctlHashT) (store : Store)
      (sub : ∀ loc, headers loc ⊆ t.headers loc) : Act c t { t with headers, store }
  | configure {t : Tiers} (cfg : Config) : Act c t { t with cfg }
  | enrol {t : Tiers} {d : Domid} (fresh : d ∉ t.live) : Act c t { t with live := t.live ++ [d] }

def Acts (c : Ctx) : Tiers → Tiers → Prop := Relation.ReflTransGen (Act c)

section
variable {c : Ctx} {s t u : Tiers} {loc : Loc}

theorem Act.acts (h : Act c s t) : Acts c s t := Relation.ReflTransGen.single h

theorem Acts.trans (h₁ : Acts c s t) (h₂ : Acts c t u) : Acts c s u :=
  Relation.ReflTransGen.trans h₁ h₂

/-- An invariant of single acts is one of sequences. -/
theorem Acts.induct {I : Tiers → Prop} (step : ∀ {t u}, Act c t u → I t → I u) (h : Acts c s t)
    (hs : I s) : I t := by
  induction h with
  | refl => exact hs
  | tail _ hact ih => exact step hact ih

end

/-- The part of the acts that takes nothing in. -/
inductive Release (c : Ctx) : Tiers → Tiers → Prop
  | removal {t u : Tiers} {loc : Loc} {mh : McdHashT} (h : Removal c t loc mh u) : Release c t u
  | touch {t : Tiers} (loc : Loc) (mh : McdHashT) (now : Int) : Release c t (t.touch loc mh now)
  | forget {t : Tiers} (headers : Loc → List McdctlHashT) (store : Store)
      (sub : ∀ loc, headers loc ⊆ t.headers loc) : Release c t { t with headers, store }

def Releases (c : Ctx) : Tiers → Tiers → Prop := Relation.ReflTransGen (Release c)

/-- What a control operation does: nothing comes in either. -/
inductive Upkeep (c : Ctx) : Tiers → Tiers → Prop
  | release {t u : Tiers} (h : Release c t u) : Upkeep c t u
  | configure {t : Tiers} (cfg : Config) : Upkeep c t { t with cfg }
  | enrol {t : Tiers} {d : Domid} (fresh : d ∉ t.live) : Upkeep c t { t with live := t.live ++ [d] }

def Upkeeps (c : Ctx) : Tiers → Tiers → Prop := Relation.ReflTransGen (Upkeep c)

/-- An entry comes in where room was granted for it. -/
structure Admits (c : Ctx) (s : Tiers) (loc : Loc) (mh : McdHashT) (u t : Tiers) : Prop where
  clears : Clears c s.Current s u 0
  granted : Granted c s u (entrySize mh.keySize mh.valSize)
  nrBytes : mh.nrBytes = (entrySize mh.keySize mh.valSize).toUInt32
  payer : loc.payer mh = mh.domain
  listed : mh.domain ∈ s.live
  after : t = u.link loc mh

/-- What a guest operation does: at most one entry comes in. -/
def GuestOp (c : Ctx) (s t : Tiers) : Prop :=
  Releases c s t ∨ ∃ u v w loc mh, Releases c s u ∧ Admits c u loc mh w v ∧ Releases c v t

section
variable {c : Ctx} {s t u : Tiers} {loc : Loc}

theorem Release.releases (h : Release c s t) : Releases c s t := Relation.ReflTransGen.single h

theorem releases_of_eq (h : t = s) : Releases c s t := by
  rw [h]
  exact .refl

theorem Releases.trans (h₁ : Releases c s t) (h₂ : Releases c t u) : Releases c s u :=
  Relation.ReflTransGen.trans h₁ h₂

/-- An invariant of single releases is one of sequences. -/
theorem Releases.induct {I : Tiers → Prop} (step : ∀ {t u}, Release c t u → I t → I u)
    (h : Releases c s t) (hs : I s) : I t := by
  induction h with
  | refl => exact hs
  | tail _ hact ih => exact step hact ih

theorem Releases.op (h : Releases c s t) : GuestOp c s t := .inl h

theorem Admits.op {mh : McdHashT} (h : Admits c s loc mh u t) : GuestOp c s t :=
  .inr ⟨s, t, u, loc, mh, .refl, h, .refl⟩

theorem GuestOp.after_releases (h₂ : GuestOp c t u) (h₁ : Releases c s t) : GuestOp c s u := by
  rcases h₂ with h | ⟨a, b, w, loc, mh, hrel, hadm, hend⟩
  · exact .inl (h₁.trans h)
  · exact .inr ⟨a, b, w, loc, mh, h₁.trans hrel, hadm, hend⟩

theorem GuestOp.then_releases (h₁ : GuestOp c s t) (h₂ : Releases c t u) : GuestOp c s u := by
  rcases h₁ with h | ⟨a, b, w, loc, mh, hrel, hadm, hend⟩
  · exact .inl (h.trans h₂)
  · exact .inr ⟨a, b, w, loc, mh, hrel, hadm, hend.trans h₂⟩

theorem Clears.releases {P : Loc → Prop} {k : Nat} (h : Clears c P s t k) : Releases c s t := by
  obtain ⟨l, hl, -, -⟩ := h
  exact hl.induct (I := Releases c s) (fun hr hv => hv.trans (Release.removal hr).releases) .refl

theorem Upkeep.upkeeps (h : Upkeep c s t) : Upkeeps c s t := Relation.ReflTransGen.single h

theorem upkeeps_of_eq (h : t = s) : Upkeeps c s t := by
  rw [h]
  exact .refl

theorem Upkeeps.trans (h₁ : Upkeeps c s t) (h₂ : Upkeeps c t u) : Upkeeps c s u :=
  Relation.ReflTransGen.trans h₁ h₂

theorem Releases.upkeeps (h : Releases c s t) : Upkeeps c s t :=
  h.induct (I := Upkeeps c s) (fun hrel hv => hv.trans (Upkeep.release hrel).upkeeps) .refl

theorem Release.act (h : Release c s t) : Act c s t := by
  cases h with
  | removal h => exact .removal h
  | touch loc mh now => exact .touch loc mh now
  | forget headers store sub => exact .forget headers store sub

theorem Upkeep.act (h : Upkeep c s t) : Act c s t := by
  cases h with
  | release h => exact h.act
  | configure cfg => exact .configure cfg
  | enrol fresh => exact .enrol fresh

theorem Upkeeps.acts (h : Upkeeps c s t) : Acts c s t :=
  Relation.ReflTransGen.mono (fun _ _ hact => hact.act) _ _ h

theorem Releases.acts (h : Releases c s t) : Acts c s t := h.upkeeps.acts

theorem GuestOp.acts (h : GuestOp c s t) : Acts c s t := by
  rcases h with h | ⟨u, v, w, loc, mh, hrel, hadm, hend⟩
  · exact h.acts
  · have hlink : Act c w v := by
      rw [hadm.after]
      apply Act.link hadm.payer
      rw [hadm.clears.live_eq]
      exact hadm.listed
    exact hrel.acts.trans (hadm.clears.releases.acts.trans (hlink.acts.trans hend.acts))

theorem releases_store (st : Store) : Releases c s { s with store := st } :=
  (Release.forget s.headers st fun _ => List.Subset.refl _).releases

theorem releases_setHeaders {l : List McdctlHashT} (st : Store) (hl : l ⊆ s.headers loc) :
    Releases c s { s.setHeaders loc l with store := st } := by
  refine (Release.forget (Function.update s.headers loc l) st fun loc' => ?_).releases
  by_cases h : loc' = loc
  · subst h
    rw [Function.update_self]
    exact hl
  · rw [Function.update_of_ne h]
    exact List.Subset.refl _

theorem Forgets.releases {hash : UInt32} (h : Forgets s loc hash t) : Releases c s t := by
  rcases h with ⟨-, rfl⟩ | ⟨mch, -, st, -, rfl⟩
  · exact .refl
  · by_cases ho : s.outsourcing
    · rw [if_pos ho]
      exact releases_setHeaders st List.erase_subset
    · rw [if_neg ho]
      exact releases_store st

theorem Discards.releases {hash : UInt32} (h : Discards s loc hash t) : Releases c s t := by
  rcases h with ⟨mh, hf, rfl⟩ | ⟨-, hf⟩
  · exact (Release.removal (.drop (findMcdHashT_mem hf).1)).releases
  · exact hf.releases

theorem Evacuates.releases {hash : UInt32} (h : Evacuates c s loc hash t) : Releases c s t := by
  cases h with
  | entry mh _ rem => exact (Release.removal rem).releases
  | header _ forget => exact forget.releases

theorem Adds.op {mh : McdHashT} (h : Adds c s loc mh t) (hp : loc.payer mh = mh.domain)
    (hn : mh.nrBytes = (entrySize mh.keySize mh.valSize).toUInt32) : GuestOp c s t := by
  obtain ⟨hlive, u, hcl, hg, ht⟩ := h
  exact Admits.op ⟨hcl, hg, hn, hp, hlive, ht⟩

/-- A page-in takes its entry in, then the header and the file go. -/
theorem Loads.op {mch : McdctlHashT} {mh : McdHashT} (h : Loads c s loc mch mh t)
    (hp : loc.payer mh = mh.domain) : GuestOp c s t := by
  obtain ⟨hlive, u, st, hcl, hg, hfetch, rfl⟩ := h
  have hadmit : Admits c s loc mh u (u.link loc mh) := by
    refine ⟨hcl, ?_, ?_, hp, ?_, rfl⟩
    · rw [hfetch.keySize, hfetch.valSize]
      exact hg
    · rw [hfetch.nrBytes, hfetch.keySize, hfetch.valSize]
    · rw [hfetch.domain]
      exact hlive
  have hforget : Releases c (u.link loc mh)
      { (u.link loc mh).setHeaders loc ((u.headers loc).erase mch) with store := st } :=
    releases_setHeaders st List.erase_subset
  exact hadmit.op.then_releases hforget

theorem Tiers.HeadersOwned.payer_eq (ho : s.HeadersOwned) {mch : McdctlHashT} {mh : McdHashT}
    (hmem : mch ∈ s.headers loc) (hd : mh.domain = mch.domain) : loc.payer mh = mh.domain := by
  cases loc with
  | bucket i => rfl
  | dom d => rw [hd, ho d mch hmem]; rfl

theorem Gets.op {hash cap : UInt32} {r : Reply} (h : Gets c s loc hash cap r t)
    (ho : s.HeadersOwned) : GuestOp c s t := by
  cases h with
  | hit mh now _ _ after =>
    rw [after]
    exact (Release.touch loc mh now).releases.op
  | load mch mh u now _ find _ loads _ after =>
    have hd : mh.domain = mch.domain := by
      obtain ⟨-, _, _, -, -, hfetch, -⟩ := loads
      exact hfetch.domain
    rw [after]
    refine (loads.op ?_).then_releases (Release.touch loc mh now).releases
    exact ho.payer_eq (List.mem_of_find?_eq_some find) hd
  | miss _ _ clears => exact clears.releases.op

theorem releases_forgetShared (st : Store) : Releases c s (s.forgetShared st) := by
  refine (Release.forget (s.forgetShared st).headers st fun loc => ?_).releases
  cases loc with
  | bucket i => exact List.nil_subset _
  | dom d => exact List.Subset.refl _

theorem releases_forgetDom (id : Domid) (st : Store) : Releases c s (s.forgetDom id st) :=
  releases_setHeaders st (List.nil_subset _)

end

section
variable {c : Ctx} {d : Domid} {k : GuestKey} {r : Reply} {s t : State}

theorem get_op {cap : UInt32} (ho : s.tiers.HeadersOwned)
    (h : Returns (mcdOp c (.get d k cap)) s r t) : GuestOp c s.tiers t.tiers :=
  (get_gets (fun _ => ho) h).op ho

theorem putEntry_op {loc : Loc} {v : GuestVal} {ms : UInt32} (hloc : loc.For s.tiers d)
    (h : Returns (putEntry c d k loc v ms) s r t) : GuestOp c s.tiers t.tiers := by
  rcases putEntry_spec h hloc with ⟨-, hcl⟩ | ⟨mh, -, hmh, hadd⟩
  · exact hcl.releases.op
  · have hn : mh.nrBytes = (entrySize mh.keySize mh.valSize).toUInt32 := by
      rw [hmh.nrBytes, hmh.keySize, hmh.valSize]
    exact hadd.op (by rw [hloc.payer_eq hmh.domain, hmh.domain]) hn

theorem put_op {v : GuestVal} (h : Returns (mcdOp c (.put d k v)) s r t) :
    GuestOp c s.tiers t.tiers := by
  obtain ⟨ms, u, hev, -, hloc, hput⟩ := put_path h
  exact (putEntry_op hloc hput).after_releases hev.releases

theorem remove_op (h : Returns (mcdOp c (.remove d k)) s r t) : GuestOp c s.tiers t.tiers :=
  (remove_discards h).2.releases.op

theorem addMeasurement_op {loc : Loc} {u : Unit} (hloc : loc.For s.tiers d)
    (h : Returns (addMeasurement c d loc k) s u t) : GuestOp c s.tiers t.tiers := by
  rcases addMeasurement_spec h hloc with hcl | ⟨mh, hd, -, -, hk, hv, -, hn, hadd⟩
  · exact hcl.releases.op
  · exact hadd.op (by rw [hloc.payer_eq hd, hd]) (by rw [hn, hk, hv])

theorem check_op (h : Returns (mcdOp c (.check d k)) s r t) : GuestOp c s.tiers t.tiers := by
  cases check_path h with
  | found mh _ _ after => exact (releases_of_eq (by rw [after])).op
  | absent _ _ _ adds _ => exact addMeasurement_op (for_home s d k) adds

theorem sMcdFlush_releases (h : Returns (sMcdFlush c) s r t) : Releases c s.tiers t.tiers := by
  obtain ⟨-, u, st, hrem, -, -, ht⟩ := sMcdFlush_spec h
  rw [ht]
  exact (Clears.releases hrem).trans (releases_forgetShared st)

theorem pMcdFlush_releases (h : Returns (pMcdFlush c d) s r t) : Releases c s.tiers t.tiers := by
  obtain ⟨-, u, st, hrem, -, -, ht⟩ := pMcdFlush_spec h
  rw [ht]
  exact (Clears.releases hrem).trans (releases_forgetDom d st)

theorem flush_op (h : Returns (mcdOp c (.flush d)) s r t) : GuestOp c s.tiers t.tiers := by
  rcases mcdSubCall_spec h with ⟨-, h⟩ | ⟨-, h⟩
  · exact (sMcdFlush_releases h).op
  · exact (pMcdFlush_releases h).op

/-- The operations of the guests. -/
def Cmd.ByGuest : Cmd → Prop
  | .get .. | .put .. | .remove .. | .check .. | .getsize .. | .flush .. => True
  | _ => False

instance : (cmd : Cmd) → Decidable cmd.ByGuest
  | .get .. | .put .. | .remove .. | .check .. | .getsize .. | .flush .. =>
    inferInstanceAs (Decidable True)
  | .memsize .. | .weight .. | .cacheMode .. | .param .. | .create .. | .destroy .. | .enable
  | .disable => inferInstanceAs (Decidable False)

theorem guest_op {cmd : Cmd} (ho : s.tiers.HeadersOwned) (hg : cmd.ByGuest)
    (h : Returns (mcdOp c cmd) s r t) : GuestOp c s.tiers t.tiers := by
  cases cmd with
  | get d k cap => exact get_op ho h
  | put d k v => exact put_op h
  | remove d k => exact remove_op h
  | check d k => exact check_op h
  | getsize d k =>
    have hsame : Returns (mcdOp c (.check d k)) s r t := h
    exact check_op hsame
  | flush d => exact flush_op h
  | _ => exact hg.elim

theorem pMcdFlushAll_upkeeps {ids : List Domid} {u : Unit} (h : Returns (pMcdFlushAll c ids) s u t) :
    Upkeeps c s.tiers t.tiers := by
  induction ids generalizing s with
  | nil => exact upkeeps_of_eq (by rw [returns_modify.mp h]; rfl)
  | cons id ids ih =>
    unfold pMcdFlushAll at h
    by_cases hz : id = 0
    · rw [if_pos hz] at h
      exact ih h
    · rw [if_neg hz] at h
      obtain ⟨_, s₁, hone, hrest⟩ := returns_bind.mp h
      exact (pMcdFlush_releases hone).upkeeps.trans (ih hrest)

theorem freeExcess_upkeeps {rc : Rc} (h : Returns (freeExcess c) s rc t) :
    Upkeeps c s.tiers t.tiers := by
  rcases freeExcess_spec h with ⟨-, -, hfree⟩ | ⟨-, rfl⟩
  · exact (cacheFree_clears hfree).1.releases.upkeeps
  · exact .refl

-- for any limit: the product in `memsizeBytes` must not be unfolded
theorem upkeeps_maxMemBytes (bytes : UInt64) :
    Upkeeps c s.tiers ({ s with maxMemBytes := bytes } : State).tiers :=
  (Upkeep.configure _).upkeeps

theorem memsize_upkeeps {m : Int32} (h : Returns (mcdOp c (.memsize m)) s r t) :
    Upkeeps c s.tiers t.tiers := by
  obtain ⟨rc, u, hfree, hq⟩ := setMemsize_spec h
  rw [hq]
  exact (upkeeps_maxMemBytes _).trans (freeExcess_upkeeps hfree)

theorem Flushes.upkeeps {m : CacheMode} (h : Flushes c s t m) : Upkeeps c s.tiers t.tiers := by
  cases m with
  | shared =>
    obtain ⟨r, h⟩ := h
    exact (sMcdFlush_releases h).upkeeps
  | partition => exact pMcdFlushAll_upkeeps h

theorem cacheMode_upkeeps {which mode : UInt32} (h : Returns (mcdOp c (.cacheMode which mode)) s r t) :
    Upkeeps c s.tiers t.tiers := by
  obtain ⟨rm, pm, w, hw, h⟩ := setCacheMode_inv h
  have hset : Upkeeps c s.tiers w.tiers := by
    rw [hw]
    exact (Upkeep.configure _).upkeeps
  rcases h with ⟨-, rfl⟩ | ⟨-, hflush⟩
  · exact hset
  · exact hset.trans hflush.upkeeps

theorem param_upkeeps {which mode param : UInt32}
    (h : Returns (mcdOp c (.param which mode param)) s r t) : Upkeeps c s.tiers t.tiers := by
  rcases setParam_inv h with ⟨-, hflush⟩ | ⟨-, alpha, beta, user, tick, rfl⟩
  · exact hflush.upkeeps
  · exact (Upkeep.configure _).upkeeps

theorem minfRequest_upkeeps {f : Store → Store} {u : Unit} (h : Returns (minfRequest c f) s u t) :
    Upkeeps c s.tiers t.tiers := by
  rcases minfRequest_spec h with h | h
  · exact upkeeps_of_eq h
  · rw [h]
    exact (releases_store _).upkeeps

theorem create_upkeeps (hd : d ∉ s.tiers.live) (h : Returns (mcdOp c (.create d)) s r t) :
    Upkeeps c s.tiers t.tiers := by
  obtain ⟨p, s₁, hmalloc, h⟩ := returns_bind.mp h
  obtain ⟨hcl, -⟩ := mcdMalloc_spec hmalloc
  refine hcl.releases.upkeeps.trans ?_
  cases p with
  | none => exact upkeeps_of_eq (by rw [(returns_pure.mp h).2])
  | some addr =>
    simp only [returns_bind, returns_modify, returns_pure, exists_eq_left, exists_const] at h
    obtain ⟨_, s₃, hreq, -, rfl⟩ := h
    have hfresh : d ∉ s₁.tiers.live := by rw [hcl.live_eq]; exact hd
    refine Upkeeps.trans ?_ (minfRequest_upkeeps hreq)
    rw [tiers_ite_domWeightUpdate, tiers_enrol hfresh]
    exact (Upkeep.enrol hfresh).upkeeps

theorem enable_upkeeps (h : Returns (mcdOp c .enable) s r t) : Upkeeps c s.tiers t.tiers := by
  rw [mcdEventEnable_eq h]
  by_cases hon : s.mcdctlEnabled = true
  · rw [if_pos hon]
    exact upkeeps_of_eq rfl
  · rw [if_neg hon]
    have hnext : Upkeep c (s.tiers.forgetShared fun _ _ => none)
        { s.tiers.forgetShared fun _ _ => none with
          cfg := { s.config with mcdctlEnabled := true } } := .configure _
    refine (releases_forgetShared fun _ _ => none).upkeeps.trans (hnext.upkeeps.trans (upkeeps_of_eq ?_))
    ext1
    case headers =>
      funext loc
      cases loc <;> rfl
    all_goals rfl

theorem disable_upkeeps (h : Returns (mcdOp c .disable) s r t) : Upkeeps c s.tiers t.tiers := by
  have h : Returns mcdEventDisable s r t := h
  simp only [mcdEventDisable, returns_bind, returns_modify, returns_pure, exists_and_left,
    exists_eq_left, exists_const] at h
  obtain ⟨-, rfl⟩ := h
  exact (Upkeep.configure _).upkeeps

/-- `mcd_destroy` has the domain's files deleted, flushes its lists and unlinks its record. -/
theorem destroy_inv (hnd : s.tiers.live.Nodup) (h : Returns (mcdOp c (.destroy d)) s r t) :
    ∃ w q u, (w.tiers = s.tiers ∨ w.tiers = { s.tiers with
        store := fun e x => if e = d then none else s.tiers.store e x }) ∧
      Returns (pMcdFlush c d) w q u ∧ u.tiers.entries (.dom d) = [] ∧
      u.tiers.headers (.dom d) = [] ∧ t.tiers = u.tiers.retire d := by
  obtain ⟨_, s₁, hreq, h⟩ := returns_bind.mp h
  simp only [returns_bind, returns_domOf, returns_modify, returns_pure, and_assoc, exists_and_left,
    exists_eq_left, exists_const] at h
  obtain ⟨rec, -, q, s₂, hflush, -, rfl⟩ := h
  generalize hw : ({ s₁ with totalWeight := s₁.totalWeight - rec.weight } : State) = w at hflush
  have hq : w.tiers = s₁.tiers := by rw [← hw]; rfl
  have hreqs := minfRequest_spec hreq
  have hlive₁ : s₁.tiers.live = s.tiers.live := by
    rcases hreqs with h | h
    · rw [h]
    · rw [h]
  obtain ⟨-, u, st, hrem, hent, -, htiers⟩ := pMcdFlush_spec hflush
  have hlive : s₂.tiers.live = s.tiers.live := by
    rw [htiers, ← hlive₁, ← hq]
    show u.live = w.tiers.live
    exact Clears.live_eq hrem
  have hempty : s₂.tiers.entries (.dom d) = [] := by
    rw [htiers]
    show u.entries (.dom d) = []
    rw [hent, Function.update_self]
  have hnone : s₂.tiers.headers (.dom d) = [] := by
    rw [htiers]
    exact Function.update_self ..
  rw [← hq] at hreqs
  refine ⟨w, q, s₂, hreqs, hflush, hempty, hnone, ?_⟩
  rw [tiers_domWeightUpdate]
  exact tiers_retire (by rw [hlive]; exact hnd) hempty hnone rfl

/-- The destruction of a domain empties its lists, then its record goes. -/
theorem destroy_upkeeps (hnd : s.tiers.live.Nodup) (h : Returns (mcdOp c (.destroy d)) s r t) :
    ∃ u, Upkeeps c s.tiers u ∧ u.entries (.dom d) = [] ∧ u.headers (.dom d) = [] ∧
      t.tiers = u.retire d := by
  obtain ⟨w, q, u, hreq, hflush, hempty, hnone, ht⟩ := destroy_inv hnd h
  have hreqs : Upkeeps c s.tiers w.tiers := by
    rcases hreq with hs | hs
    · exact upkeeps_of_eq hs
    · rw [hs]
      exact (releases_store _).upkeeps
  exact ⟨u.tiers, hreqs.trans (pMcdFlush_releases hflush).upkeeps, hempty, hnone, ht⟩

/-- A domain is created under an id that is not listed. -/
def Cmd.Fresh (s : State) : Cmd → Prop
  | .create d => d ∉ s.domids
  | _ => True

instance (s : State) : (cmd : Cmd) → Decidable (cmd.Fresh s)
  | .create d => inferInstanceAs (Decidable (d ∉ s.domids))
  | .get .. | .put .. | .remove .. | .check .. | .getsize .. | .flush .. | .memsize .. | .weight ..
  | .cacheMode .. | .param .. | .destroy .. | .enable | .disable => inferInstanceAs (Decidable True)

def Cmd.Destroys : Cmd → Prop
  | .destroy _ => True
  | _ => False

instance : (cmd : Cmd) → Decidable cmd.Destroys
  | .destroy _ => .isTrue trivial
  | .get .. | .put .. | .remove .. | .check .. | .getsize .. | .flush .. | .memsize .. | .weight ..
  | .cacheMode .. | .param .. | .create .. | .enable | .disable => .isFalse not_false

theorem control_upkeeps {cmd : Cmd} (hg : ¬ cmd.ByGuest) (hfresh : cmd.Fresh s)
    (hkeep : ¬ cmd.Destroys) (h : Returns (mcdOp c cmd) s r t) : Upkeeps c s.tiers t.tiers := by
  cases cmd with
  | memsize m => exact memsize_upkeeps h
  | weight d w => exact upkeeps_of_eq (setWeight_spec h)
  | cacheMode which mode => exact cacheMode_upkeeps h
  | param which mode param => exact param_upkeeps h
  | create d => exact create_upkeeps hfresh h
  | destroy d => exact (hkeep trivial).elim
  | enable => exact enable_upkeeps h
  | disable => exact disable_upkeeps h
  | _ => exact (hg trivial).elim

theorem mcdOp_acts {cmd : Cmd} (ho : s.tiers.HeadersOwned) (hfresh : cmd.Fresh s)
    (hkeep : ¬ cmd.Destroys) (h : Returns (mcdOp c cmd) s r t) : Acts c s.tiers t.tiers := by
  by_cases hg : cmd.ByGuest
  · exact (guest_op ho hg h).acts
  · exact (control_upkeeps hg hfresh hkeep h).acts

end

end UniCache.Mcd
