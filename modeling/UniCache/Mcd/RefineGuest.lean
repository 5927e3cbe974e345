import UniCache.Mcd.RefineOps

/-! The guest operations as `do_mcd_op` dispatches them. Each works on one list, the home of its key
in the current cache mode, and has the same few paths in both modes. -/
namespace UniCache.Mcd
open Base.Exec

theorem mcdSubCall_spec {p q : M Reply} {s t : State} {r : Reply}
    (h : Returns (mcdSubCall p q) s r t) :
    (s.cacheMode = .shared ∧ Returns q s r t) ∨ (s.cacheMode = .partition ∧ Returns p s r t) := by
  simp only [mcdSubCall, returns_bind, returns_get, and_assoc, exists_and_left,
    exists_eq_left] at h
  cases hm : s.cacheMode with
  | shared =>
    rw [hm] at h
    exact .inl ⟨rfl, h⟩
  | partition =>
    rw [hm] at h
    exact .inr ⟨rfl, h⟩

/-- The list in which a mode keeps a hash of a domain. -/
def CacheMode.home (d : Domid) (h : UInt32) : CacheMode → Loc
  | .shared => .bucket (bucketOf h)
  | .partition => .dom d

theorem CacheMode.home_mode (m : CacheMode) (d : Domid) (h : UInt32) : (m.home d h).mode = m := by
  cases m <;> rfl

/-- The list an operation of domain `d` on key `k` works on. -/
def State.home (s : State) (d : Domid) (k : GuestKey) : Loc := s.cacheMode.home d (getHash k.bytes)

theorem home_for {m : CacheMode} {s : Tiers} (hm : s.cfg.cacheMode = m) (d : Domid) (x : UInt32) :
    (m.home d x).For s d := by
  refine ⟨by rw [hm]; exact m.home_mode d x, ?_⟩
  cases m with
  | shared => exact .inr rfl
  | partition => exact .inl rfl

section
variable {c : Ctx} {d : Domid} {k : GuestKey} {r : Reply} {s t : State}

theorem home_shared (hm : s.cacheMode = .shared) :
    s.home d k = .bucket (bucketOf (getHash k.bytes)) := by
  unfold State.home
  rw [hm]
  rfl

theorem home_partition (hm : s.cacheMode = .partition) : s.home d k = .dom d := by
  unfold State.home
  rw [hm]
  rfl

theorem for_home (s : State) (d : Domid) (k : GuestKey) : (s.home d k).For s.tiers d :=
  home_for rfl d (getHash k.bytes)

theorem for_home_headers (hown : s.cacheMode = .partition → s.tiers.HeadersOwned) :
    ∀ mch ∈ s.headers (s.home d k), (s.home d k).For s.tiers mch.domain := by
  cases hm : s.cacheMode with
  | shared =>
    rw [home_shared hm]
    exact for_bucket_headers hm _
  | partition =>
    rw [home_partition hm]
    exact for_dom_headers hm (hown hm) d

theorem get_path {cap : UInt32} (hown : s.cacheMode = .partition → s.tiers.HeadersOwned)
    (h : Returns (mcdOp c (.get d k cap)) s r t) :
    GetPath c s (s.home d k) (getHash k.bytes) cap r t := by
  rcases mcdSubCall_spec h with ⟨hm, h⟩ | ⟨hm, h⟩
  · rw [home_shared hm]
    exact sMcdGet_path h
  · rw [home_partition hm]
    exact pMcdGet_path h hm (hown hm)

theorem get_gets {cap : UInt32} (hown : s.cacheMode = .partition → s.tiers.HeadersOwned)
    (h : Returns (mcdOp c (.get d k cap)) s r t) :
    Gets c s.tiers (s.home d k) (getHash k.bytes) cap r t.tiers :=
  (get_path hown h).gets (for_home_headers hown)

theorem remove_discards (h : Returns (mcdOp c (.remove d k)) s r t) :
    r = .code .errNo ∧ Discards s.tiers (s.home d k) (getHash k.bytes) t.tiers := by
  rcases mcdSubCall_spec h with ⟨hm, h⟩ | ⟨hm, h⟩
  · rw [home_shared hm]
    exact sMcdRemove_spec h
  · rw [home_partition hm]
    exact pMcdRemove_spec h

/-- A `put` first clears the way for the hash of the first read. In shared mode the entry it
replaces is discarded. -/
theorem put_path {v : GuestVal} (h : Returns (mcdOp c (.put d k v)) s r t) :
    ∃ ms u, Evacuates c s.tiers (s.home d k) (getHash k.bytes) u.tiers ∧
      (s.cacheMode = .shared → ∀ mh, findMcdHashT (getHash k.bytes) (s.entries (s.home d k)) =
        some mh → u.tiers = s.tiers.drop (s.home d k) mh) ∧
      (s.home d k).For u.tiers d ∧ Returns (putEntry c d k (s.home d k) v ms) u r t := by
  have hfor : ∀ {u : State} {loc : Loc}, Evacuates c s.tiers loc (getHash k.bytes) u.tiers →
      (s.home d k).For u.tiers d := by
    intro u loc hev
    exact home_for (congrArg (·.cacheMode) hev.cfg_eq) d (getHash k.bytes)
  rcases mcdSubCall_spec h with ⟨hm, h⟩ | ⟨hm, h⟩
  · obtain ⟨ms, u, hrep, hput⟩ := returns_bind.mp h
    obtain ⟨hev, hdrop⟩ := sMcdReplace_spec hrep
    have hloc := hfor hev
    rw [home_shared hm] at hloc ⊢
    exact ⟨ms, u, hev, fun _ => hdrop, hloc, hput⟩
  · obtain ⟨ms, u, hrep, hput⟩ := returns_bind.mp h
    have hev := pMcdReplace_spec hrep
    have hloc := hfor hev
    rw [home_partition hm] at hloc ⊢
    exact ⟨ms, u, hev, fun hs => absurd (hm.symm.trans hs) (by simp), hloc, hput⟩

/-- The code of a lookup: `s_mcd_check` drops the one it has computed. -/
def CacheMode.checkRc (found : Rc) : CacheMode → Rc
  | .shared => .errNo
  | .partition => found

/-- The ways through a lookup. -/
inductive CheckPath (c : Ctx) (d : Domid) (k : GuestKey) (s : State) (r : Reply) (t : State) : Prop
  | found (mh : McdHashT)
      (find : findMcdHashT (getHash k.bytes) (s.entries (s.home d k)) = some mh)
      (reply : r = { rc := s.cacheMode.checkRc .retGetMem, rValSize := some mh.valSize, val := none })
      (after : t = s)
  | absent (absent : findMcdHashT (getHash k.bytes) (s.entries (s.home d k)) = none)
      (mch : Option McdctlHashT)
      (find : mch = (s.headers (s.home d k)).find? (·.hash = getHash k.bytes))
      (adds : Returns (addMeasurement c d (s.home d k) k) s () t)
      (reply : r = { rc := s.cacheMode.checkRc (if mch.isSome then .retGetSsd else .errNo)
                     rValSize := some (checkSize none mch), val := none })

theorem check_path (h : Returns (mcdOp c (.check d k)) s r t) : CheckPath c d k s r t := by
  rcases mcdSubCall_spec h with ⟨hm, h⟩ | ⟨hm, h⟩
  · have hhome := home_shared (d := d) (k := k) hm
    simp only [sMcdCheck, returns_bind, returns_get, and_assoc, exists_and_left, exists_eq_left,
      ← hhome] at h
    cases hf : findMcdHashT (getHash k.bytes) (s.entries (s.home d k)) with
    | some mh =>
      rw [hf] at h
      obtain ⟨rfl, rfl⟩ := returns_pure.mp h
      exact .found mh hf (by rw [hm]; rfl) rfl
    | none =>
      rw [hf] at h
      simp only [returns_bind, returns_findMcdctlHashT, returns_pure, and_assoc, exists_and_left,
        exists_eq_left] at h
      obtain ⟨-, _, s₁, hadd, rfl, rfl⟩ := h
      exact .absent hf _ rfl hadd (by rw [hm]; rfl)
  · have hhome := home_partition (d := d) (k := k) hm
    simp only [pMcdCheck, returns_bind, returns_domOf, and_assoc, exists_and_left, exists_eq_left,
      ← hhome] at h
    obtain ⟨rec, hrec, h⟩ := h
    have hlist : s.entries (s.home d k) = rec.hashList := by
      rw [hhome]
      exact entries_of_find hrec
    rw [← hlist] at h
    cases hf : findMcdHashT (getHash k.bytes) (s.entries (s.home d k)) with
    | some mh =>
      rw [hf] at h
      obtain ⟨rfl, rfl⟩ := returns_pure.mp h
      exact .found mh hf (by rw [hm]; rfl) rfl
    | none =>
      rw [hf] at h
      simp only [returns_bind, returns_findMcdctlHashT, returns_pure, and_assoc, exists_and_left,
        exists_eq_left] at h
      obtain ⟨-, _, s₁, hadd, rfl, rfl⟩ := h
      exact .absent hf _ rfl hadd (by rw [hm]; rfl)

end

end UniCache.Mcd
