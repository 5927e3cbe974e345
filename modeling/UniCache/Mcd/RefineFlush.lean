import UniCache.Mcd.RefineOps

/-! Lookups and flushes over the tiers. -/
namespace UniCache.Mcd
open Base.Exec

section
variable {c : Ctx} {s t : State} {u : Unit}

theorem flushHeaders_spec {loc : Loc} {l : List McdctlHashT} (hs : s.Has loc)
    (h : Returns (flushHeaders loc l) s u t) : t.tiers = s.tiers.setHeaders loc [] := by
  induction l generalizing s with
  | nil =>
    rw [returns_modify.mp h]
    exact tiers_setHeaders hs []
  | cons mch l ih =>
    obtain ⟨_, s₁, hfree, h⟩ := returns_bind.mp h
    have hfreed := mcdctlFree_spec hfree hs
    have hlive : s₁.tiers.live = s.tiers.live := by
      rw [hfreed]
      by_cases ho : s.tiers.outsourcing
      · rw [if_pos ho]; rfl
      · rw [if_neg ho]
    rw [ih (has_of_live hlive hs) h, hfreed]
    by_cases ho : s.tiers.outsourcing
    · rw [if_pos ho]
      simp only [Tiers.setHeaders, Function.update_idem]
    · rw [if_neg ho]

theorem flushBuckets_spec {is : List Bucket} (h : Returns (flushBuckets is) s u t) :
    t.tiers = { s.tiers with
      headers := fun loc => match loc with
        | .bucket i => if i ∈ is then [] else s.headers (.bucket i)
        | .dom d => s.headers (.dom d) } := by
  induction is generalizing s with
  | nil =>
    rw [(returns_pure.mp h).2]
    ext1
    case headers =>
      funext loc
      cases loc <;> simp [State.tiers]
    all_goals rfl
  | cons i is ih =>
    simp only [flushBuckets, returns_bind, returns_get, and_assoc, exists_and_left,
      exists_eq_left] at h
    obtain ⟨_, s₁, h₁, h₂⟩ := h
    have hone := flushHeaders_spec (show s.Has (.bucket i) from trivial) h₁
    rw [ih h₂]
    have hhead : s₁.headers = Function.update s.headers (.bucket i) [] :=
      congrArg Tiers.headers hone
    rw [hone, hhead]
    ext1
    case headers =>
      funext loc
      cases loc with
      | bucket j =>
        by_cases hj : j = i
        · subst hj
          simp
        · simp [hj]
      | dom d => simp
    all_goals rfl

end

/-- No outsourced header is left in the shared buckets. -/
def Tiers.forgetShared (t : Tiers) (st : Store) : Tiers :=
  { t with
    headers := fun loc => match loc with
      | .bucket _ => []
      | .dom d => t.headers (.dom d)
    store := st }

theorem mcdctlFlush_spec {c : Ctx} {s t : State} {u : Unit} (h : Returns (mcdctlFlush c) s u t) :
    ∃ st, (st = s.store ∨ st = fun _ _ => none) ∧ t.tiers = s.tiers.forgetShared st := by
  simp only [mcdctlFlush, returns_bind, returns_modify] at h
  obtain ⟨_, s₁, h₁, _, s₂, h₂, rfl⟩ := h
  have hb := flushBuckets_spec h₁
  have hstep : s₁.tiers = s.tiers.forgetShared s.store := by
    rw [hb]
    ext1
    case headers =>
      funext loc
      cases loc <;> simp [Tiers.forgetShared, State.tiers]
    all_goals rfl
  have hexit : s₂.exitMcdctl.tiers = s₂.tiers := rfl
  rcases minfRequest_spec h₂ with h | h
  · exact ⟨s.store, .inl rfl, by rw [hexit, h, hstep]⟩
  · exact ⟨fun _ _ => none, .inr rfl, by rw [hexit, h, hstep]; rfl⟩

/-- Entries of the lists in `P` were removed. -/
def Removes (c : Ctx) (P : Loc → Prop) (s t : Tiers) : Prop := Clears c P s t 0

/-- Initialising a list that is empty changes nothing. -/
theorem tiers_setEntries_nil {s : State} {loc : Loc} (hs : s.Has loc) (he : s.entries loc = []) :
    (s.setEntries [] loc).tiers = s.tiers := by
  rw [tiers_setEntries hs, ← he, Function.update_eq_self]
  rfl

theorem sFlushEntries_spec {c : Ctx} {i : Bucket} {l : List McdHashT} {s t : State} {u : Unit}
    (hl : s.shared i = l) (h : Returns (sFlushEntries c i l) s u t) :
    Removes c IsBucket s.tiers t.tiers ∧ t.entries = Function.update s.entries (.bucket i) [] := by
  induction l generalizing s with
  | nil =>
    have he : s.entries (.bucket i) = [] := hl
    have hq := tiers_setEntries_nil (show s.Has (.bucket i) from trivial) he
    rw [returns_modify.mp h, hq]
    refine ⟨clears_refl _, ?_⟩
    have hent : (s.setEntries [] (.bucket i)).entries = s.entries := congrArg Tiers.entries hq
    rw [hent, ← he, Function.update_eq_self]
  | cons mh l ih =>
    obtain ⟨b, s₁, hrem, h⟩ := returns_bind.mp h
    obtain ⟨-, hr, -⟩ := sRemoveHashT_spec hrem (by rw [hl]; exact List.mem_cons_self)
    have hent : s₁.entries = Function.update s.entries (.bucket i) l := by
      have he := hr.entries_eq
      have hcons : s.tiers.entries (.bucket i) = mh :: l := hl
      rw [hcons, List.erase_cons_head] at he
      exact he
    have hl₁ : s₁.shared i = l := by
      have h := congrFun hent (.bucket i)
      rw [Function.update_self] at h
      exact h
    obtain ⟨hrest, he⟩ := ih hl₁ h
    have hone := (freed_one (P := IsBucket) (show IsBucket (.bucket i) from rfl) hr).clears.mono
      (Nat.zero_le _)
    exact ⟨hone.trans hrest, by rw [he, hent, Function.update_idem]⟩

theorem pFlushEntries_spec {c : Ctx} {id : Domid} {l : List McdHashT} {s t : State} {u : Unit}
    (hs : s.Has (.dom id)) (hl : s.entries (.dom id) = l)
    (h : Returns (pFlushEntries c id l) s u t) :
    Removes c IsDom s.tiers t.tiers ∧ t.entries = Function.update s.entries (.dom id) [] := by
  induction l generalizing s with
  | nil =>
    have hq := tiers_setEntries_nil hs hl
    rw [returns_modify.mp h, hq]
    refine ⟨clears_refl _, ?_⟩
    have hent : (s.setEntries [] (.dom id)).entries = s.entries := congrArg Tiers.entries hq
    rw [hent, ← hl, Function.update_eq_self]
  | cons mh l ih =>
    obtain ⟨b, s₁, hrem, h⟩ := returns_bind.mp h
    obtain ⟨-, hr, -⟩ := pRemoveHashT_spec hrem (by rw [hl]; exact List.mem_cons_self)
    have hent : s₁.entries = Function.update s.entries (.dom id) l := by
      have he := hr.entries_eq
      have hcons : s.tiers.entries (.dom id) = mh :: l := hl
      rw [hcons, List.erase_cons_head] at he
      exact he
    have hfreed := freed_one (P := IsDom) (show IsDom (.dom id) from rfl) hr
    have hone := hfreed.clears.mono (Nat.zero_le _)
    have hs₁ : s₁.Has (.dom id) := has_of_live (by obtain ⟨_, hR, -, -⟩ := hone; exact hR.live_eq) hs
    obtain ⟨hrest, he⟩ := ih hs₁ (by rw [hent, Function.update_self]) h
    exact ⟨hone.trans hrest, by rw [he, hent, Function.update_idem]⟩

theorem sFlushBuckets_spec {c : Ctx} {is : List Bucket} {s t : State} {u : Unit}
    (h : Returns (sFlushBuckets c is) s u t) :
    Removes c IsBucket s.tiers t.tiers ∧ ∀ i ∈ is, t.entries (.bucket i) = [] := by
  induction is generalizing s with
  | nil =>
    rw [(returns_pure.mp h).2]
    exact ⟨clears_refl _, by simp⟩
  | cons i is ih =>
    simp only [sFlushBuckets, returns_bind, returns_get, and_assoc, exists_and_left,
      exists_eq_left] at h
    obtain ⟨_, s₁, h₁, h₂⟩ := h
    obtain ⟨hone, he⟩ := sFlushEntries_spec rfl h₁
    obtain ⟨hrest, hall⟩ := ih h₂
    refine ⟨hone.trans hrest, fun j hj => ?_⟩
    rcases List.mem_cons.mp hj with rfl | hj
    · -- what is empty stays empty while the other buckets are flushed
      obtain ⟨_, hR, -, -⟩ := hrest
      have hsub := hR.entries_subset (.bucket j)
      have hempty : s₁.tiers.entries (.bucket j) = [] := by
        show s₁.entries (.bucket j) = []
        rw [he, Function.update_self]
      rw [hempty] at hsub
      exact List.subset_nil.mp hsub
    · exact hall j hj

/-- `s_mcd_flush` leaves nothing in the shared buckets, in memory or outsourced. -/
theorem sMcdFlush_spec {c : Ctx} {r : Reply} {s t : State} (h : Returns (sMcdFlush c) s r t) :
    r = .code .errNo ∧ ∃ u st, Removes c IsBucket s.tiers u ∧ (∀ i, u.entries (.bucket i) = []) ∧
      (st = u.store ∨ st = fun _ _ => none) ∧ t.tiers = u.forgetShared st := by
  simp only [sMcdFlush, returns_bind, returns_pure] at h
  obtain ⟨_, s₁, h₁, _, s₂, h₂, rfl, rfl⟩ := h
  obtain ⟨hrem, hall⟩ := sFlushBuckets_spec h₁
  obtain ⟨st, hst, ht⟩ := mcdctlFlush_spec h₂
  exact ⟨rfl, s₁.tiers, st, hrem, fun i => hall i (List.mem_finRange i), hst, ht⟩

/-- No outsourced header is left in a domain's list. -/
def Tiers.forgetDom (t : Tiers) (id : Domid) (st : Store) : Tiers :=
  { t.setHeaders (.dom id) [] with store := st }

/-- The parts of `p_mcd_flush`. -/
theorem pMcdFlush_inv {c : Ctx} {id : Domid} {r : Reply} {s t : State}
    (h : Returns (pMcdFlush c id) s r t) :
    r = .code .errNo ∧ ∃ d s₁ s₂, findMcdDom id s = some d ∧
      Returns (pFlushEntries c id d.hashList) s () s₁ ∧ s₁.Has (.dom id) ∧
      Returns (flushHeaders (.dom id) (s₁.headers (.dom id))) s₁ () s₂ ∧
      Returns (minfPageDomFlush c id) s₂ () t := by
  simp only [pMcdFlush, mcdctlDomFlush, returns_bind, returns_domOf, returns_get, returns_pure,
    and_assoc, exists_and_left, exists_eq_left] at h
  obtain ⟨d, hd, _, s₁, h₁, _, s₃, ⟨_, s₂, h₂, h₃⟩, rfl, rfl⟩ := h
  have hs : s.Has (.dom id) := by simp [State.Has, hd]
  obtain ⟨⟨_, hR, -, -⟩, -⟩ := pFlushEntries_spec hs (entries_of_find hd) h₁
  exact ⟨rfl, d, s₁, s₂, hd, h₁, has_of_live hR.live_eq hs, h₂, h₃⟩

/-- `p_mcd_flush` empties both of a domain's lists. -/
theorem pMcdFlush_spec {c : Ctx} {id : Domid} {r : Reply} {s t : State}
    (h : Returns (pMcdFlush c id) s r t) :
    r = .code .errNo ∧ ∃ u st, Removes c IsDom s.tiers u ∧
      u.entries = Function.update s.entries (.dom id) [] ∧
      (st = u.store ∨ st = fun d x => if d = id then none else u.store d x) ∧
      t.tiers = u.forgetDom id st := by
  obtain ⟨rfl, d, s₁, s₂, hd, h₁, hs₁, h₂, h₃⟩ := pMcdFlush_inv h
  have hs : s.Has (.dom id) := by simp [State.Has, hd]
  obtain ⟨hrem, he⟩ := pFlushEntries_spec hs (entries_of_find hd) h₁
  have hhead := flushHeaders_spec hs₁ h₂
  refine ⟨rfl, s₁.tiers, ?_⟩
  rcases minfRequest_spec h₃ with h | h
  · exact ⟨s₁.store, hrem, he, .inl rfl, by rw [h, hhead]; rfl⟩
  · exact ⟨_, hrem, he, .inr rfl, by rw [h, hhead]; rfl⟩

section
variable {c : Ctx} {d : Domid} {r : Reply} {s t : State}

theorem entries_after_drop {loc : Loc} {mh : McdHashT} {l : List McdHashT}
    (hl : s.entries loc = mh :: l) (ht : t.tiers = s.tiers.drop loc mh) : t.entries loc = l := by
  have hent : t.entries loc = (s.tiers.drop loc mh).entries loc := congrArg (·.entries loc) ht
  have hold : s.tiers.entries loc = mh :: l := hl
  simp only [Tiers.drop, Function.update_self, hold, List.erase_cons_head] at hent
  exact hent

/-- The walk of `p_mcd_flush` pages nothing out. -/
theorem pFlushEntries_keeps {l : List McdHashT} {u : Unit} (hs : s.Has (.dom d))
    (hl : s.entries (.dom d) = l) (h : Returns (pFlushEntries c d l) s u t) :
    t.tiers.headers = s.tiers.headers ∧ t.tiers.store = s.tiers.store := by
  induction l generalizing s with
  | nil =>
    rw [returns_modify.mp h, tiers_setEntries_nil hs hl]
    exact ⟨rfl, rfl⟩
  | cons mh l ih =>
    obtain ⟨b, s₁, hrem, h⟩ := returns_bind.mp h
    obtain ⟨-, -, hdrop⟩ := pRemoveHashT_spec hrem (by rw [hl]; exact List.mem_cons_self)
    have htiers := hdrop rfl
    have hs₁ : s₁.Has (.dom d) := has_of_live (by rw [htiers]; rfl) hs
    obtain ⟨hheads, hstore⟩ := ih hs₁ (entries_after_drop hl htiers) h
    rw [hheads, hstore, htiers]
    exact ⟨rfl, rfl⟩

/-- A domain's lists are empty and its files may be gone; all else is as it was. -/
structure Emptied (d : Domid) (s t : Tiers) : Prop where
  entries : t.entries = Function.update s.entries (.dom d) []
  headers : t.headers = Function.update s.headers (.dom d) []
  store : ∀ e ≠ d, t.store e = s.store e

theorem pMcdFlush_emptied (h : Returns (pMcdFlush c d) s r t) : Emptied d s.tiers t.tiers := by
  obtain ⟨-, rec, s₁, s₂, hd, h₁, hs₁, h₂, h₃⟩ := pMcdFlush_inv h
  have hs : s.Has (.dom d) := by simp [State.Has, hd]
  obtain ⟨hrem, he⟩ := pFlushEntries_spec hs (entries_of_find hd) h₁
  obtain ⟨hheads, hstore⟩ := pFlushEntries_keeps hs (entries_of_find hd) h₁
  have hflush := flushHeaders_spec hs₁ h₂
  have hent : s₁.tiers.entries = Function.update s.tiers.entries (.dom d) [] := he
  rcases minfRequest_spec h₃ with ht | ht
  · rw [ht, hflush]
    refine ⟨hent, ?_, fun e _ => congrFun hstore e⟩
    show Function.update s₁.tiers.headers (.dom d) [] = _
    rw [hheads]
  · rw [ht, hflush]
    refine ⟨hent, ?_, fun e hne => ?_⟩
    · show Function.update s₁.tiers.headers (.dom d) [] = _
      rw [hheads]
    · funext x
      show (if e = d then none else s₁.tiers.store e x) = s.tiers.store e x
      rw [if_neg hne, hstore]

/-- The list is one that `p_mcd_flush_all` flushes. -/
def Loc.GuestIn (ids : List Domid) (loc : Loc) : Prop := ∃ d ∈ ids, d ≠ 0 ∧ loc = .dom d

/-- `p_mcd_flush_all` empties the lists of the guests and touches no other. -/
theorem pMcdFlushAll_emptied {ids : List Domid} {u : Unit} (h : Returns (pMcdFlushAll c ids) s u t)
    (loc : Loc) :
    (loc.GuestIn ids → t.entries loc = [] ∧ t.headers loc = []) ∧
      (¬ loc.GuestIn ids → t.entries loc = s.entries loc ∧ t.headers loc = s.headers loc) := by
  induction ids generalizing s with
  | nil =>
    rw [returns_modify.mp h]
    constructor
    · rintro ⟨d, hd, -⟩
      cases hd
    · intro _
      exact ⟨rfl, rfl⟩
  | cons e ids ih =>
    unfold pMcdFlushAll at h
    have hmono : loc.GuestIn ids → loc.GuestIn (e :: ids) := by
      rintro ⟨d, hd, hloc⟩
      exact ⟨d, List.mem_cons_of_mem _ hd, hloc⟩
    by_cases hz : e = 0
    · rw [if_pos hz] at h
      obtain ⟨hgone, hkept⟩ := ih h
      constructor
      · rintro ⟨d, hd, hne, hloc⟩
        rcases List.mem_cons.mp hd with rfl | hd
        · exact absurd hz hne
        · exact hgone ⟨d, hd, hne, hloc⟩
      · intro hnot
        exact hkept fun hin => hnot (hmono hin)
    · rw [if_neg hz] at h
      obtain ⟨_, s₁, hone, hrest⟩ := returns_bind.mp h
      obtain ⟨hgone, hkept⟩ := ih hrest
      have hempt := pMcdFlush_emptied hone
      have hent : s₁.entries loc = Function.update s.entries (.dom e) [] loc :=
        congrFun hempt.entries loc
      have hhead : s₁.headers loc = Function.update s.headers (.dom e) [] loc :=
        congrFun hempt.headers loc
      by_cases hin : loc.GuestIn ids
      · exact ⟨fun _ => hgone hin, fun hnot => absurd (hmono hin) hnot⟩
      · obtain ⟨hte, hth⟩ := hkept hin
        rw [hte, hth, hent, hhead]
        by_cases hloc : loc = .dom e
        · rw [hloc, Function.update_self, Function.update_self]
          exact ⟨fun _ => ⟨rfl, rfl⟩, fun hnot => absurd ⟨e, List.mem_cons_self, hz, rfl⟩ hnot⟩
        · rw [Function.update_of_ne hloc, Function.update_of_ne hloc]
          refine ⟨?_, fun _ => ⟨rfl, rfl⟩⟩
          rintro ⟨d, hd, hne, rfl⟩
          rcases List.mem_cons.mp hd with rfl | hd
          · exact absurd rfl hloc
          · exact absurd ⟨d, hd, hne, rfl⟩ hin

end

end UniCache.Mcd
