import UniCache.Mcd.Returning

/-! What holds in every state of a run that names no domain it should not: each entry and each
header belongs to a domain that is listed, and behind each header there are bytes to fetch. -/
namespace UniCache.Mcd
open Base Base.Exec

/-- Whatever is found in a list can be used: its domain has a record, and what was or may be paged
out has a value. -/
structure Tiers.Fetchable (t : Tiers) : Prop where
  entries : ∀ loc, ∀ mh ∈ t.entries loc, mh.domain ∈ t.live ∧ (mh.flags = mcdHashTNormal → mh.valSize ≠ 0)
  headers : ∀ loc, ∀ mch ∈ t.headers loc, mch.domain ∈ t.live ∧ mch.valSize ≠ 0

section
variable {c : Ctx} {t u : Tiers} {loc : Loc} {mh : McdHashT} {d : Domid}

theorem Removal.fetchable (h : Removal c t loc mh u) (ht : t.Fetchable) : u.Fetchable := by
  cases h with
  | drop mem =>
    exact ⟨fun l x hx => ht.entries l x (entries_drop_subset t loc mh l hx), ht.headers⟩
  | evict mem normal on n read accepted page slot =>
    refine ⟨fun l x hx => ht.entries l x (entries_drop_subset t loc mh l hx), fun l mch hmch => ?_⟩
    rcases mem_of_update_append hmch with hold | ⟨-, rfl⟩
    · exact ht.headers l mch hold
    · obtain ⟨hlisted, hvalue⟩ := ht.entries loc mh mem
      exact ⟨hlisted, hvalue normal⟩

theorem Tiers.Fetchable.forget (ht : t.Fetchable) {headers : Loc → List McdctlHashT} (store : Store)
    (sub : ∀ loc, headers loc ⊆ t.headers loc) : Tiers.Fetchable { t with headers, store } :=
  ⟨ht.entries, fun l mch hmch => ht.headers l mch (sub l hmch)⟩

theorem Tiers.Fetchable.touch (ht : t.Fetchable) (loc : Loc) (mh : McdHashT) (now : Int) :
    (t.touch loc mh now).Fetchable := by
  refine ⟨fun l x hx => ?_, ht.headers⟩
  obtain ⟨y, hy, hsame⟩ := mem_entries_touch (f := fun m => (m.domain, m.flags, m.valSize)) rfl hx
  obtain ⟨hdomain, hflags, hvalSize⟩ : y.domain = x.domain ∧ y.flags = x.flags ∧
      y.valSize = x.valSize := by simpa using hsame
  obtain ⟨hlisted, hvalue⟩ := ht.entries l y hy
  rw [hdomain] at hlisted
  rw [hflags, hvalSize] at hvalue
  exact ⟨hlisted, hvalue⟩

theorem Tiers.Fetchable.release (ht : t.Fetchable) (h : Release c t u) : u.Fetchable := by
  cases h with
  | removal h => exact h.fetchable ht
  | touch loc mh now => exact ht.touch loc mh now
  | forget headers store sub => exact ht.forget store sub

theorem Tiers.Fetchable.releases (ht : t.Fetchable) (h : Releases c t u) : u.Fetchable :=
  h.induct (I := Tiers.Fetchable) (fun hstep hv => hv.release hstep) ht

theorem Tiers.Fetchable.upkeeps (ht : t.Fetchable) (h : Upkeeps c t u) : u.Fetchable := by
  induction h with
  | refl => exact ht
  | tail _ hstep ih =>
    cases hstep with
    | release h => exact ih.release h
    | configure cfg => exact ⟨ih.entries, ih.headers⟩
    | enrol fresh =>
      have hmore : ∀ {e : Domid} {l : List Domid} (d : Domid), e ∈ l → e ∈ l ++ [d] :=
        fun _ he => List.mem_append_left _ he
      exact ⟨fun l x hx => ⟨hmore _ (ih.entries l x hx).1, (ih.entries l x hx).2⟩,
        fun l mch hmch => ⟨hmore _ (ih.headers l mch hmch).1, (ih.headers l mch hmch).2⟩⟩

theorem Tiers.Fetchable.link (ht : t.Fetchable) (hlisted : mh.domain ∈ t.live)
    (hvalue : mh.flags = mcdHashTNormal → mh.valSize ≠ 0) : (t.link loc mh).Fetchable := by
  refine ⟨fun l x hx => ?_, ht.headers⟩
  rcases mem_entries_link hx with hold | ⟨-, rfl⟩
  · exact ht.entries l x hold
  · exact ⟨hlisted, hvalue⟩

theorem Adds.fetchable (h : Adds c t loc mh u) (ht : t.Fetchable)
    (hvalue : mh.flags = mcdHashTNormal → mh.valSize ≠ 0) : u.Fetchable := by
  obtain ⟨hlisted, w, hclears, -, rfl⟩ := h
  refine (ht.releases hclears.releases).link ?_ hvalue
  rw [hclears.live_eq]
  exact hlisted

/-- An entry without a value is marked as one. -/
theorem valSize_ne_zero_of_normal {flags : UInt16} {n : UInt32}
    (h : flags = if n = 0 then mcdHashTMeasurement else mcdHashTNormal)
    (hnormal : flags = mcdHashTNormal) : n ≠ 0 := by
  intro hn
  rw [if_pos hn, hnormal] at h
  exact absurd h (by decide)

theorem Loads.fetchable {mch : McdctlHashT} (h : Loads c t loc mch mh u) (ht : t.Fetchable) :
    u.Fetchable := by
  obtain ⟨hlisted, w, st, hclears, -, hfetched, rfl⟩ := h
  have hw : w.Fetchable := ht.releases hclears.releases
  have hless : Tiers.Fetchable { w.setHeaders loc ((w.headers loc).erase mch) with store := st } :=
    hw.releases (c := c) (releases_setHeaders st List.erase_subset)
  apply hless.link
  · show mh.domain ∈ w.live
    rw [hfetched.domain, hclears.live_eq]
    exact hlisted
  · rw [hfetched.valSize]
    exact valSize_ne_zero_of_normal hfetched.flags

theorem Tiers.Fetchable.retire (ht : t.Fetchable) (hfree : (t.retire d).Free d) :
    (t.retire d).Fetchable := by
  have hstill : ∀ {e : Domid}, e ∈ t.live → e ≠ d → e ∈ t.live.erase d :=
    fun he hne => (List.mem_erase_of_ne hne).mpr he
  refine ⟨fun l x hx => ?_, fun l mch hmch => ?_⟩
  · obtain ⟨hlisted, hvalue⟩ := ht.entries l x hx
    exact ⟨hstill hlisted (hfree.entries l x hx), hvalue⟩
  · obtain ⟨hlisted, hvalue⟩ := ht.headers l mch hmch
    exact ⟨hstill hlisted (hfree.headers l mch hmch), hvalue⟩

end

section
variable {c : Ctx} {s t : State} {d : Domid} {k : GuestKey} {r : Reply}

theorem get_fetchable {cap : UInt32} (hown : s.tiers.HeadersOwned) (hs : s.tiers.Fetchable)
    (h : Returns (mcdOp c (.get d k cap)) s r t) : t.tiers.Fetchable := by
  cases get_gets (fun _ => hown) h with
  | hit mh now _ _ after =>
    rw [after]
    exact hs.touch _ mh now
  | load mch mh u now _ _ _ loads _ after =>
    rw [after]
    exact (loads.fetchable hs).touch _ mh now
  | miss _ _ clears => exact hs.releases clears.releases

theorem put_fetchable {v : GuestVal} (hs : s.tiers.Fetchable)
    (h : Returns (mcdOp c (.put d k v)) s r t) : t.tiers.Fetchable := by
  obtain ⟨ms, u, hev, -, hloc, hput⟩ := put_path h
  have hu : u.tiers.Fetchable := hs.releases hev.releases
  rcases putEntry_spec hput hloc with ⟨-, hclears⟩ | ⟨mh, -, hholds, hadds⟩
  · exact hu.releases hclears.releases
  · refine hadds.fetchable hu ?_
    rw [hholds.valSize]
    exact valSize_ne_zero_of_normal hholds.flags

theorem check_fetchable (hs : s.tiers.Fetchable) (h : Returns (mcdOp c (.check d k)) s r t) :
    t.tiers.Fetchable := by
  cases check_path h with
  | found mh _ _ after =>
    rw [after]
    exact hs
  | absent _ _ _ adds _ =>
    rcases addMeasurement_spec adds (for_home s d k) with
      hclears | ⟨mh, -, hflags, -, -, -, -, -, hadds⟩
    · exact hs.releases hclears.releases
    · refine hadds.fetchable hs fun hnormal => ?_
      rw [hnormal] at hflags
      exact absurd hflags (by decide)

theorem flush_fetchable (hs : s.tiers.Fetchable) (h : Returns (mcdOp c (.flush d)) s r t) :
    t.tiers.Fetchable := by
  rcases mcdSubCall_spec h with ⟨-, h⟩ | ⟨-, h⟩
  · exact hs.releases (sMcdFlush_releases h)
  · exact hs.releases (pMcdFlush_releases h)

theorem destroy_fetchable (hs : s.tiers.Fetchable) (hnd : s.tiers.live.Nodup)
    (ho : s.tiers.EntriesOwned) (hh : s.tiers.HeadersOwned) (hfree : s.tiers.SharedFree d)
    (h : Returns (mcdOp c (.destroy d)) s r t) : t.tiers.Fetchable := by
  obtain ⟨u, hupkeep, -, -, ht⟩ := destroy_upkeeps hnd h
  have hgone : t.tiers.Free d := ((destroy_emptied hnd h).free_iff ho hh).mpr hfree
  rw [ht] at hgone ⊢
  exact (hs.upkeeps hupkeep).retire hgone

end

/-- The invariant of runs that name no domain they should not and release no page under a header. -/
structure State.Sane (s : State) : Prop where
  slab : s.slab.Inv
  counted : s.tiers.Counted
  entriesOwned : s.tiers.EntriesOwned
  fetchable : s.tiers.Fetchable

/-- What keeps the invariant. -/
structure Call.Orderly (y : System) (a : Call) : Prop where
  unlinks : Call.Unlinks y a
  tidy : Call.Tidy y a

section
variable {c : Ctx} {s t : State} {y z : System} {a : Call} {r : Reply}

theorem State.Sane.navigable (h : s.Sane) : s.Navigable where
  intact loc := by
    rw [intact_iff]
    intro mch hmch
    exact h.slab.lists_pages loc mch.block (List.mem_map_of_mem hmch)
  owned i mh hmh := (h.fetchable.entries (.bucket i) mh hmh).1

theorem mcdOp_fetchable {cmd : Cmd} (h : s.Sane) (hfresh : cmd.Fresh s)
    (hfree : ∀ d, cmd = .destroy d → s.tiers.SharedFree d) (hop : Returns (mcdOp c cmd) s r t) :
    t.tiers.Fetchable := by
  have hs := h.fetchable
  cases cmd with
  | get d k cap => exact get_fetchable h.counted.headersOwned hs hop
  | put d k v => exact put_fetchable hs hop
  | remove d k => exact hs.releases (c := c) (remove_discards hop).2.releases
  | check d k => exact check_fetchable hs hop
  | getsize d k => exact check_fetchable (c := c) (d := d) (k := k) hs hop
  | flush d => exact flush_fetchable hs hop
  | destroy d =>
    exact destroy_fetchable hs h.counted.live h.entriesOwned h.counted.headersOwned (hfree d rfl) hop
  | memsize | weight | cacheMode | param | create | enable | disable =>
    refine hs.upkeeps (control_upkeeps ?_ hfresh ?_ hop) <;> exact id

/-- An orderly call keeps the invariant. -/
theorem call_sane (h : y.mcd.Sane) (hord : Call.Orderly y a) (hcall : y.call a = .ok (r, z)) :
    z.mcd.Sane := by
  obtain ⟨⟨hfresh, hunlinks⟩, -, hfree⟩ := hord
  obtain ⟨t, hop, hslab⟩ := call_slab hcall
  obtain ⟨t', hop', htiers, -⟩ := call_spec hcall
  refine ⟨?_, call_counted h.counted hfresh hcall,
    call_entriesOwned h.counted h.entriesOwned hfresh hcall, ?_⟩
  · rw [hslab]
    exact (mcdOp_sound_iff h.slab h.counted.live hfresh hop).2 hunlinks
  · rw [htiers]
    exact mcdOp_fetchable h hfresh hfree hop'

theorem sane_start : System.start.mcd.Sane where
  slab := (run_slab_inv (.nil _)).1
  counted := counted_start
  entriesOwned := charged_start.owned
  fetchable := by
    refine ⟨fun loc mh hmh => ?_, fun loc mch hmch => ?_⟩
    · cases loc <;> cases hmh
    · cases loc <;> cases hmch

end

end UniCache.Mcd
