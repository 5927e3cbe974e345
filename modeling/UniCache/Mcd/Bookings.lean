import UniCache.Mcd.Books

/-! Every hypercall as a sequence of bookings. -/
namespace UniCache.Mcd
open Base Base.Exec

/-- Bookings that leave the list of domains, the weights and the recovery costs alone. -/
def Booking.Plain : Booking → Prop
  | .strike .. | .enter .. | .touch .. | .chart _ | .tune .. => True
  | _ => False

/-- An entry is linked where its domain pays for it. -/
def Booking.Owned : Booking → Prop
  | .enter loc mh => loc.payer mh = mh.domain
  | _ => True

/-- From `s` to `t` only plain bookings were made, under `P` only owned ones. -/
def Plainly (P : Prop) (s t : State) : Prop :=
  ∃ l, (∀ e ∈ l, e.Plain ∧ (P → e.Owned)) ∧ Booked s.books l t.books

/-- Entries were removed, and nothing else was booked. -/
def Strikes (s t : State) : Prop :=
  ∃ l : List (Loc × McdHashT), Booked s.books (l.map fun x => .strike x.1 x.2) t.books

/-- What no booking of a kind changes. -/
theorem Booked.keeps {β : Type} {f : Books → β} {Q : Booking → Prop}
    (hf : ∀ b e, Q e → f (b.book e) = f b) {b c : Books} {l : List Booking} (h : Booked b l c)
    (hl : ∀ e ∈ l, Q e) : f c = f b := by
  induction h with
  | nil => rfl
  | cons hstep _ ih =>
    rw [ih fun e he => hl e (List.mem_cons_of_mem _ he), hstep.2]
    exact hf _ _ (hl _ List.mem_cons_self)

section
variable {P : Prop} {s t u : State} {e : Booking}

theorem strikes_of_eq (h : t.books = s.books) : Strikes s t :=
  ⟨[], by rw [h]; exact .nil _⟩

theorem Strikes.trans (h₁ : Strikes s t) (h₂ : Strikes t u) : Strikes s u := by
  obtain ⟨l, hl⟩ := h₁
  obtain ⟨m, hm⟩ := h₂
  refine ⟨l ++ m, ?_⟩
  rw [List.map_append]
  exact hl.append hm

theorem strikes_one {loc : Loc} {mh : McdHashT} (hm : mh ∈ s.entries loc)
    (h : t.books = s.books.book (.strike loc mh)) : Strikes s t :=
  ⟨[(loc, mh)], .cons ⟨hm, h⟩ (.nil _)⟩

theorem Strikes.keeps {β : Type} {f : Books → β}
    (hf : ∀ b loc mh, f (b.book (.strike loc mh)) = f b) (h : Strikes s t) :
    f t.books = f s.books := by
  obtain ⟨l, hl⟩ := h
  refine Booked.keeps (Q := fun e => ∃ loc mh, e = .strike loc mh) ?_ hl ?_
  · rintro b e ⟨loc, mh, rfl⟩
    exact hf b loc mh
  · intro e he
    obtain ⟨x, -, rfl⟩ := List.mem_map.mp he
    exact ⟨x.1, x.2, rfl⟩

theorem passive_strikes : Passive Strikes where
  refl _ := strikes_of_eq rfl
  trans h₁ h₂ := h₁.trans h₂
  bump _ := strikes_of_eq rfl
  addr _ _ := strikes_of_eq rfl
  usage total id s := strikes_of_eq (passive_books.usage total id s)

theorem KeepsBooks.strikes {α : Type} {x : M α} (h : KeepsBooks x) : Within Strikes x :=
  fun s a t hret => strikes_of_eq (h s a t hret)

theorem Strikes.plainly (h : Strikes s t) : Plainly P s t := by
  obtain ⟨l, hl⟩ := h
  refine ⟨_, fun e he => ?_, hl⟩
  obtain ⟨x, -, rfl⟩ := List.mem_map.mp he
  exact ⟨trivial, fun _ => trivial⟩

theorem Plainly.trans (h₁ : Plainly P s t) (h₂ : Plainly P t u) : Plainly P s u := by
  obtain ⟨l, hl, hb⟩ := h₁
  obtain ⟨m, hm, hc⟩ := h₂
  refine ⟨l ++ m, fun e he => ?_, hb.append hc⟩
  rcases List.mem_append.mp he with he | he
  · exact hl e he
  · exact hm e he

theorem plainly_of_eq (h : t.books = s.books) : Plainly P s t := (strikes_of_eq h).plainly

theorem plainly_one (hp : e.Plain) (ho : P → e.Owned) (ha : e.Allowed s.books)
    (h : t.books = s.books.book e) : Plainly P s t := by
  refine ⟨[e], fun x hx => ?_, .cons ⟨ha, h⟩ (.nil _)⟩
  rw [List.mem_singleton.mp hx]
  exact ⟨hp, ho⟩

/-- What every plain booking keeps. -/
theorem Plainly.invariant {I : Books → Prop}
    (keeps : ∀ {b e}, e.Plain → (P → e.Owned) → e.Allowed b → I b → I (b.book e))
    (h : Plainly P s t) (hs : I s.books) : I t.books := by
  obtain ⟨l, hl, hb⟩ := h
  have hrun : ∀ {b c : Books} {l : List Booking}, Booked b l c →
      (∀ e ∈ l, e.Plain ∧ (P → e.Owned)) → I b → I c := by
    intro b c l hb hl hs
    induction hb with
    | nil => exact hs
    | cons hstep _ ih =>
      obtain ⟨hplain, howned⟩ := hl _ List.mem_cons_self
      apply ih fun e he => hl e (List.mem_cons_of_mem _ he)
      rw [hstep.2]
      exact keeps hplain howned hstep.1 hs
  exact hrun hb hl hs

/-! ### The domains listed -/

theorem isSome_setStat (a : Aside) (d e : Domid) (f : KeyStat → KeyStat) :
    ((a.setStat d f).stats e).isSome = (a.stats e).isSome := by
  by_cases he : e = d
  · rw [he]
    simp [Aside.setStat]
  · simp [Aside.setStat, Function.update_of_ne he]

theorem isSome_stats_of_plain (hp : e.Plain) (b : Books) (d : Domid) :
    ((b.book e).aside.stats d).isSome = (b.aside.stats d).isSome := by
  cases e with
  | strike loc mh => exact isSome_setStat b.aside _ d _
  | enter loc mh => exact isSome_setStat b.aside _ d _
  | touch | chart | tune => rfl
  | record | weigh | enrol | retire => exact hp.elim

theorem isSome_stats {d : Domid} : (s.aside.stats d).isSome = (findMcdDom d s).isSome :=
  Option.isSome_map

theorem Plainly.listed (h : Plainly P s t) (d : Domid) :
    (findMcdDom d t).isSome = (findMcdDom d s).isSome := by
  obtain ⟨l, hl, hb⟩ := h
  rw [← isSome_stats, ← isSome_stats]
  exact Booked.keeps (f := fun b => (b.aside.stats d).isSome)
    (fun b e he => isSome_stats_of_plain he b d) hb fun e he => (hl e he).1

theorem Plainly.has {loc : Loc} (h : Plainly P s t) (hs : s.Has loc) : t.Has loc := by
  cases loc with
  | bucket i => trivial
  | dom d =>
    show (findMcdDom d t).isSome
    rw [h.listed]
    exact hs

theorem Strikes.has {loc : Loc} (h : Strikes s t) (hs : s.Has loc) : t.Has loc :=
  (h.plainly (P := True)).has hs

end

/-! ### Removals -/

section
variable {c : Ctx} {id : Domid} {s t : State}

theorem Stripped.strikes (h : Stripped c s t) : Strikes s t := by
  refine h.induct passive_strikes.refl passive_strikes.trans fun hstep => ?_
  cases hstep with
  | bump => exact passive_strikes.bump _
  | addr _ n => exact passive_strikes.addr _ n
  | usage total id => exact passive_strikes.usage total id _
  | bucket mem removal => exact strikes_one mem (sRemoveHashT_books removal)
  | dom mem removal => exact strikes_one mem (pRemoveHashT_books removal)

theorem cacheFree_strikes (amount : UInt64) (id : Domid) : Within Strikes (cacheFree c amount id) :=
  fun _ _ _ h => (cacheFree_stripped amount id _ _ _ h).strikes

/-- A walk that removes every entry; the list head it initialises at the end is that of an empty
list. -/
theorem pFlushEntries_strikes {l : List McdHashT} {u : Unit}
    (h : Returns (pFlushEntries c id l) s u t) (hs : s.Has (.dom id))
    (hl : s.entries (.dom id) = l) : Strikes s t := by
  induction l generalizing s with
  | nil =>
    rw [returns_modify.mp h]
    apply strikes_of_eq
    rw [books_setEntries hs, Books.setEntries, ← hl]
    exact congrArg (fun e => Books.mk e s.aside) (Function.update_eq_self (Loc.dom id) s.entries)
  | cons mh l ih =>
    obtain ⟨b, s₁, hrem, h⟩ := returns_bind.mp h
    have hbooks := pRemoveHashT_books hrem
    have hone : Strikes s s₁ := strikes_one (by rw [hl]; exact List.mem_cons_self) hbooks
    have hrest : s₁.entries (.dom id) = l := by
      have he := congrFun (congrArg Books.entries hbooks) (.dom id)
      have hupd : s₁.entries (.dom id) = (s.entries (.dom id)).erase mh :=
        he.trans (Function.update_self ..)
      rw [hupd, hl, List.erase_cons_head]
    exact hone.trans (ih h (hone.has hs) hrest)

theorem sFlushEntries_strikes {i : Bucket} {l : List McdHashT} {u : Unit}
    (h : Returns (sFlushEntries c i l) s u t) (hl : s.shared i = l) : Strikes s t := by
  induction l generalizing s with
  | nil =>
    rw [returns_modify.mp h]
    apply strikes_of_eq
    have hs : s.Has (.bucket i) := trivial
    rw [books_setEntries hs, Books.setEntries, ← hl]
    exact congrArg (fun e => Books.mk e s.aside) (Function.update_eq_self (Loc.bucket i) s.entries)
  | cons mh l ih =>
    obtain ⟨b, s₁, hrem, h⟩ := returns_bind.mp h
    have hbooks := sRemoveHashT_books hrem
    have hmem : mh ∈ s.entries (.bucket i) := by
      show mh ∈ s.shared i
      rw [hl]
      exact List.mem_cons_self
    have hrest : s₁.shared i = l := by
      have he := congrFun (congrArg Books.entries hbooks) (.bucket i)
      have hupd : s₁.shared i = (s.shared i).erase mh := he.trans (Function.update_self ..)
      rw [hupd, hl, List.erase_cons_head]
    exact (strikes_one hmem hbooks).trans (ih h hrest)

theorem pMcdFlush_strikes : Within Strikes (pMcdFlush c id) := by
  intro s r t h
  simp only [pMcdFlush, returns_bind, returns_domOf, returns_pure, and_assoc, exists_and_left,
    exists_eq_left] at h
  obtain ⟨d, hd, _, s₁, hentries, _, s₂, hheaders, -, rfl⟩ := h
  have hs : s.Has (.dom id) := by
    show (findMcdDom id s).isSome
    rw [hd]
    rfl
  have hflush := pFlushEntries_strikes hentries hs (entries_of_find hd)
  exact hflush.trans (KeepsBooks.mcdctlDomFlush.strikes _ _ _ hheaders)

theorem sMcdFlush_strikes : Within Strikes (sMcdFlush c) := by
  have hsweep : ∀ is, Within Strikes (sFlushBuckets c is) := by
    intro is
    induction is with
    | nil => exact passive_strikes.pure _
    | cons i is ih =>
      intro s u t h
      simp only [sFlushBuckets, returns_bind, returns_get, and_assoc, exists_and_left,
        exists_eq_left] at h
      obtain ⟨_, s₁, hfirst, hrest⟩ := h
      exact (sFlushEntries_strikes hfirst rfl).trans (ih _ _ _ hrest)
  apply passive_strikes.bind (hsweep _)
  intro _
  exact passive_strikes.bind KeepsBooks.mcdctlFlush.strikes fun _ => passive_strikes.pure _

theorem pMcdFlushAll_strikes (ids : List Domid) : Within Strikes (pMcdFlushAll c ids) := by
  induction ids with
  | nil => exact .of_modify fun _ => strikes_of_eq rfl
  | cons id ids ih => exact .ite ih (passive_strikes.bind pMcdFlush_strikes fun _ => ih)

theorem remove_strikes {k : GuestKey} : Within Strikes (mcdOp c (.remove id k)) := by
  intro s r t h
  rcases mcdSubCall_spec h with ⟨-, h⟩ | ⟨-, h⟩
  · simp only [sMcdRemove, returns_bind, returns_get, and_assoc, exists_and_left,
      exists_eq_left] at h
    cases hf : findMcdHashT (getHash k.bytes) (s.shared (bucketOf (getHash k.bytes))) with
    | some mh =>
      rw [hf] at h
      obtain ⟨b, s₁, hrem, h⟩ := returns_bind.mp h
      rw [(returns_pure.mp h).2]
      exact strikes_one (findMcdHashT_mem hf).1 (sRemoveHashT_books hrem)
    | none =>
      rw [hf] at h
      obtain ⟨_, s₁, hdrop, h⟩ := returns_bind.mp h
      rw [(returns_pure.mp h).2]
      exact KeepsBooks.dropOutsourced.strikes _ _ _ hdrop
  · simp only [pMcdRemove, returns_bind, returns_domOf, and_assoc, exists_and_left,
      exists_eq_left] at h
    obtain ⟨d, hd, h⟩ := h
    rw [← entries_of_find hd] at h
    cases hf : findMcdHashT (getHash k.bytes) (s.entries (.dom id)) with
    | some mh =>
      rw [hf] at h
      obtain ⟨b, s₁, hrem, h⟩ := returns_bind.mp h
      rw [(returns_pure.mp h).2]
      exact strikes_one (findMcdHashT_mem hf).1 (pRemoveHashT_books hrem)
    | none =>
      rw [hf] at h
      obtain ⟨_, s₁, hdrop, h⟩ := returns_bind.mp h
      rw [(returns_pure.mp h).2]
      exact KeepsBooks.dropOutsourced.strikes _ _ _ hdrop

end

/-! ### The guest operations -/

section
variable {P : Prop} {c : Ctx} {id : Domid} {loc : Loc} {k : GuestKey} {r : Reply} {s t : State}

theorem addMeasurement_plainly {x : Unit} (hloc : loc.For s.tiers id)
    (h : Returns (addMeasurement c id loc k) s x t) : Plainly P s t := by
  obtain ⟨o, s₁, hcreate, h⟩ := returns_bind.mp h
  rcases createMcdHashT_books hcreate with
    ⟨rfl, hst⟩ | ⟨u, addr, now, stale, hst, rfl, hu, hs₁, hbooks⟩
  · rw [(returns_pure.mp h).2]
    exact hst.strikes.plainly
  · rw [returns_modify.mp h]
    generalize hmh : ({ (freshHashT addr id k.size 0 now stale).fill k ⟨0, [], rfl⟩ with
      hash := getHash k.bytes } : McdHashT) = mh
    have hdom : mh.domain = id := by rw [← hmh]; rfl
    have hms : mh.queryTimeMs = 0 := by rw [← hmh]; rfl
    have hval : mh.valSize = 0 := by rw [← hmh]; rfl
    have hpayer : loc.payer mh = mh.domain := by rw [hloc.payer_eq hdom, hdom]
    rw [← isSome_stats, ← hdom] at hu
    apply hst.strikes.plainly.trans
    refine plainly_one (e := .enter loc mh) trivial (fun _ => hpayer) ⟨hu, hms⟩ ?_
    rw [listAddTail_books (hloc.has hs₁), hbooks, ← hdom, ← hval]
    rfl

/-- The second half of both `put`s: a reclaim, then the entry is recorded unless there was no room. -/
theorem putEntry_booked {v : GuestVal} {ms : UInt32} (hloc : loc.For s.tiers id)
    (h : Returns (putEntry c id k loc v ms) s r t) :
    (r.rc = .errMcdFault ∧ Strikes s t) ∨ (r.rc = .errNo ∧ ∃ u mh, Strikes s u ∧
      (Booking.record loc mh).Allowed u.books ∧ mh.domain = id ∧ mh.queryTimeMs = ms ∧
      mh.valSize = v.size ∧ t.books = u.books.book (.record loc mh)) := by
  obtain ⟨o, s₁, hcreate, h⟩ := returns_bind.mp h
  obtain ⟨o', s₂, hraw, hfill⟩ := returns_bind.mp hcreate
  rcases createMcdHashT_books hraw with
    ⟨rfl, hst⟩ | ⟨u, addr, now, stale, hst, rfl, hu, hs₁, hbooks⟩
  · obtain ⟨rfl, rfl⟩ := returns_pure.mp hfill
    obtain ⟨rfl, rfl⟩ := returns_pure.mp h
    exact .inl ⟨rfl, hst.strikes⟩
  · obtain ⟨rfl, rfl⟩ := returns_pure.mp hfill
    obtain ⟨mh, s₃, hset, h⟩ := returns_bind.mp h
    have hbill := setQueryTime_books hset
    obtain ⟨rfl, -, hhas⟩ := setQueryTime_spec hset
    simp only [returns_bind, returns_modify, returns_pure, exists_and_left, exists_eq_left,
      exists_const] at h
    obtain ⟨rfl, rfl⟩ := h
    have he : s₁.entries = u.entries := congrArg Books.entries hbooks
    have ha : s₁.aside = u.aside.charge id v.size := congrArg Books.aside hbooks
    have htail := fun mh => listAddTail_books (hhas loc (hloc.has hs₁)) mh
    rw [hbill, he, ha] at htail
    generalize hmh : ({ (freshHashT addr id k.size v.size now stale).fill k v with
      queryTimeMs := ms } : McdHashT) = mh
    have hdom : mh.domain = id := by rw [← hmh]; rfl
    have hms : mh.queryTimeMs = ms := by rw [← hmh]
    have hval : mh.valSize = v.size := by rw [← hmh]; rfl
    have hpayer : loc.payer mh = mh.domain := by rw [hloc.payer_eq hdom, hdom]
    rw [← isSome_stats, ← hdom] at hu
    refine .inr ⟨rfl, u, mh, hst.strikes, ⟨hpayer, hu⟩, hdom, hms, hval, ?_⟩
    rw [htail mh, ← hdom, ← hms, ← hval]
    rfl

/-- A page-in: a reclaim, then the entry is counted; its caller links it. -/
theorem mcdPageIn_booked {mch : McdctlHashT} {o : Option McdHashT}
    (h : Returns (mcdPageIn c loc mch) s o t) :
    (o = none ∧ Strikes s t) ∨ ∃ mh u, o = some mh ∧ Strikes s u ∧
      (Booking.enter loc mh).Allowed u.books ∧ mh.domain = mch.domain ∧
      (∀ l : Loc, u.Has l → t.Has l) ∧
      t.books = ⟨u.entries, u.aside.charge mh.domain mh.valSize⟩ := by
  simp only [mcdPageIn, returns_bind, returns_get, and_assoc, exists_and_left,
    exists_eq_left] at h
  by_cases ho : s.outsourcing
  · rw [if_neg (not_not_intro ho)] at h
    obtain ⟨o', s₁, hcreate, h⟩ := returns_bind.mp h
    rcases createMcdHashT_books hcreate with
      ⟨rfl, hst⟩ | ⟨u, addr, now, stale, hst, rfl, hu, hs₁, hbooks⟩
    · obtain ⟨rfl, rfl⟩ := returns_pure.mp h
      exact .inl ⟨rfl, hst.strikes⟩
    · obtain ⟨mh, s₂, htr, h⟩ := returns_bind.mp h
      have hkeep₂ := KeepsBooks.transferIn _ _ _ htr
      obtain ⟨got, store, -, rfl, -⟩ := transferIn_cases htr
      by_cases hflag : ((freshHashT addr mch.domain mch.keySize mch.valSize now stale).receive
          mch.hash got (c.stale (s₁.tick + 1))).flags &&& mcdMinfError ≠ 0
      · rw [if_pos hflag] at h
        exact (returns_throw.mp h).elim
      · rw [if_neg hflag] at h
        obtain ⟨_, s₃, hfree, h⟩ := returns_bind.mp h
        obtain ⟨rfl, rfl⟩ := returns_pure.mp h
        have hkeep₃ := KeepsBooks.mcdctlFree _ _ _ hfree
        have htb : t.books = ⟨u.entries, u.aside.charge mch.domain mch.valSize⟩ := by
          rw [hkeep₃, hkeep₂, hbooks]
        rw [← isSome_stats] at hu
        refine .inr ⟨_, u, rfl, hst.strikes, ⟨hu, rfl⟩, rfl, fun l hl => ?_, htb⟩
        cases l with
        | bucket i => trivial
        | dom d =>
          show (findMcdDom d t).isSome
          have ha : t.aside = u.aside.charge mch.domain mch.valSize := congrArg Books.aside htb
          rw [← isSome_stats, ha]
          have hl' : (findMcdDom d u).isSome := hl
          rw [← isSome_stats] at hl'
          exact (isSome_setStat u.aside _ d _).trans hl'
  · rw [if_pos ho] at h
    obtain ⟨rfl, rfl⟩ := returns_pure.mp h
    exact .inl ⟨rfl, strikes_of_eq rfl⟩

theorem deliver_books {mh : McdHashT} {cap : UInt32} {rc : Rc} (hs : s.Has loc)
    (h : Returns (deliver c loc mh cap rc) s r t) :
    t.books = s.books.book (.touch loc mh (c.now s.tick)) := by
  have hs' : s.bump.Has loc := by cases loc <;> exact hs
  rw [(deliver_eq h).2]
  exact books_setEntries hs' _

theorem noteAccess_books {mh : McdHashT} {x : Unit} (h : Returns (noteAccess c mh) s x t) :
    t.books = s.books.book (.chart (.reaccess (c.now s.tick - mh.putTime))) := by
  simp only [noteAccess, readNow, returns_bind, returns_reading, returns_modify, and_assoc,
    exists_and_left, exists_eq_left] at h
  rw [h]
  rfl

/-- The query time a `put` computes: the age of the entry it replaces. -/
def State.queryTime (s : State) (c : Ctx) (d : Domid) (k : GuestKey) : UInt32 :=
  match findMcdHashT (getHash k.bytes) (s.entries (s.home d k)) with
  | some mh => nsToMs (c.now s.tick - mh.putTime)
  | none => 0

/-- The first half of `s_mcd_put`. -/
theorem sMcdReplace_books {hash ms : UInt32} (h : Returns (sMcdReplace c hash) s ms t) :
    (∃ mh, findMcdHashT hash (s.shared (bucketOf hash)) = some mh ∧
      ms = nsToMs (c.now s.tick - mh.putTime) ∧
      t.books = (s.books.book (.chart (.query (c.now s.tick - mh.putTime)))).book
        (.strike (.bucket (bucketOf hash)) mh)) ∨
    findMcdHashT hash (s.shared (bucketOf hash)) = none ∧ ms = 0 ∧ t.books = s.books := by
  simp only [sMcdReplace, returns_bind, returns_get, and_assoc, exists_and_left,
    exists_eq_left] at h
  cases hf : findMcdHashT hash (s.shared (bucketOf hash)) with
  | some mh =>
    rw [hf] at h
    simp only [readNow, returns_bind, returns_reading, returns_modify, returns_pure, and_assoc,
      exists_and_left, exists_eq_left, exists_const] at h
    obtain ⟨b, s₁, hrem, rfl, rfl⟩ := h
    refine .inl ⟨mh, rfl, rfl, ?_⟩
    have hbooks := sRemoveHashT_books hrem
    exact hbooks
  | none =>
    rw [hf] at h
    obtain ⟨_, s₁, hdrop, h⟩ := returns_bind.mp h
    obtain ⟨rfl, rfl⟩ := returns_pure.mp h
    have hkeep := KeepsBooks.dropOutsourced _ _ _ hdrop
    exact .inr ⟨rfl, rfl, hkeep⟩

/-- The first half of `p_mcd_put`. -/
theorem pMcdReplace_books {hash ms : UInt32} (h : Returns (pMcdReplace c id hash) s ms t) :
    (∃ mh, findMcdHashT hash (s.entries (.dom id)) = some mh ∧
      ms = nsToMs (c.now s.tick - mh.putTime) ∧ t.books = s.books.book (.strike (.dom id) mh)) ∨
    findMcdHashT hash (s.entries (.dom id)) = none ∧ ms = 0 ∧ t.books = s.books := by
  simp only [pMcdReplace, returns_bind, returns_domOf, and_assoc, exists_and_left,
    exists_eq_left] at h
  obtain ⟨d, hd, h⟩ := h
  rw [← entries_of_find hd] at h
  cases hf : findMcdHashT hash (s.entries (.dom id)) with
  | some mh =>
    rw [hf] at h
    simp only [readNow, returns_bind, returns_reading, returns_pure, and_assoc, exists_and_left,
      exists_eq_left] at h
    obtain ⟨b, s₁, hrem, rfl, rfl⟩ := h
    have hbooks := pRemoveHashT_books hrem
    exact .inl ⟨mh, rfl, rfl, hbooks⟩
  | none =>
    rw [hf] at h
    obtain ⟨_, s₁, hdrop, h⟩ := returns_bind.mp h
    obtain ⟨rfl, rfl⟩ := returns_pure.mp h
    have hkeep := KeepsBooks.dropOutsourced _ _ _ hdrop
    exact .inr ⟨rfl, rfl, hkeep⟩

/-- The first half of both `put`s. -/
theorem put_replaces {v : GuestVal} (h : Returns (mcdOp c (.put id k v)) s r t) :
    ∃ u, Plainly P s u ∧ (s.home id k).For u.tiers id ∧
      Returns (putEntry c id k (s.home id k) v (s.queryTime c id k)) u r t := by
  rcases mcdSubCall_spec h with ⟨hm, h⟩ | ⟨hm, h⟩
  · obtain ⟨ms, u, hrep, hput⟩ := returns_bind.mp h
    have hloc : (s.home id k).For u.tiers id :=
      home_for (congrArg (·.cacheMode) (sMcdReplace_spec hrep).1.cfg_eq) id (getHash k.bytes)
    rw [State.queryTime]
    rw [home_shared hm] at hloc ⊢
    rcases sMcdReplace_books hrep with ⟨mh, hf, rfl, hbooks⟩ | ⟨hf, rfl, hbooks⟩
    · have hf' : findMcdHashT (getHash k.bytes)
          (s.entries (.bucket (bucketOf (getHash k.bytes)))) = some mh := hf
      rw [hf']
      refine ⟨u, ⟨[.chart (.query (c.now s.tick - mh.putTime)),
        .strike (.bucket (bucketOf (getHash k.bytes))) mh], ?_, ?_⟩, hloc, hput⟩
      · simp [Booking.Plain, Booking.Owned]
      · exact .cons ⟨trivial, rfl⟩ (.cons ⟨(findMcdHashT_mem hf).1, hbooks⟩ (.nil _))
    · have hf' : findMcdHashT (getHash k.bytes)
          (s.entries (.bucket (bucketOf (getHash k.bytes)))) = none := hf
      rw [hf']
      exact ⟨u, plainly_of_eq hbooks, hloc, hput⟩
  · obtain ⟨ms, u, hrep, hput⟩ := returns_bind.mp h
    have hloc : (s.home id k).For u.tiers id :=
      home_for (congrArg (·.cacheMode) (pMcdReplace_spec hrep).cfg_eq) id (getHash k.bytes)
    rw [State.queryTime]
    rw [home_partition hm] at hloc ⊢
    rcases pMcdReplace_books hrep with ⟨mh, hf, rfl, hbooks⟩ | ⟨hf, rfl, hbooks⟩
    · rw [hf]
      have hone : Strikes s u := strikes_one (findMcdHashT_mem hf).1 hbooks
      exact ⟨u, hone.plainly, hloc, hput⟩
    · rw [hf]
      exact ⟨u, plainly_of_eq hbooks, hloc, hput⟩

/-- A `put` that succeeds records its entry last. -/
theorem put_booked {v : GuestVal} (h : Returns (mcdOp c (.put id k v)) s r t) :
    (r.rc = .errMcdFault ∧ Plainly P s t) ∨ (r.rc = .errNo ∧ ∃ u mh, Plainly P s u ∧
      (Booking.record (s.home id k) mh).Allowed u.books ∧ mh.domain = id ∧
      mh.queryTimeMs = s.queryTime c id k ∧ mh.valSize = v.size ∧
      t.books = u.books.book (.record (s.home id k) mh)) := by
  obtain ⟨u, hu, hloc, hput⟩ := put_replaces (P := P) h
  rcases putEntry_booked hloc hput with ⟨hr, hst⟩ | ⟨hr, w, mh, hst, hallow, hdom, hms, hval, ht⟩
  · exact .inl ⟨hr, hu.trans hst.plainly⟩
  · exact .inr ⟨hr, w, mh, hu.trans hst.plainly, hallow, hdom, hms, hval, ht⟩

/-- The part of both `get`s after a miss in memory. -/
theorem fetch_plainly {hash : UInt32} {rest : McdHashT → M Reply} (hs : s.Has loc)
    (hP : P → ∀ mch ∈ s.headers loc, ∀ mh : McdHashT, mh.domain = mch.domain →
      loc.payer mh = mh.domain)
    (hrest : ∀ mh u r t, u.Has loc → Returns (rest mh) u r t → Plainly P u t)
    (h : Returns (do
      match ← findMcdctlHashT loc hash with
      | none => pure (.code .errMcdFault)
      | some mch => do
        match ← mcdPageIn c loc mch with
        | none => pure (.code .errMcdFault)
        | some mh => do
          modify (·.listAddTail loc mh)
          rest mh) s r t) : Plainly P s t := by
  simp only [returns_bind, returns_findMcdctlHashT, and_assoc, exists_and_left, exists_eq_left] at h
  obtain ⟨-, h⟩ := h
  cases hh : (s.headers loc).find? (·.hash = hash) with
  | none =>
    rw [hh] at h
    rw [(returns_pure.mp h).2]
    exact plainly_of_eq rfl
  | some mch =>
    rw [hh] at h
    obtain ⟨o, s₁, hpage, h⟩ := returns_bind.mp h
    rcases mcdPageIn_booked hpage with ⟨rfl, hst⟩ | ⟨mh, u, rfl, hst, hallow, hdom, hhas, hbooks⟩
    · rw [(returns_pure.mp h).2]
      exact hst.plainly
    · simp only [returns_bind, returns_modify, exists_eq_left, exists_const] at h
      have hs₁ : s₁.Has loc := hhas loc (hst.has hs)
      have hlink : (s₁.listAddTail loc mh).books = u.books.book (.enter loc mh) := by
        rw [listAddTail_books hs₁, hbooks]
        rfl
      have hown : P → loc.payer mh = mh.domain := fun hp =>
        hP hp mch (List.mem_of_find?_eq_some hh) mh hdom
      have henter : Plainly P u (s₁.listAddTail loc mh) :=
        plainly_one (e := .enter loc mh) trivial hown hallow hlink
      exact hst.plainly.trans (henter.trans (hrest mh _ r t (has_listAddTail mh hs₁) h))

theorem deliver_plainly {mh : McdHashT} {cap : UInt32} {rc : Rc} (hs : s.Has loc)
    (h : Returns (deliver c loc mh cap rc) s r t) : Plainly P s t :=
  plainly_one (e := .touch loc mh (c.now s.tick)) trivial (fun _ => trivial) trivial
    (deliver_books hs h)

theorem sDeliver_plainly {i : Bucket} {mh : McdHashT} {cap : UInt32} {rc : Rc}
    (h : Returns (do noteAccess c mh; deliver c (.bucket i) mh cap rc) s r t) : Plainly P s t := by
  obtain ⟨_, u, hacc, h⟩ := returns_bind.mp h
  have hchart : Plainly P s u :=
    plainly_one (e := .chart _) trivial (fun _ => trivial) trivial (noteAccess_books hacc)
  have hu : u.Has (.bucket i) := trivial
  exact hchart.trans (deliver_plainly hu h)

theorem get_plainly {cap : UInt32} (h : Returns (mcdOp c (.get id k cap)) s r t) :
    Plainly s.tiers.HeadersOwned s t := by
  rcases mcdSubCall_spec h with ⟨-, h⟩ | ⟨-, h⟩
  · simp only [sMcdGet, returns_bind, returns_get, and_assoc, exists_and_left, exists_eq_left] at h
    cases hf : findMcdHashT (getHash k.bytes) (s.entries (.bucket (bucketOf (getHash k.bytes)))) with
    | some mh =>
      rw [hf] at h
      exact sDeliver_plainly h
    | none =>
      rw [hf] at h
      have hs : s.Has (.bucket (bucketOf (getHash k.bytes))) := trivial
      refine fetch_plainly hs (fun _ _ _ _ _ => rfl) ?_ h
      intro mh u r t _ h
      exact sDeliver_plainly h
  · simp only [pMcdGet, returns_bind, returns_domOf, and_assoc, exists_and_left,
      exists_eq_left] at h
    obtain ⟨d, hd, h⟩ := h
    have hs : s.Has (.dom id) := by
      show (findMcdDom id s).isSome
      rw [hd]
      rfl
    rw [← entries_of_find hd] at h
    cases hf : findMcdHashT (getHash k.bytes) (s.entries (.dom id)) with
    | some mh =>
      rw [hf] at h
      exact deliver_plainly hs h
    | none =>
      rw [hf] at h
      refine fetch_plainly hs ?_ ?_ h
      · intro hown mch hmem mh hdom
        rw [hdom, hown id mch hmem]
        rfl
      · intro mh u r t hu h
        exact deliver_plainly hu h

theorem check_plainly (h : Returns (mcdOp c (.check id k)) s r t) : Plainly P s t := by
  have hmiss {loc : Loc} {f : Option McdctlHashT → Reply} (hloc : loc.For s.tiers id)
      (h : Returns (do
        let mch ← findMcdctlHashT loc (getHash k.bytes)
        addMeasurement c id loc k
        pure (f mch)) s r t) : Plainly P s t := by
    simp only [returns_bind, returns_findMcdctlHashT, returns_pure, and_assoc, exists_and_left,
      exists_eq_left] at h
    obtain ⟨-, _, u, hadd, -, rfl⟩ := h
    exact addMeasurement_plainly hloc hadd
  have hloc := for_home s id k
  rcases mcdSubCall_spec h with ⟨hm, h⟩ | ⟨hm, h⟩
  · rw [home_shared hm] at hloc
    simp only [sMcdCheck, returns_bind, returns_get, and_assoc, exists_and_left,
      exists_eq_left] at h
    cases hf : findMcdHashT (getHash k.bytes) (s.entries (.bucket (bucketOf (getHash k.bytes)))) with
    | some mh =>
      rw [hf] at h
      rw [(returns_pure.mp h).2]
      exact plainly_of_eq rfl
    | none =>
      rw [hf] at h
      exact hmiss hloc h
  · rw [home_partition hm] at hloc
    simp only [pMcdCheck, returns_bind, returns_domOf, and_assoc, exists_and_left,
      exists_eq_left] at h
    obtain ⟨d, hd, h⟩ := h
    cases hf : findMcdHashT (getHash k.bytes) d.hashList with
    | some mh =>
      rw [hf] at h
      rw [(returns_pure.mp h).2]
      exact plainly_of_eq rfl
    | none =>
      rw [hf] at h
      exact hmiss hloc h

end

/-! ### The control operations -/

section
variable {P : Prop} {c : Ctx} {id : Domid} {r : Reply} {s t : State}

theorem Flushes.strikes {m : CacheMode} (h : Flushes c s t m) : Strikes s t := by
  cases m with
  | shared =>
    obtain ⟨r, hflush⟩ := h
    exact sMcdFlush_strikes _ _ _ hflush
  | partition => exact pMcdFlushAll_strikes _ _ _ _ h

theorem flush_strikes (h : Returns (mcdOp c (.flush id)) s r t) : Strikes s t := by
  rcases mcdSubCall_spec h with ⟨-, h⟩ | ⟨-, h⟩
  · exact sMcdFlush_strikes _ _ _ h
  · exact pMcdFlush_strikes _ _ _ h

theorem memsize_strikes {m : Int32} (h : Returns (mcdOp c (.memsize m)) s r t) : Strikes s t := by
  have hfree : Within Strikes (freeExcess c) :=
    passive_strikes.bind passive_strikes.get fun s =>
      .ite (cacheFree_strikes _ 0) (passive_strikes.pure _)
  have hlimit : ∀ bytes, Strikes s { s with maxMemBytes := bytes } := fun _ => strikes_of_eq rfl
  simp only [mcdOp, setMemsize, returns_bind, returns_modify, returns_get, returns_pure, and_assoc,
    exists_and_left, exists_eq_left, exists_const] at h
  obtain ⟨rc, s₁, hfreed, _, s₂, husage, -, rfl⟩ := h
  exact (hlimit _).trans ((hfree _ _ _ hfreed).trans (passive_strikes.domUsageUpdateAll _ _ _ _ husage))

theorem cacheMode_strikes {which mode : UInt32} (h : Returns (mcdOp c (.cacheMode which mode)) s r t) :
    Strikes s t := by
  obtain ⟨rm, pm, w, rfl, ⟨-, rfl⟩ | ⟨-, hflush⟩⟩ := setCacheMode_inv h
  · exact strikes_of_eq rfl
  · have hset : Strikes s { s with
        cacheMode := s.targetMode which mode, replacementMode := rm, partitionMode := pm } :=
      strikes_of_eq rfl
    exact hset.trans hflush.strikes

theorem param_plainly {which mode param : UInt32}
    (h : Returns (mcdOp c (.param which mode param)) s r t) : Plainly P s t := by
  rcases setParam_inv h with ⟨-, hflush⟩ | ⟨-, alpha, beta, user, tick, rfl⟩
  · exact hflush.strikes.plainly
  · exact plainly_one (e := .tune alpha beta) trivial (fun _ => trivial) trivial rfl

theorem disable_books : KeepsBooks (mcdOp c .disable) :=
  KeepsBooks.bind (.of_modify fun _ => rfl) fun _ => KeepsBooks.pure _

/-- A pass that gives every record its ratio. -/
theorem books_domWeightUpdate (s : State) :
    s.domWeightUpdate.books = s.books.book (.weigh s.domWeightUpdate.shares) := by
  have hent : s.domWeightUpdate.entries = s.entries := congrArg Tiers.entries (tiers_domWeightUpdate s)
  apply Books.ext hent
  unfold State.domWeightUpdate
  by_cases hz : s.totalWeight ≤ 0
  · rw [if_pos hz]
    rfl
  · rw [if_neg hz]
    ext1
    case stats =>
      exact funext (map_find_mapDomains
        (f := fun d => { d with ratio := d.weight * 100 / s.totalWeight }) (fun _ => rfl)
        (fun _ => rfl) s)
    all_goals rfl

theorem weight_books {w : UInt32} (h : Returns (mcdOp c (.weight id w)) s r t) :
    t.books = s.books.book (.weigh t.shares) := by
  simp only [mcdOp, setWeight, returns_bind, returns_domOf, returns_modify, returns_pure, and_assoc,
    exists_and_left, exists_eq_left, exists_const] at h
  obtain ⟨d, hd, -, rfl⟩ := h
  rw [books_domWeightUpdate]
  generalize State.shares _ = shares
  apply Books.ext
  · exact entries_modifyDom_of_eq (f := fun d => { d with weight := w }) (fun _ => rfl)
      (fun _ => rfl) id _
  · ext1
    case stats =>
      funext e
      exact map_find_modifyDom (f := fun d => { d with weight := w }) (fun _ => rfl) id _
        (fun _ => rfl) e
    all_goals rfl

theorem books_enrol {s' : State} (hd : id ∉ s.tiers.live) (w : UInt32)
    (hs' : s' = { s with totalWeight := w, domains := s.domains ++ [freshDomain id] }) :
    s'.books = s.books.book (.enrol id s'.shares) := by
  have hent : s'.entries = s.entries := by
    rw [hs']
    exact congrArg Tiers.entries (tiers_enrol hd)
  apply Books.ext hent
  ext1
  case stats =>
    funext e
    show (findMcdDom e s').map (·.keyStat) = Function.update s.aside.stats id (some ⟨0, 0⟩) e
    rw [findMcdDom_enrol hd (by rw [hs']), Function.update_apply]
    by_cases he : e = id
    · rw [if_pos he, if_pos he]
      rfl
    · rw [if_neg he, if_neg he]
      rfl
  case shares => rfl
  all_goals rw [hs']; rfl

theorem books_retire {s' : State} (hnd : s.tiers.live.Nodup) (he : s.entries (.dom id) = [])
    (hs' : s' = { s with domains := s.domains.eraseP (·.domid = id) }) :
    s'.books = s.books.book (.retire id s'.shares) := by
  have hfind : ∀ e, findMcdDom e s' = if e = id then none else findMcdDom e s :=
    findMcdDom_retire hnd (by rw [hs'])
  apply Books.ext
  · funext loc
    cases loc with
    | bucket i => rw [hs']; rfl
    | dom e =>
      show s'.entries (.dom e) = s.entries (.dom e)
      rw [entries_dom, hfind]
      by_cases hed : e = id
      · rw [if_pos hed, hed, he]
        rfl
      · rw [if_neg hed, entries_dom]
  · ext1
    case stats =>
      funext e
      show (findMcdDom e s').map (·.keyStat) = Function.update s.aside.stats id none e
      rw [hfind, Function.update_apply]
      by_cases hed : e = id
      · rw [if_pos hed, if_pos hed]
        rfl
      · rw [if_neg hed, if_neg hed]
        rfl
    case shares => rfl
    all_goals rw [hs']; rfl

/-- A creation fails for want of memory, or enrols the domain. -/
theorem create_booked (hid : id ∉ s.domids) (h : Returns (mcdOp c (.create id)) s r t) :
    (r.rc = .errXenFault ∧ Strikes s t) ∨ (r.rc = .errNo ∧ ∃ u, Strikes s u ∧
      (Booking.enrol id t.shares).Allowed u.books ∧
      t.books = u.books.book (.enrol id t.shares)) := by
  obtain ⟨o, u, hmalloc, h⟩ := returns_bind.mp h
  have hstrip := (mcdMalloc_stripped _ _ _ _ _ hmalloc).strikes
  cases o with
  | none =>
    obtain ⟨rfl, rfl⟩ := returns_pure.mp h
    exact .inl ⟨rfl, hstrip⟩
  | some addr =>
    simp only [returns_bind, returns_modify, returns_pure, exists_eq_left, exists_const] at h
    obtain ⟨_, s₁, hreq, rfl, rfl⟩ := h
    have hnone : findMcdDom id u = none := by
      have hlisted := (hstrip.plainly (P := True)).listed id
      have hs : ¬ (findMcdDom id s).isSome := by
        rw [isSome_findMcdDom]
        exact hid
      rw [← hlisted] at hs
      simpa using hs
    have hlive : id ∉ u.tiers.live := by
      rw [← isSome_findMcdDom, hnone]
      exact Bool.false_ne_true
    have hkeep := KeepsBooks.minfRequest _ _ _ _ hreq
    have hshares : t.aside.shares = _ := congrArg (·.aside.shares) hkeep
    have hallow : u.books.aside.stats id = none := by
      show (findMcdDom id u).map _ = none
      rw [hnone]
      rfl
    refine .inr ⟨rfl, u, hstrip, hallow, ?_⟩
    show t.books = u.books.book (.enrol id t.aside.shares)
    rw [hshares, hkeep]
    by_cases hpos : id > 0
    · rw [if_pos hpos, books_domWeightUpdate, books_enrol hlive _ rfl]
      rfl
    · rw [if_neg hpos, books_enrol hlive _ rfl]
      rfl

/-- What was struck from the books could have been struck under other weights. -/
theorem Strikes.reweigh {w : UInt32} (h : Strikes { s with totalWeight := w } t) :
    Strikes s { t with totalWeight := s.totalWeight } := by
  have hmove : ∀ {b b' : Books} {l : List (Loc × McdHashT)},
      Booked b (l.map fun x => .strike x.1 x.2) b' →
        ∀ a, Booked (b.book (.weigh a)) (l.map fun x => .strike x.1 x.2) (b'.book (.weigh a)) := by
    intro b b' l hb a
    induction l generalizing b with
    | nil =>
      cases hb
      exact .nil _
    | cons x l ih =>
      cases hb with
      | cons hstep hrest =>
        obtain ⟨hmem, rfl⟩ := hstep
        exact .cons ⟨hmem, rfl⟩ (ih hrest)
  have hlists := h.keeps (f := (·.aside.shares.list)) fun _ _ _ => rfl
  obtain ⟨l, hl⟩ := h
  refine ⟨l, ?_⟩
  have hlist : t.shares.list = s.shares.list := hlists
  have hshares : ({ t with totalWeight := s.totalWeight } : State).books =
      t.books.book (.weigh s.shares) := by
    show (⟨t.entries, { t.aside with shares := ⟨s.totalWeight, t.shares.list⟩ }⟩ : Books) = _
    rw [hlist]
    rfl
  rw [hshares]
  exact hmove hl s.shares

/-- A destruction removes the entries of the domain's list, then the domain. -/
theorem destroy_booked (hnd : s.tiers.live.Nodup) (h : Returns (mcdOp c (.destroy id)) s r t) :
    ∃ u, Strikes s u ∧ (Booking.retire id t.shares).Allowed u.books ∧
      t.books = u.books.book (.retire id t.shares) := by
  obtain ⟨_, s₁, hreq, h⟩ := returns_bind.mp h
  have hkeep := KeepsBooks.minfRequest _ _ _ _ hreq
  simp only [returns_bind, returns_domOf, returns_modify, returns_pure, and_assoc, exists_and_left,
    exists_eq_left, exists_const] at h
  obtain ⟨d, hd, q, s₂, hflush, -, rfl⟩ := h
  obtain ⟨-, w, st, hrem, hent, -, htiers⟩ := pMcdFlush_spec hflush
  have hempty : s₂.entries (.dom id) = [] := by
    have he : s₂.entries = w.entries := congrArg Tiers.entries htiers
    rw [he, hent, Function.update_self]
  have hlive : s₂.tiers.live = s₁.tiers.live := by
    rw [htiers]
    show w.live = _
    exact Clears.live_eq hrem
  have hlive₁ : s₁.tiers.live = s.tiers.live := by
    rcases minfRequest_spec hreq with h | h <;> rw [h]
  have hstrikes : Strikes s₁ { s₂ with totalWeight := s₁.totalWeight } :=
    (pMcdFlush_strikes _ _ _ hflush).reweigh
  refine ⟨_, (strikes_of_eq hkeep).trans hstrikes, hempty, ?_⟩
  have hnd₂ : s₂.tiers.live.Nodup := by
    rw [hlive, hlive₁]
    exact hnd
  rw [books_domWeightUpdate, books_retire hnd₂ hempty rfl]
  rfl

end

/-! ### Whole commands -/

/-- The booking that a command ends with, if it is not a plain one. -/
inductive Closes (c : Ctx) (s : State) (r : Reply) : Cmd → Booking → Prop
  | put {id : Domid} {k : GuestKey} {v : GuestVal} {mh : McdHashT} (stored : r.rc = .errNo)
      (domain : mh.domain = id) (queryTimeMs : mh.queryTimeMs = s.queryTime c id k)
      (valSize : mh.valSize = v.size) : Closes c s r (.put id k v) (.record (s.home id k) mh)
  | weight {id : Domid} {w : UInt32} (shares : Shares Domid) : Closes c s r (.weight id w) (.weigh shares)
  | create {id : Domid} (created : r.rc = .errNo) (shares : Shares Domid) :
      Closes c s r (.create id) (.enrol id shares)
  | destroy {id : Domid} (shares : Shares Domid) : Closes c s r (.destroy id) (.retire id shares)

/-- The command has such a booking. -/
def Cmd.Closing (r : Reply) : Cmd → Prop
  | .put .. | .create _ => r.rc = .errNo
  | .weight .. | .destroy _ => True
  | _ => False

section
variable {c : Ctx} {cmd : Cmd} {r : Reply} {s t : State}

/-- A command makes plain bookings, and at most one of another kind at its end. -/
theorem mcdOp_booked (hnd : s.tiers.live.Nodup) (hfresh : cmd.Fresh s)
    (h : Returns (mcdOp c cmd) s r t) :
    (¬ cmd.Closing r ∧ Plainly s.tiers.HeadersOwned s t) ∨
      ∃ u e, Plainly s.tiers.HeadersOwned s u ∧ e.Allowed u.books ∧ Closes c s r cmd e ∧
        t.books = u.books.book e := by
  have hfault : ∀ {rc}, r.rc = rc → rc ≠ .errNo → ¬ r.rc = .errNo := by
    intro rc hrc hne
    rw [hrc]
    exact hne
  cases cmd with
  | get id k cap => exact .inl ⟨not_false, get_plainly h⟩
  | put id k v =>
    rcases put_booked h with ⟨hr, hp⟩ | ⟨hr, u, mh, hp, hallow, hdom, hms, hval, ht⟩
    · exact .inl ⟨hfault hr (by decide), hp⟩
    · exact .inr ⟨u, _, hp, hallow, .put hr hdom hms hval, ht⟩
  | remove id k => exact .inl ⟨not_false, (remove_strikes _ _ _ h).plainly⟩
  | check id k => exact .inl ⟨not_false, check_plainly h⟩
  | getsize id k =>
    have hcheck : Returns (mcdOp c (.check id k)) s r t := h
    exact .inl ⟨not_false, check_plainly hcheck⟩
  | flush id => exact .inl ⟨not_false, (flush_strikes h).plainly⟩
  | memsize m => exact .inl ⟨not_false, (memsize_strikes h).plainly⟩
  | weight id w =>
    exact .inr ⟨s, .weigh t.shares, plainly_of_eq rfl, trivial, .weight t.shares, weight_books h⟩
  | cacheMode which mode => exact .inl ⟨not_false, (cacheMode_strikes h).plainly⟩
  | param which mode param => exact .inl ⟨not_false, param_plainly h⟩
  | create id =>
    rcases create_booked hfresh h with ⟨hr, hs⟩ | ⟨hr, u, hs, hallow, ht⟩
    · exact .inl ⟨hfault hr (by decide), hs.plainly⟩
    · exact .inr ⟨u, _, hs.plainly, hallow, .create hr t.shares, ht⟩
  | destroy id =>
    obtain ⟨u, hs, hallow, ht⟩ := destroy_booked hnd h
    exact .inr ⟨u, _, hs.plainly, hallow, .destroy t.shares, ht⟩
  | enable => exact .inl ⟨not_false, plainly_of_eq (KeepsBooks.enable _ _ _ h)⟩
  | disable => exact .inl ⟨not_false, plainly_of_eq (disable_books _ _ _ h)⟩

/-- What follows the operation in a hypercall leaves the books alone. -/
theorem call_books {y z : System} {a : Call} (h : y.call a = .ok (r, z)) :
    ∃ t, Returns (mcdOp (y.ctx a.env) a.cmd) y.mcd r t ∧ z.mcd.books = t.books := by
  obtain ⟨s, s₁, s₂, hop, husage, hcaller, rfl⟩ := call_returns h
  have hfinish : Returns (do updateUsage (y.ctx a.env) a.cmd; findCaller a.cmd) s () s₂ :=
    returns_bind.mpr ⟨(), s₁, husage, hcaller⟩
  have hkept : s₂.books = s.books := KeepsBooks.finish _ _ _ hfinish
  exact ⟨s, hop, hkept⟩

theorem call_booked {y z : System} {a : Call} (hnd : y.mcd.tiers.live.Nodup)
    (hfresh : a.cmd.Fresh y.mcd) (h : y.call a = .ok (r, z)) :
    (¬ a.cmd.Closing r ∧ Plainly y.mcd.tiers.HeadersOwned y.mcd z.mcd) ∨
      ∃ u e, Plainly y.mcd.tiers.HeadersOwned y.mcd u ∧ e.Allowed u.books ∧
        Closes (y.ctx a.env) y.mcd r a.cmd e ∧ z.mcd.books = u.books.book e := by
  obtain ⟨t, hop, hz⟩ := call_books h
  rcases mcdOp_booked hnd hfresh hop with ⟨hc, hp⟩ | ⟨u, e, hp, hallow, hc, ht⟩
  · exact .inl ⟨hc, hp.trans (plainly_of_eq hz)⟩
  · exact .inr ⟨u, e, hp, hallow, hc, hz.trans ht⟩

/-- What every booking keeps holds in every run. -/
theorem run_books {I : Books → Prop} (keeps : ∀ {b e}, e.Allowed b → I b → I (b.book e))
    (hstart : I System.start.mcd.books) {y : System} {l : List (Call × Reply)}
    (h : Run Call.Fresh .start l y) : I y.mcd.books := by
  refine (h.invariant (I := fun y => y.mcd.tiers.Counted ∧ I y.mcd.books) ?_
    ⟨counted_start, hstart⟩).2
  rintro y ⟨a, r⟩ z ⟨hc, hy⟩ ⟨hfresh, hcall⟩
  refine ⟨call_counted hc hfresh hcall, ?_⟩
  rcases call_booked hc.live hfresh hcall with ⟨-, hp⟩ | ⟨u, e, hp, hallow, -, hz⟩
  · exact hp.invariant (fun _ _ ha hb => keeps ha hb) hy
  · rw [hz]
    exact keeps hallow (hp.invariant (fun _ _ ha hb => keeps ha hb) hy)

end

end UniCache.Mcd
