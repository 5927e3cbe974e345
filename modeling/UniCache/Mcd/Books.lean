import UniCache.Base.Shares
import UniCache.Mcd.Accounting
import UniCache.Mcd.Stripping

/-! The lists of entries together with the statistics kept beside them: key counts, recovery costs,
weights, score parameters and histograms. What the routines below the operations do to them. -/
namespace UniCache.Mcd
open Base Base.Exec

def McdDomain.share (d : McdDomain) : Share Domid := ⟨d.domid, d.weight, d.ratio⟩

def State.shares (s : State) : Shares Domid where
  total := s.totalWeight
  list := s.domains.map (·.share)

/-- The key count of a domain and its average recovery cost. -/
structure KeyStat where
  nrKeys : UInt32
  recCostAvg : UInt32
  deriving DecidableEq

def McdDomain.keyStat (d : McdDomain) : KeyStat := ⟨d.nrKeys, d.recCostAvg⟩

namespace KeyStat

def gain (k : KeyStat) : KeyStat := { k with nrKeys := k.nrKeys + 1 }

def lose (k : KeyStat) : KeyStat := { k with nrKeys := k.nrKeys - 1 }

/-- `P_REC_AVG_CAL`. -/
def noteCost (ms : UInt32) (k : KeyStat) : KeyStat where
  nrKeys := k.nrKeys + 1
  recCostAvg := (k.recCostAvg * k.nrKeys + ms) / (k.nrKeys + 1)

end KeyStat

@[ext] structure Aside where
  stats : Domid → Option KeyStat
  shares : Shares Domid
  sd : ScoreParam
  hist : Histograms

def State.aside (s : State) : Aside where
  stats d := (findMcdDom d s).map (·.keyStat)
  shares := s.shares
  sd := s.sd
  hist := s.hist

namespace Aside

def setStat (a : Aside) (d : Domid) (f : KeyStat → KeyStat) : Aside :=
  { a with stats := Function.update a.stats d ((a.stats d).map f) }

/-- What `create_mcd_hashT` does for an entry of domain `d` with a value of `vs` bytes. -/
def charge (a : Aside) (d : Domid) (vs : UInt32) : Aside :=
  { a.setStat d .gain with sd := a.sd.noteVal vs }

/-- `set_query_time`, which raises `query_max` like `set_val_size`. -/
def bill (a : Aside) (d : Domid) (ms : UInt32) : Aside :=
  { a.setStat d (.noteCost ms) with sd := a.sd.noteVal ms }

end Aside

/-- An update of the histograms, by a time difference. -/
inductive Chart
  | query (ns : Int)
  | reaccess (ns : Int)

def Histograms.note (h : Histograms) : Chart → Histograms
  | .query ns => h.noteQuery ns
  | .reaccess ns => h.noteReaccess ns

@[ext] structure Books where
  entries : Loc → List McdHashT
  aside : Aside

def State.books (s : State) : Books := ⟨s.entries, s.aside⟩

/-- All that changes the books. -/
inductive Booking
  /-- an entry is removed -/
  | strike (loc : Loc) (mh : McdHashT)
  /-- an entry is created and linked -/
  | enter (loc : Loc) (mh : McdHashT)
  /-- so is the entry of a `put`, with its query time -/
  | record (loc : Loc) (mh : McdHashT)
  | touch (loc : Loc) (mh : McdHashT) (now : Int)
  | chart (x : Chart)
  | tune (alpha beta : UInt32)
  | weigh (shares : Shares Domid)
  | enrol (d : Domid) (shares : Shares Domid)
  | retire (d : Domid) (shares : Shares Domid)

namespace Books

def setEntries (b : Books) (loc : Loc) (l : List McdHashT) : Books :=
  { b with entries := Function.update b.entries loc l }

def book (b : Books) : Booking → Books
  | .strike loc mh =>
    { b.setEntries loc ((b.entries loc).erase mh) with
      aside := b.aside.setStat (loc.payer mh) .lose }
  | .enter loc mh =>
    { b.setEntries loc (b.entries loc ++ [mh]) with
      aside := b.aside.charge mh.domain mh.valSize }
  | .record loc mh =>
    { b.setEntries loc (b.entries loc ++ [mh]) with
      aside := (b.aside.charge mh.domain mh.valSize).bill mh.domain mh.queryTimeMs }
  | .touch loc mh now =>
    b.setEntries loc ((b.entries loc).replace mh { mh with ref := mh.ref + 1, putTime := now })
  | .chart x => { b with aside := { b.aside with hist := b.aside.hist.note x } }
  | .tune alpha beta => { b with aside := { b.aside with sd := { b.aside.sd with alpha, beta } } }
  | .weigh shares => { b with aside := { b.aside with shares } }
  | .enrol d shares => { b with aside := { b.aside with
      stats := Function.update b.aside.stats d (some ⟨0, 0⟩), shares } }
  | .retire d shares => { b with aside := { b.aside with
      stats := Function.update b.aside.stats d none, shares } }

end Books

/-- A touched entry differs from what it was in its reference count and its time only. -/
theorem map_entries_touch_books {β : Type} {f : McdHashT → β} {mh : McdHashT} {now : Int}
    (hf : f { mh with ref := mh.ref + 1, putTime := now } = f mh) (b : Books) (loc l : Loc) :
    ((b.book (.touch loc mh now)).entries l).map f = (b.entries l).map f := by
  have hent : (b.book (.touch loc mh now)).entries = Function.update b.entries loc
    ((b.entries loc).replace mh { mh with ref := mh.ref + 1, putTime := now }) := rfl
  rw [hent]
  by_cases hl : l = loc
  · rw [hl, Function.update_self]
    exact map_replace_of_eq hf _
  · rw [Function.update_of_ne hl]

/-- The condition under which a booking is made. -/
def Booking.Allowed (b : Books) : Booking → Prop
  | .strike loc mh => mh ∈ b.entries loc
  | .enter _ mh => (b.aside.stats mh.domain).isSome ∧ mh.queryTimeMs = 0
  | .record loc mh => loc.payer mh = mh.domain ∧ (b.aside.stats mh.domain).isSome
  | .enrol d _ => b.aside.stats d = none
  | .retire d _ => b.entries (.dom d) = []
  | _ => True

abbrev Booked : Books → List Booking → Books → Prop :=
  Trace fun b e b' => e.Allowed b ∧ b' = b.book e

/-! ### Changes of a record -/

section
variable {f : McdDomain → McdDomain} {id : Domid}

theorem shares_modifyDom (hf : ∀ d, (f d).share = d.share) (id : Domid) (s : State) :
    (s.modifyDom id f).shares = s.shares := by
  have hl : ∀ l : List McdDomain, (modifyFirst id f l).map (·.share) = l.map (·.share) := by
    intro l
    induction l with
    | nil => rfl
    | cons d l ih => by_cases hd : d.domid = id <;> simp [modifyFirst, hd, hf, ih]
  exact congrArg (Shares.mk s.totalWeight) (hl s.domains)

theorem domid_of_share (hf : ∀ d, (f d).share = d.share) (d : McdDomain) : (f d).domid = d.domid :=
  congrArg Share.id (hf d)

/-- A change of a record that leaves its share alone shows in its key statistics only. -/
theorem aside_modifyDom {k : KeyStat → KeyStat} (hshare : ∀ d, (f d).share = d.share)
    (hstat : ∀ d, (f d).keyStat = k d.keyStat) (id : Domid) (s : State) :
    (s.modifyDom id f).aside = s.aside.setStat id k := by
  ext1
  case stats =>
    funext d
    simp only [State.aside, Aside.setStat, findMcdDom_modifyDom (domid_of_share hshare)]
    by_cases hd : d = id
    · rw [hd, if_pos rfl, Function.update_self, Option.map_map, Option.map_map]
      exact congrArg (fun g => (findMcdDom id s).map g) (funext hstat)
    · rw [if_neg hd, Function.update_of_ne hd]
  case shares => exact shares_modifyDom hshare id s
  all_goals rfl

theorem Aside.setStat_id (a : Aside) (d : Domid) : a.setStat d (fun x => x) = a := by
  unfold Aside.setStat
  rw [Option.map_id_fun', id_eq, Function.update_eq_self]

theorem setStat_setStat (a : Aside) (d : Domid) (f g : KeyStat → KeyStat) :
    (a.setStat d f).setStat d g = a.setStat d (g ∘ f) := by
  simp [Aside.setStat]

/-- Of a record that may have been changed, the record before. -/
theorem stats_setStat {a : Aside} {d e : Domid} {f : KeyStat → KeyStat} {k : KeyStat}
    (h : (a.setStat e f).stats d = some k) :
    ∃ k₀, a.stats d = some k₀ ∧ k = if d = e then f k₀ else k₀ := by
  by_cases hd : d = e
  · subst hd
    have hmap : (a.stats d).map f = some k := by simpa [Aside.setStat] using h
    obtain ⟨k₀, hk₀, rfl⟩ := Option.map_eq_some_iff.mp hmap
    exact ⟨k₀, hk₀, (if_pos rfl).symm⟩
  · have hsame : a.stats d = some k := by simpa [Aside.setStat, Function.update_of_ne hd] using h
    exact ⟨k, hsame, (if_neg hd).symm⟩

theorem aside_modifyDom_of_eq (hshare : ∀ d, (f d).share = d.share)
    (hstat : ∀ d, (f d).keyStat = d.keyStat) (id : Domid) (s : State) :
    (s.modifyDom id f).aside = s.aside := by
  rw [aside_modifyDom (k := fun x => x) hshare hstat, Aside.setStat_id]

theorem entries_modifyDom_of_eq (hf : ∀ d, (f d).domid = d.domid)
    (hlist : ∀ d, (f d).hashList = d.hashList) (id : Domid) (s : State) :
    (s.modifyDom id f).entries = s.entries := by
  funext loc
  cases loc with
  | bucket i => rfl
  | dom d => rw [entries_dom, entries_dom, map_find_modifyDom hf id s hlist]

theorem books_setHeaders (s : State) (l : List McdctlHashT) (loc : Loc) :
    (s.setHeaders l loc).books = s.books := by
  cases loc with
  | bucket i => rfl
  | dom d =>
    have he := entries_modifyDom_of_eq (f := fun d => { d with mcdctlList := l }) (fun _ => rfl)
      (fun _ => rfl) d s
    have ha := aside_modifyDom_of_eq (f := fun d => { d with mcdctlList := l }) (fun _ => rfl)
      (fun _ => rfl) d s
    exact Books.ext he ha

theorem books_setEntries {s : State} {loc : Loc} (hs : s.Has loc) (l : List McdHashT) :
    (s.setEntries l loc).books = s.books.setEntries loc l := by
  apply Books.ext
  · exact congrArg Tiers.entries (tiers_setEntries hs l)
  · cases loc with
    | bucket i => rfl
    | dom d =>
      exact aside_modifyDom_of_eq (f := fun d => { d with hashList := l }) (fun _ => rfl)
        (fun _ => rfl) d s

end

/-! ### What leaves the books alone -/

/-- The computation leaves the books alone. -/
abbrev KeepsBooks {α : Type} (x : M α) : Prop := Within (fun s t => t.books = s.books) x

theorem passive_books : Passive fun s t => t.books = s.books where
  refl _ := rfl
  trans h₁ h₂ := h₂.trans h₁
  bump _ := rfl
  addr _ _ := rfl
  usage total id s := by
    have he := entries_modifyDom_of_eq (f := (·.withUsage total)) (fun _ => rfl) (fun _ => rfl) id s
    have ha := aside_modifyDom_of_eq (f := (·.withUsage total)) (fun _ => rfl) (fun _ => rfl) id s
    exact Books.ext he ha

theorem aloof_books : Aloof fun s t => t.books = s.books where
  refl _ := rfl
  trans h₁ h₂ := h₂.trans h₁
  bump _ := rfl
  pool _ _ := rfl
  store _ _ := rfl
  headers s l loc := books_setHeaders s l loc

namespace KeepsBooks
variable {c : Ctx} {α β : Type} {loc : Loc} {id : Domid} {mh : McdHashT} {mch : McdctlHashT}

theorem pure (a : α) : KeepsBooks (Pure.pure a : M α) := passive_books.pure a

theorem get : KeepsBooks (MonadState.get : M State) := passive_books.get

theorem bind {x : M α} {f : α → M β} (hx : KeepsBooks x) (hf : ∀ a, KeepsBooks (f a)) :
    KeepsBooks (x >>= f) := passive_books.bind hx hf

theorem reading (f : Nat → α) : KeepsBooks (Mcd.reading f) := passive_books.reading f

theorem domOf (id : Domid) : KeepsBooks (Mcd.domOf id) := passive_books.domOf id

theorem mcdctlMalloc : KeepsBooks (Mcd.mcdctlMalloc c) := aloof_books.mcdctlMalloc

theorem mcdPageOut : KeepsBooks (Mcd.mcdPageOut c mh) := aloof_books.mcdPageOut

theorem mcdctlFree : KeepsBooks (Mcd.mcdctlFree loc mch) := aloof_books.mcdctlFree

theorem minfRequest (f : Store → Store) : KeepsBooks (Mcd.minfRequest c f) :=
  aloof_books.minfRequest f

theorem mcdctlDomFlush : KeepsBooks (Mcd.mcdctlDomFlush c id) :=
  get.bind fun _ => bind (aloof_books.flushHeaders _) fun _ => minfRequest _

theorem mcdctlFlush : KeepsBooks (Mcd.mcdctlFlush c) := aloof_books.mcdctlFlush

theorem dropOutsourced {hash : UInt32} : KeepsBooks (Mcd.dropOutsourced c loc hash) := by
  apply bind aloof_books.findMcdctlHashT
  intro o
  cases o with
  | none => exact pure _
  | some mch => exact bind (minfRequest _) fun _ => mcdctlFree

theorem transferIn : KeepsBooks (Mcd.transferIn c mch mh) := by
  intro s r t h
  obtain ⟨_, _, rfl, -, -⟩ := transferIn_cases h
  rfl

theorem enable : KeepsBooks mcdEventEnable := by
  intro s r t h
  rw [mcdEventEnable_eq h]
  by_cases hon : s.mcdctlEnabled = true
  · rw [if_pos hon]
  · rw [if_neg hon]
    rfl

theorem finish {cmd : Cmd} : KeepsBooks (do updateUsage c cmd; findCaller cmd) := by
  refine bind (get.bind fun s => .ite (passive_books.domUsageUpdateAll _) (pure _)) fun _ => ?_
  unfold findCaller
  cases cmd.countsFor with
  | none => exact pure _
  | some id => exact (domOf id).bind fun _ => pure _

end KeepsBooks

/-! ### What changes them -/

section
variable {c : Ctx} {id : Domid} {loc : Loc} {mh : McdHashT} {s t : State}

theorem listDel_books (hs : s.Has loc) (mh : McdHashT) :
    (s.listDel loc mh).books = s.books.setEntries loc ((s.books.entries loc).erase mh) :=
  books_setEntries hs _

theorem unlinkHashT_books {flag : Move} {u : Unit} (h : Returns (unlinkHashT c loc mh flag) s u t)
    (hs : s.Has loc) : t.books = s.books.setEntries loc ((s.books.entries loc).erase mh) := by
  unfold unlinkHashT at h
  by_cases hf : flag = .moveToSsd ∧ mh.flags = mcdHashTNormal
  · rw [if_pos hf] at h
    obtain ⟨_, s₁, hm, h⟩ := returns_bind.mp h
    have hout := KeepsBooks.mcdPageOut _ _ _ h
    rw [hout, returns_modify.mp hm]
    exact listDel_books hs mh
  · rw [if_neg hf] at h
    rw [returns_modify.mp h]
    exact listDel_books hs mh

/-- The steps both removal routines have in common. -/
theorem books_discharge (id : Domid) (mh : McdHashT) (m : CacheMode) (s : State) :
    ((s.dischargeData mh m).modifyDom id (·.discharge mh)).books =
      ⟨s.entries, s.aside.setStat id .lose⟩ := by
  have he := entries_modifyDom_of_eq (f := (·.discharge mh)) (fun _ => rfl) (fun _ => rfl) id
    (s.dischargeData mh m)
  have ha := aside_modifyDom (f := (·.discharge mh)) (k := .lose) (fun _ => rfl) (fun _ => rfl) id
    (s.dischargeData mh m)
  exact Books.ext he ha

theorem sRemoveHashT_books {i : Bucket} {flag : Move} {b : UInt64}
    (h : Returns (sRemoveHashT c i mh flag) s b t) :
    t.books = s.books.book (.strike (.bucket i) mh) := by
  simp only [sRemoveHashT, returns_bind, returns_modify, returns_domOf, returns_pure] at h
  obtain ⟨_, _, rfl, d, _, ⟨-, rfl⟩, _, _, rfl, _, _, h, -, rfl⟩ := h
  rw [unlinkHashT_books h trivial, books_discharge mh.domain mh .shared s]
  rfl

theorem pRemoveHashT_books {flag : Move} {b : UInt64}
    (h : Returns (pRemoveHashT c id mh flag) s b t) :
    t.books = s.books.book (.strike (.dom id) mh) := by
  simp only [pRemoveHashT, returns_bind, returns_modify, returns_domOf, returns_pure] at h
  obtain ⟨_, _, rfl, d, _, ⟨hfind, rfl⟩, _, _, rfl, _, s₁, h, _, _, hu, -, rfl⟩ := h
  have hhas : s.Has (.dom id) := by
    have hfind' : findMcdDom id s = some d := hfind
    show (findMcdDom id s).isSome
    rw [hfind']
    rfl
  have husage := passive_books.domUsageUpdate id _ _ _ hu
  have hunlink := unlinkHashT_books h (has_modifyDom (fieldMap_discharge mh).domid id hhas)
  rw [husage, hunlink, books_discharge id mh .partition s]
  rfl

/-- `create_mcd_hashT`: a reclaim, then the new entry is counted. -/
theorem createMcdHashT_books {ks vs : UInt32} {r : Option McdHashT}
    (h : Returns (createMcdHashT c id ks vs) s r t) :
    (r = none ∧ Stripped c s t) ∨ ∃ u addr now stale, Stripped c s u ∧
      r = some (freshHashT addr id ks vs now stale) ∧ (findMcdDom id u).isSome ∧
      (findMcdDom id t).isSome ∧ t.books = ⟨u.entries, u.aside.charge id vs⟩ := by
  obtain ⟨val, s₁, hmalloc, hrest⟩ := returns_bind.mp h
  have hstrip := mcdMalloc_stripped _ _ _ _ _ hmalloc
  cases val with
  | none =>
    obtain ⟨rfl, rfl⟩ := returns_pure.mp hrest
    exact .inl ⟨rfl, hstrip⟩
  | some addr =>
    obtain ⟨hsome, mh, rfl, rfl, rfl⟩ := (returns_createMcdHashT hmalloc).mp h
    refine .inr ⟨s₁, addr, _, _, hstrip, rfl, hsome, isSome_accounted hsome, Books.ext ?_ ?_⟩
    · exact entries_modifyDom_of_eq (f := (·.charge _)) (fun _ => rfl) (fun _ => rfl) id _
    · exact aside_modifyDom (f := (·.charge _)) (fun _ => rfl) (fun _ => rfl) id _

theorem listAddTail_books (hs : s.Has loc) (mh : McdHashT) :
    (s.listAddTail loc mh).books = s.books.setEntries loc (s.books.entries loc ++ [mh]) :=
  books_setEntries hs _

theorem setQueryTime_books {ms : UInt32} {r : McdHashT} (h : Returns (setQueryTime id mh ms) s r t) :
    t.books = ⟨s.entries, s.aside.bill id ms⟩ := by
  simp only [setQueryTime, returns_bind, returns_modify, returns_pure, exists_and_left,
    exists_eq_left, exists_const] at h
  obtain ⟨-, rfl⟩ := h
  apply Books.ext
  · exact entries_modifyDom_of_eq (f := (·.noteCost ms)) (fun _ => rfl) (fun _ => rfl) id _
  · exact aside_modifyDom (f := (·.noteCost ms)) (fun _ => rfl) (fun _ => rfl) id _

end

end UniCache.Mcd
