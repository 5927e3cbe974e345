import UniCache.Mcd.Reclaim
import UniCache.Mcd.Tiers

/-! What the routines of the model do to the tiers: most of them nothing, a removal one act. -/
namespace UniCache.Mcd
open Base.Exec

/-- The computation leaves the tiers alone. -/
def Quiet {α : Type} (x : M α) : Prop := Within (fun s t => t.tiers = s.tiers) x

section
variable {α β : Type}

theorem quiet_bind {x : M α} {f : α → M β} (hx : Quiet x) (hf : ∀ a, Quiet (f a)) :
    Quiet (x >>= f) := Within.bind (fun h₁ h₂ => h₂.trans h₁) hx hf

theorem quiet_modify {f : State → State} (hf : ∀ s, (f s).tiers = s.tiers) :
    Quiet (modify f : M Unit) := Within.of_modify hf

theorem quiet_ite {p : Prop} [Decidable p] {x y : M α} (hx : Quiet x) (hy : Quiet y) :
    Quiet (if p then x else y) := Within.ite hx hy

end

theorem entries_dom (s : State) (d : Domid) :
    s.entries (.dom d) = ((findMcdDom d s).map (·.hashList)).getD [] := by
  cases h : findMcdDom d s <;> simp [State.entries, h]

theorem headers_dom (s : State) (d : Domid) :
    s.headers (.dom d) = ((findMcdDom d s).map (·.mcdctlList)).getD [] := by
  cases h : findMcdDom d s <;> simp [State.headers, h]

section
variable {f : McdDomain → McdDomain} (hf : ∀ d, (f d).domid = d.domid) (id : Domid) (s : State)
include hf

/-- What a field of the records shows of a change that does not touch it. -/
theorem map_find_modifyDom {β : Type} {g : McdDomain → β} (hg : ∀ d, g (f d) = g d) (d : Domid) :
    (findMcdDom d (s.modifyDom id f)).map g = (findMcdDom d s).map g := by
  rw [findMcdDom_modifyDom hf]
  by_cases hd : d = id
  · rw [if_pos hd, Option.map_map]
    exact congrArg (fun k => (findMcdDom d s).map k) (funext hg)
  · rw [if_neg hd]

theorem domids_modifyDom : (s.modifyDom id f).domids = s.domids :=
  map_domid_modifyFirst hf s.domains

end

/-- A change of a domain's record that the tiers do not show. -/
structure Soft (f : McdDomain → McdDomain) : Prop where
  domid : ∀ d, (f d).domid = d.domid
  hashList : ∀ d, (f d).hashList = d.hashList
  mcdctlList : ∀ d, (f d).mcdctlList = d.mcdctlList
  nrUsedPages : ∀ d, (f d).nrUsedPages = d.nrUsedPages
  nrUsedBytes : ∀ d, (f d).nrUsedBytes = d.nrUsedBytes

theorem tiers_modifyDom_soft {f : McdDomain → McdDomain} (hf : Soft f) (id : Domid) (s : State) :
    (s.modifyDom id f).tiers = s.tiers := by
  have hmap := fun {β} {g : McdDomain → β} hg d => map_find_modifyDom hf.domid id s (g := g) hg d
  ext1
  case live => exact domids_modifyDom hf.domid id s
  case entries =>
    funext loc
    cases loc with
    | bucket i => rfl
    | dom d => simp only [State.tiers, entries_dom, hmap hf.hashList]
  case headers =>
    funext loc
    cases loc with
    | bucket i => rfl
    | dom d => simp only [State.tiers, headers_dom, hmap hf.mcdctlList]
  case usedPages =>
    funext d
    simp only [State.tiers, hmap hf.nrUsedPages]
  case usedBytes =>
    funext d
    simp only [State.tiers, hmap hf.nrUsedBytes]
  all_goals rfl

theorem soft_withUsage (total : UInt64) : Soft (McdDomain.withUsage total) where
  domid _ := rfl
  hashList _ := rfl
  mcdctlList _ := rfl
  nrUsedPages _ := rfl
  nrUsedBytes _ := rfl

theorem passive_quiet : Passive fun s t => t.tiers = s.tiers where
  refl _ := rfl
  trans h₁ h₂ := h₂.trans h₁
  bump _ := rfl
  addr _ _ := rfl
  usage total id s := tiers_modifyDom_soft (soft_withUsage total) id s

theorem quiet_pure {α : Type} (a : α) : Quiet (pure a : M α) := passive_quiet.pure a

theorem quiet_get : Quiet (get : M State) := passive_quiet.get

theorem quiet_reading {α : Type} (f : Nat → α) : Quiet (reading f) := passive_quiet.reading f

theorem quiet_xmalloc (c : Ctx) : Quiet (xmalloc c) := passive_quiet.xmalloc

theorem quiet_getTotMemSize (c : Ctx) : Quiet (getTotMemSize c) := passive_quiet.getTotMemSize

theorem quiet_domUsageUpdate (c : Ctx) (id : Domid) : Quiet (domUsageUpdate c id) :=
  passive_quiet.domUsageUpdate id

theorem quiet_domUsageUpdateAll (c : Ctx) (l : List McdDomain) : Quiet (domUsageUpdateAll c l) :=
  passive_quiet.domUsageUpdateAll l

theorem isSome_findMcdDom {id : Domid} {s : State} : (findMcdDom id s).isSome ↔ id ∈ s.tiers.live := by
  simp [findMcdDom, State.tiers, State.domids, List.find?_isSome]

theorem quiet_domOf (id : Domid) : Quiet (domOf id) := passive_quiet.domOf id

/-- A list that exists: a bucket, or the list of a listed domain. -/
def State.Has (s : State) : Loc → Prop
  | .bucket _ => True
  | .dom d => (findMcdDom d s).isSome

theorem getD_map_find_modifyDom {f : McdDomain → McdDomain} (hf : ∀ d, (f d).domid = d.domid)
    {β : Type} {g : McdDomain → β} {k : β → β} (hg : ∀ d, g (f d) = k (g d)) {id : Domid} {s : State}
    (hs : (findMcdDom id s).isSome) (x : β) (d : Domid) :
    ((findMcdDom d (s.modifyDom id f)).map g).getD x =
      Function.update (fun d => ((findMcdDom d s).map g).getD x) id
        (k (((findMcdDom id s).map g).getD x)) d := by
  rw [findMcdDom_modifyDom hf]
  by_cases hd : d = id
  · subst hd
    obtain ⟨r, hr⟩ := Option.isSome_iff_exists.mp hs
    simp [hr, hg]
  · simp [hd]

/-- How a change of a domain's record acts on the fields the tiers show. -/
structure FieldMap (f : McdDomain → McdDomain) (kE : List McdHashT → List McdHashT)
    (kH : List McdctlHashT → List McdctlHashT) (kP : UInt32 → UInt32) (kB : UInt64 → UInt64) :
    Prop where
  domid : ∀ d, (f d).domid = d.domid
  hashList : ∀ d, (f d).hashList = kE d.hashList
  mcdctlList : ∀ d, (f d).mcdctlList = kH d.mcdctlList
  nrUsedPages : ∀ d, (f d).nrUsedPages = kP d.nrUsedPages
  nrUsedBytes : ∀ d, (f d).nrUsedBytes = kB d.nrUsedBytes

theorem tiers_modifyDom {f : McdDomain → McdDomain} {kE kH kP kB} (hf : FieldMap f kE kH kP kB)
    {id : Domid} {s : State} (hs : (findMcdDom id s).isSome) :
    (s.modifyDom id f).tiers = { s.tiers with
      entries := Function.update s.entries (.dom id) (kE (s.entries (.dom id)))
      headers := Function.update s.headers (.dom id) (kH (s.headers (.dom id)))
      usedPages := Function.update s.tiers.usedPages id (kP (s.tiers.usedPages id))
      usedBytes := Function.update s.tiers.usedBytes id (kB (s.tiers.usedBytes id)) } := by
  ext1
  case live => exact domids_modifyDom hf.domid id s
  case entries =>
    funext loc
    cases loc with
    | bucket j => simp [State.tiers, State.entries, State.modifyDom]
    | dom d =>
      have h := getD_map_find_modifyDom hf.domid hf.hashList hs [] d
      simp only [State.tiers, entries_dom, h]
      by_cases hd : d = id <;> simp [hd, entries_dom]
  case headers =>
    funext loc
    cases loc with
    | bucket j => simp [State.tiers, State.headers, State.modifyDom]
    | dom d =>
      have h := getD_map_find_modifyDom hf.domid hf.mcdctlList hs [] d
      simp only [State.tiers, headers_dom, h]
      by_cases hd : d = id <;> simp [hd, headers_dom]
  case usedPages => exact funext fun d => getD_map_find_modifyDom hf.domid hf.nrUsedPages hs 0 d
  case usedBytes => exact funext fun d => getD_map_find_modifyDom hf.domid hf.nrUsedBytes hs 0 d
  all_goals rfl

theorem tiers_setEntries {s : State} {loc : Loc} (hs : s.Has loc) (l : List McdHashT) :
    (s.setEntries l loc).tiers = { s.tiers with
      entries := Function.update s.entries loc l } := by
  cases loc with
  | bucket i =>
    ext1
    case entries =>
      funext loc
      cases loc with
      | bucket j => by_cases hj : j = i <;> simp [State.tiers, State.setEntries, State.entries, hj]
      | dom d => simp [State.tiers, State.setEntries, State.entries, findMcdDom]
    all_goals rfl
  | dom d =>
    have hf : FieldMap (fun d => { d with hashList := l }) (fun _ => l) id id id :=
      ⟨fun _ => rfl, fun _ => rfl, fun _ => rfl, fun _ => rfl, fun _ => rfl⟩
    have h := tiers_modifyDom hf hs
    simp only [id_eq, Function.update_eq_self] at h
    exact h

theorem tiers_setHeaders {s : State} {loc : Loc} (hs : s.Has loc) (l : List McdctlHashT) :
    (s.setHeaders l loc).tiers = s.tiers.setHeaders loc l := by
  cases loc with
  | bucket i =>
    ext1
    case headers =>
      funext loc
      cases loc with
      | bucket j =>
        by_cases hj : j = i <;>
          simp [State.tiers, State.setHeaders, State.headers, Tiers.setHeaders, hj]
      | dom d => simp [State.tiers, State.setHeaders, State.headers, Tiers.setHeaders, findMcdDom]
    all_goals rfl
  | dom d =>
    have hf : FieldMap (fun d => { d with mcdctlList := l }) id (fun _ => l) id id :=
      ⟨fun _ => rfl, fun _ => rfl, fun _ => rfl, fun _ => rfl, fun _ => rfl⟩
    have h := tiers_modifyDom hf hs
    simp only [id_eq, Function.update_eq_self] at h
    exact h

theorem fieldMap_discharge (mh : McdHashT) :
    FieldMap (·.discharge mh) id id (· - mh.nrPages) (· - mh.bytes) :=
  ⟨fun _ => rfl, fun _ => rfl, fun _ => rfl, fun _ => rfl, fun _ => rfl⟩

theorem fieldMap_charge (mh : McdHashT) :
    FieldMap (·.charge mh) id id (· + mh.nrPages) (· + mh.bytes) :=
  ⟨fun _ => rfl, fun _ => rfl, fun _ => rfl, fun _ => rfl, fun _ => rfl⟩

theorem has_modifyDom {f : McdDomain → McdDomain} (hf : ∀ d, (f d).domid = d.domid) {s : State}
    {loc : Loc} (p : Domid) (hs : s.Has loc) : (s.modifyDom p f).Has loc := by
  cases loc with
  | bucket i => trivial
  | dom d =>
    have h : (findMcdDom d s).isSome := hs
    show (findMcdDom d (s.modifyDom p f)).isSome
    rw [findMcdDom_modifyDom hf]
    by_cases hd : d = p
    · rw [if_pos hd, Option.isSome_map]; exact h
    · rw [if_neg hd]; exact h

/-- The three steps both removal routines begin with. -/
theorem tiers_unlink {s : State} {loc : Loc} {mh : McdHashT} (hs : s.Has loc)
    (hp : (findMcdDom (loc.payer mh) s).isSome) :
    (((s.dischargeData mh loc.mode).modifyDom (loc.payer mh) (·.discharge mh)).listDel loc mh).tiers =
      s.tiers.drop loc mh := by
  have hf := fieldMap_discharge mh
  have hp' : (findMcdDom (loc.payer mh) (s.dischargeData mh loc.mode)).isSome := hp
  have hs' : (s.dischargeData mh loc.mode).Has loc := by cases loc <;> exact hs
  have hd := tiers_modifyDom hf hp'
  have he : ((s.dischargeData mh loc.mode).modifyDom (loc.payer mh) (·.discharge mh)).entries =
      s.entries := by
    have h := congrArg Tiers.entries hd
    simp only [id_eq, Function.update_eq_self] at h
    exact h
  unfold State.listDel
  rw [tiers_setEntries (has_modifyDom hf.domid _ hs'), hd, he]
  simp only [id_eq, Function.update_eq_self]
  rfl

theorem quiet_mcdctlNewMalloc (c : Ctx) : Quiet (mcdctlNewMalloc c) := by
  refine quiet_bind quiet_get fun s => quiet_ite (quiet_pure _) (quiet_ite (quiet_pure _) ?_)
  refine quiet_bind (quiet_reading _) fun ok => ?_
  exact quiet_ite (quiet_modify fun _ => rfl) (quiet_pure _)

theorem quiet_takeFree : Quiet takeFree := by
  intro s a t h
  simp only [takeFree, returns_bind, returns_get, and_assoc, exists_and_left, exists_eq_left] at h
  cases hl : s.pool.freelist with
  | nil =>
    rw [hl] at h
    rw [(returns_pure.mp h).2]
  | cons q qs =>
    rw [hl] at h
    simp only [returns_bind, returns_set, returns_pure] at h
    obtain ⟨_, _, rfl, -, rfl⟩ := h
    rfl

theorem quiet_mcdctlMalloc (c : Ctx) : Quiet (mcdctlMalloc c) :=
  quiet_bind quiet_get fun _ => quiet_ite (quiet_pure _)
    (quiet_ite (quiet_bind (quiet_mcdctlNewMalloc c) fun _ => quiet_takeFree) quiet_takeFree)

theorem createMcdctlHashT_spec {c : Ctx} {mh : McdHashT} {s t : State} {mch : McdctlHashT}
    (h : Returns (createMcdctlHashT c mh) s mch t) :
    t.tiers = s.tiers ∧ ∃ page slot, mch = mh.header page slot := by
  obtain ⟨a, u, hm, h⟩ := returns_bind.mp h
  have hq := quiet_mcdctlMalloc c s a u hm
  cases a with
  | none => exact (returns_throw.mp h).elim
  | some q =>
    obtain ⟨rfl, rfl⟩ := returns_pure.mp h
    exact ⟨hq, q.1, q.2, rfl⟩

/-- A header is linked at the end of a list that exists. -/
theorem linkHeader_inv {c : Ctx} {mh : McdHashT} {s t : State} {u : Unit}
    (h : Returns (linkHeader c mh) s u t) :
    ∃ mch s₁, Returns (createMcdctlHashT c mh) s mch s₁ ∧ s₁.Has (s₁.pageOutLoc mh) ∧
      t = s₁.setHeaders (s₁.headers (s₁.pageOutLoc mh) ++ [mch]) (s₁.pageOutLoc mh) := by
  obtain ⟨mch, s₁, hc, h⟩ := returns_bind.mp h
  simp only [returns_bind, returns_get, returns_checkIntact, and_assoc, exists_and_left,
    exists_eq_left] at h
  obtain ⟨-, -, h⟩ := h
  refine ⟨mch, s₁, hc, ?_⟩
  unfold State.pageOutLoc at h ⊢
  cases hm : s₁.cacheMode with
  | shared =>
    rw [hm] at h
    exact ⟨trivial, returns_set.mp h⟩
  | partition =>
    cases hd : findMcdDom mh.domain s₁ with
    | none =>
      rw [hm, hd] at h
      exact (returns_throw.mp h).elim
    | some d =>
      rw [hm, hd] at h
      exact ⟨by simp [State.Has, hd], returns_set.mp h⟩

theorem linkHeader_spec {c : Ctx} {mh : McdHashT} {s t : State} {u : Unit}
    (h : Returns (linkHeader c mh) s u t) :
    ∃ page slot, t.tiers = s.tiers.setHeaders (s.tiers.pageOutLoc mh)
      (s.tiers.headers (s.tiers.pageOutLoc mh) ++ [mh.header page slot]) := by
  obtain ⟨mch, s₁, hc, hhas, rfl⟩ := linkHeader_inv h
  obtain ⟨hq, page, slot, rfl⟩ := createMcdctlHashT_spec hc
  have hloc : s₁.pageOutLoc mh = s.tiers.pageOutLoc mh := by rw [← hq]; rfl
  have hhead : s₁.headers = s.tiers.headers := by rw [← hq]; rfl
  exact ⟨page, slot, by rw [tiers_setHeaders hhas, hq, hloc, hhead]⟩

/-- `mcd_page_out` of an entry that may be outsourced: nothing happens, or an accepted transfer
leaves a file and a header. -/
theorem mcdPageOut_spec {c : Ctx} {mh : McdHashT} {s t : State} {u : Unit}
    (h : Returns (mcdPageOut c mh) s u t) (hn : mh.flags = mcdHashTNormal) :
    (t.tiers = s.tiers ∧ (s.tiers.outsourcing = false ∨ ∃ n, c.pageOut n = .refused)) ∨
      (s.tiers.outsourcing ∧ ∃ n page slot, c.pageOut n ≠ .refused ∧
        t.tiers = s.tiers.outsource mh ((c.pageOut n).file mh) page slot) := by
  have hflag : ¬ (mh.flags &&& mcdMinfError ≠ 0) := by rw [hn]; decide
  simp only [mcdPageOut, returns_bind, returns_get, and_assoc, exists_and_left,
    exists_eq_left] at h
  by_cases ho : s.outsourcing
  · rw [if_neg (not_not_intro ho)] at h
    obtain ⟨out, s₁, hr, h⟩ := returns_bind.mp h
    obtain ⟨hout, rfl⟩ := returns_reading.mp hr
    cases hcase : out with
    | refused =>
      rw [hcase] at h
      obtain ⟨-, rfl⟩ := returns_pure.mp h
      exact .inl ⟨rfl, .inr ⟨s.tick, by rw [← hout, hcase]⟩⟩
    | _ =>
      -- completed and broken transfers take the same path
      rw [hcase] at h
      obtain ⟨_, s₂, hm, h⟩ := returns_bind.mp h
      rw [if_neg hflag] at h
      obtain ⟨page, slot, ht⟩ := linkHeader_spec h
      rw [returns_modify.mp hm] at ht
      refine .inr ⟨ho, s.tick, page, slot, ?_, ?_⟩
      · rw [← hout, hcase]; exact PageOut.noConfusion
      · rw [← hout, hcase]; exact ht
  · rw [if_pos ho] at h
    have hoff : s.outsourcing = false := by simpa using ho
    rw [(returns_pure.mp h).2]
    exact .inl ⟨rfl, .inl hoff⟩

/-- Why an entry that leaves memory is not outsourced. -/
inductive Unsaved (c : Ctx) (flag : Move) (mh : McdHashT) (t : Tiers) : Prop
  | unasked (h : flag = .doNotMoveToSsd)
  | measurement (h : mh.flags ≠ mcdHashTNormal)
  | off (h : t.outsourcing = false)
  | refused (n : Nat) (h : c.pageOut n = .refused)

/-- A removal, of an entry that is linked at `loc` or not. -/
inductive Unlinks (c : Ctx) (flag : Move) (loc : Loc) (mh : McdHashT) (t u : Tiers) : Prop
  | drop (why : Unsaved c flag mh t) (after : u = t.drop loc mh)
  | evict (asked : flag = .moveToSsd) (normal : mh.flags = mcdHashTNormal) (on : t.outsourcing)
      (n page slot : Nat) (accepted : c.pageOut n ≠ .refused)
      (after : u = (t.drop loc mh).outsource mh ((c.pageOut n).file mh) page slot)

/-- A removal as both routines perform it: discharge, then unlink. -/
theorem unlinkHashT_spec {c : Ctx} {loc : Loc} {mh : McdHashT} {flag : Move} {s t : State}
    {u : Unit} (hs : s.Has loc) (hp : (findMcdDom (loc.payer mh) s).isSome)
    (h : Returns (unlinkHashT c loc mh flag)
      ((s.dischargeData mh loc.mode).modifyDom (loc.payer mh) (·.discharge mh)) u t) :
    Unlinks c flag loc mh s.tiers t.tiers := by
  have hdrop := tiers_unlink hs hp
  unfold unlinkHashT at h
  by_cases hf : flag = .moveToSsd ∧ mh.flags = mcdHashTNormal
  · rw [if_pos hf] at h
    obtain ⟨_, s₁, hm, h⟩ := returns_bind.mp h
    rw [returns_modify.mp hm] at h
    rcases mcdPageOut_spec h hf.2 with ⟨hq, hwhy⟩ | ⟨ho, n, page, slot, hacc, ht⟩
    · rw [hdrop] at hq hwhy
      rcases hwhy with hoff | ⟨n, href⟩
      · exact .drop (.off hoff) hq
      · exact .drop (.refused n href) hq
    · rw [hdrop] at ho ht
      exact .evict hf.1 hf.2 ho n page slot hacc ht
  · rw [if_neg hf] at h
    have hq : t.tiers = s.tiers.drop loc mh := by rw [returns_modify.mp h, hdrop]
    by_cases hflag : flag = .moveToSsd
    · exact .drop (.measurement fun hn => hf ⟨hflag, hn⟩) hq
    · cases flag with
      | moveToSsd => exact absurd rfl hflag
      | doNotMoveToSsd => exact .drop (.unasked rfl) hq

theorem Unlinks.removal {c : Ctx} {loc : Loc} {mh : McdHashT} {flag : Move} {t u : Tiers}
    (h : Unlinks c flag loc mh t u) (hm : mh ∈ t.entries loc) :
    Removal c t loc mh u ∧ (flag = .doNotMoveToSsd → u = t.drop loc mh) := by
  cases h with
  | drop why after =>
    rw [after]
    exact ⟨.drop hm, fun _ => rfl⟩
  | evict asked normal on n page slot accepted after =>
    rw [after]
    refine ⟨.evict hm normal on n rfl accepted page slot, fun hd => ?_⟩
    rw [asked] at hd
    exact Move.noConfusion hd

theorem sRemoveHashT_unlinks {c : Ctx} {i : Bucket} {mh : McdHashT} {flag : Move} {s t : State}
    {b : UInt64} (h : Returns (sRemoveHashT c i mh flag) s b t) :
    b = mh.bytes ∧ Unlinks c flag (.bucket i) mh s.tiers t.tiers := by
  simp only [sRemoveHashT, returns_bind, returns_modify, returns_domOf, returns_pure] at h
  obtain ⟨_, _, rfl, d, _, ⟨hd, rfl⟩, _, _, rfl, _, _, h, rfl, rfl⟩ := h
  have hp : (findMcdDom ((Loc.bucket i).payer mh) s).isSome := by
    have hd' : findMcdDom mh.domain s = some d := hd
    simp [Loc.payer, hd']
  exact ⟨rfl, unlinkHashT_spec (show s.Has (.bucket i) from trivial) hp h⟩

theorem pRemoveHashT_unlinks {c : Ctx} {id : Domid} {mh : McdHashT} {flag : Move} {s t : State}
    {b : UInt64} (h : Returns (pRemoveHashT c id mh flag) s b t) :
    b = mh.bytes ∧ Unlinks c flag (.dom id) mh s.tiers t.tiers := by
  simp only [pRemoveHashT, returns_bind, returns_modify, returns_domOf, returns_pure] at h
  obtain ⟨_, _, rfl, d, _, ⟨hd, rfl⟩, _, _, rfl, _, s₁, h, _, _, hu, rfl, rfl⟩ := h
  have hp : (findMcdDom id s).isSome := by
    have hd' : findMcdDom id s = some d := hd
    simp [hd']
  have hq := quiet_domUsageUpdate c id s₁ _ t hu
  rw [hq]
  exact ⟨rfl, unlinkHashT_spec (show s.Has (.dom id) from hp) hp h⟩

theorem sRemoveHashT_spec {c : Ctx} {i : Bucket} {mh : McdHashT} {flag : Move} {s t : State}
    {b : UInt64} (h : Returns (sRemoveHashT c i mh flag) s b t) (hm : mh ∈ s.shared i) :
    b = mh.bytes ∧ Removal c s.tiers (.bucket i) mh t.tiers ∧
      (flag = .doNotMoveToSsd → t.tiers = s.tiers.drop (.bucket i) mh) := by
  obtain ⟨hb, hun⟩ := sRemoveHashT_unlinks h
  exact ⟨hb, hun.removal hm⟩

theorem pRemoveHashT_spec {c : Ctx} {id : Domid} {mh : McdHashT} {flag : Move} {s t : State}
    {b : UInt64} (h : Returns (pRemoveHashT c id mh flag) s b t) (hm : mh ∈ s.entries (.dom id)) :
    b = mh.bytes ∧ Removal c s.tiers (.dom id) mh t.tiers ∧
      (flag = .doNotMoveToSsd → t.tiers = s.tiers.drop (.dom id) mh) := by
  obtain ⟨hb, hun⟩ := pRemoveHashT_unlinks h
  exact ⟨hb, hun.removal hm⟩

end UniCache.Mcd
