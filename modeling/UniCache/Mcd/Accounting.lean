import Mathlib.Algebra.Group.Prod
import Mathlib.Data.UInt
import UniCache.Base.Ledger
import UniCache.Mcd.Acts

/-! The byte, page and key counters against the lists they count. -/
namespace UniCache.Mcd
open Base

/-- What an entry adds to the counters of its mode: bytes, pages and one key. -/
def McdHashT.weight (mh : McdHashT) : UInt64 × UInt32 × UInt32 := (mh.bytes, mh.nrPages, 1)

/-- What an entry adds to the bytes and pages of domain `d`. -/
def McdHashT.share (d : Domid) (mh : McdHashT) : UInt64 × UInt32 :=
  if mh.domain = d then (mh.bytes, mh.nrPages) else 0

def McdData.counters (t : McdData) : CacheMode → UInt64 × UInt32 × UInt32
  | .shared => (t.shrNrBytes, t.shrNrPages, t.shrNrKeys)
  | .partition => (t.priNrBytes, t.priNrPages, t.priNrKeys)

theorem counters_charge (t : McdData) (mh : McdHashT) (m m' : CacheMode) :
    (t.charge mh m).counters m' = if m' = m then t.counters m' + mh.weight else t.counters m' := by
  cases m <;> cases m' <;> rfl

theorem counters_discharge (t : McdData) (mh : McdHashT) (m m' : CacheMode) :
    (t.discharge mh m).counters m' =
      if m' = m then t.counters m' - mh.weight else t.counters m' := by
  cases m <;> cases m' <;> rfl

namespace Tiers

/-- The lists a mode keeps its entries in. -/
def locs (t : Tiers) : CacheMode → List Loc
  | .shared => (List.finRange 100).map .bucket
  | .partition => t.live.map .dom

/-- The counters of both modes are exact. -/
structure Counted (t : Tiers) : Prop where
  live : t.live.Nodup
  unlisted : ∀ d ∉ t.live, t.entries (.dom d) = []
  headersOwned : t.HeadersOwned
  counters : ∀ m, t.data.counters m = total t.entries McdHashT.weight (t.locs m)

/-- So are the bytes and pages of every listed domain. -/
structure Charged (t : Tiers) : Prop where
  owned : ∀ d, ∀ mh ∈ t.entries (.dom d), mh.domain = d
  payers : ∀ loc, ∀ mh ∈ t.entries loc, mh.domain ∈ t.live
  used : ∀ d ∈ t.live, (t.usedBytes d, t.usedPages d) =
    total t.entries (McdHashT.share d) (t.locs .shared ++ t.locs .partition)
  idle : ∀ d ∉ t.live, (t.usedBytes d, t.usedPages d) = 0

end Tiers

section
variable {c : Ctx} {t u : Tiers} {loc : Loc} {mh : McdHashT}

theorem mem_locs_iff {m : CacheMode} :
    loc ∈ t.locs m ↔ loc.mode = m ∧ ∀ d, loc = .dom d → d ∈ t.live := by
  cases loc with
  | bucket i => cases m <;> simp [Tiers.locs, Loc.mode]
  | dom d => cases m <;> simp [Tiers.locs, Loc.mode]

theorem nodup_locs (hl : t.live.Nodup) (m : CacheMode) : (t.locs m).Nodup := by
  cases m with
  | shared => exact (List.nodup_finRange 100).map fun _ _ h => Loc.bucket.inj h
  | partition => exact hl.map fun _ _ h => Loc.dom.inj h

theorem nodup_allLocs (hl : t.live.Nodup) : (t.locs .shared ++ t.locs .partition).Nodup := by
  rw [List.nodup_append]
  refine ⟨nodup_locs hl _, nodup_locs hl _, ?_⟩
  intro a ha b hb hab
  have h₁ := (mem_locs_iff.mp ha).1
  have h₂ := (mem_locs_iff.mp hb).1
  rw [hab, h₂] at h₁
  exact CacheMode.noConfusion h₁

theorem mem_allLocs {m : CacheMode} (h : loc ∈ t.locs m) :
    loc ∈ t.locs .shared ++ t.locs .partition := by
  cases m with
  | shared => exact List.mem_append_left _ h
  | partition => exact List.mem_append_right _ h

/-- A list that holds an entry is one of its mode's. -/
theorem Tiers.Counted.mem_locs (hc : t.Counted) (hmh : mh ∈ t.entries loc) :
    loc ∈ t.locs loc.mode := by
  rw [mem_locs_iff]
  refine ⟨rfl, ?_⟩
  rintro d rfl
  by_contra hd
  rw [hc.unlisted d hd] at hmh
  simp at hmh

theorem notMem_locs {m : CacheMode} (h : m ≠ loc.mode) : loc ∉ t.locs m :=
  fun hmem => h (mem_locs_iff.mp hmem).1.symm

theorem Tiers.Counted.drop (hc : t.Counted) (hmh : mh ∈ t.entries loc) :
    (t.drop loc mh).Counted where
  live := hc.live
  unlisted d hd := by
    have hempty := hc.unlisted d hd
    show Function.update t.entries loc _ (.dom d) = []
    by_cases h : Loc.dom d = loc
    · rw [← h, hempty] at hmh
      simp at hmh
    · rw [Function.update_of_ne h, hempty]
  headersOwned := hc.headersOwned
  counters m := by
    show (t.data.discharge mh loc.mode).counters m = total (Function.update t.entries loc _) _ (t.locs m)
    rw [counters_discharge]
    by_cases hm : m = loc.mode
    · have hin := hc.mem_locs hmh
      rw [← hm] at hin
      have herase := total_erase (m := McdHashT.weight) (nodup_locs hc.live m) hin hmh
      rw [if_pos hm, hc.counters, ← herase, add_sub_cancel_right]
    · rw [if_neg hm, hc.counters, total_update_of_notMem (notMem_locs hm)]

theorem headersOwned_outsource (ho : t.HeadersOwned) (file : Option (List UInt8)) (page slot : Nat) :
    (t.outsource mh file page slot).HeadersOwned := by
  intro d mch hmch
  unfold Tiers.outsource at hmch
  by_cases h : Loc.dom d = t.pageOutLoc mh
  · have hd : mh.domain = d := by
      unfold Tiers.pageOutLoc at h
      cases hm : t.cfg.cacheMode with
      | shared => rw [hm] at h; exact Loc.noConfusion h
      | partition => rw [hm] at h; exact (Loc.dom.inj h).symm
    rw [← h] at hmch
    have hmem : mch ∈ t.headers (.dom d) ++ [mh.header page slot] := by
      simpa [Tiers.setHeaders, Tiers.setStore] using hmch
    rcases List.mem_append.mp hmem with hold | hnew
    · exact ho d mch hold
    · rw [List.mem_singleton.mp hnew]
      exact hd
  · have hmem : mch ∈ t.headers (.dom d) := by
      simpa [Tiers.setHeaders, Tiers.setStore, Function.update_of_ne h] using hmch
    exact ho d mch hmem

theorem Tiers.Counted.removal (hc : t.Counted) (h : Removal c t loc mh u) : u.Counted := by
  cases h with
  | drop mem => exact hc.drop mem
  | evict mem _ _ _ _ _ page slot =>
    have hd := hc.drop mem
    exact ⟨hd.live, hd.unlisted, headersOwned_outsource hd.headersOwned _ page slot, hd.counters⟩

theorem mem_locs_of_payer (hp : loc.payer mh = mh.domain) (hlist : mh.domain ∈ t.live) :
    loc ∈ t.locs loc.mode := by
  rw [mem_locs_iff]
  refine ⟨rfl, ?_⟩
  rintro d rfl
  have hd : d = mh.domain := hp
  rw [hd]
  exact hlist

theorem Tiers.Counted.link (hc : t.Counted) (hp : loc.payer mh = mh.domain)
    (hlist : mh.domain ∈ t.live) : (t.link loc mh).Counted where
  live := hc.live
  unlisted d hd := by
    show Function.update t.entries loc _ (.dom d) = []
    have hne : Loc.dom d ≠ loc := by
      rintro rfl
      have hdom : d = mh.domain := hp
      rw [hdom] at hd
      exact hd hlist
    rw [Function.update_of_ne hne, hc.unlisted d hd]
  headersOwned := hc.headersOwned
  counters m := by
    show (t.data.charge mh loc.mode).counters m = total (Function.update t.entries loc _) _ (t.locs m)
    rw [counters_charge]
    by_cases hm : m = loc.mode
    · have hin := mem_locs_of_payer hp hlist
      rw [← hm] at hin
      rw [if_pos hm, hc.counters, total_concat (nodup_locs hc.live m) hin]
    · rw [if_neg hm, hc.counters, total_update_of_notMem (notMem_locs hm)]

theorem Tiers.Counted.touch (hc : t.Counted) (loc : Loc) (mh : McdHashT) (now : Int) :
    (t.touch loc mh now).Counted where
  live := hc.live
  unlisted d hd := by
    have hempty := hc.unlisted d hd
    show Function.update t.entries loc _ (.dom d) = []
    by_cases h : Loc.dom d = loc
    · rw [h, Function.update_self, ← h, hempty]
      rfl
    · rw [Function.update_of_ne h, hempty]
  headersOwned := hc.headersOwned
  counters m := by
    have hw : McdHashT.weight { mh with ref := mh.ref + 1, putTime := now } = mh.weight := rfl
    have hsame := total_replace t.entries (t.locs m) loc hw
    exact (hc.counters m).trans hsame.symm

theorem Tiers.Counted.enrol (hc : t.Counted) {d : Domid} (hd : d ∉ t.live) :
    ({ t with live := t.live ++ [d] } : Tiers).Counted where
  live := by
    rw [List.nodup_append]
    refine ⟨hc.live, List.nodup_singleton d, ?_⟩
    intro a ha b hb hab
    rw [List.mem_singleton.mp hb] at hab
    exact hd (hab ▸ ha)
  unlisted e he := hc.unlisted e fun h => he (List.mem_append_left _ h)
  headersOwned := hc.headersOwned
  counters m := by
    show t.data.counters m = _
    rw [hc.counters]
    cases m with
    | shared => rfl
    | partition =>
      show total t.entries _ (t.live.map Loc.dom) = total t.entries _ ((t.live ++ [d]).map Loc.dom)
      rw [List.map_append, total_append, List.map_singleton, total_cons, hc.unlisted d hd]
      simp

theorem Tiers.Counted.act (hc : t.Counted) (h : Act c t u) : u.Counted := by
  cases h with
  | removal h => exact hc.removal h
  | link payer listed => exact hc.link payer listed
  | touch loc mh now => exact hc.touch loc mh now
  | forget headers store sub =>
    exact ⟨hc.live, hc.unlisted, fun d mch h => hc.headersOwned d mch (sub _ h), hc.counters⟩
  | configure cfg => exact ⟨hc.live, hc.unlisted, hc.headersOwned, hc.counters⟩
  | enrol fresh => exact hc.enrol fresh

theorem Tiers.Counted.acts (hc : t.Counted) (h : Acts c t u) : u.Counted :=
  h.induct (fun hact hi => Tiers.Counted.act hi hact) hc

/-- An empty list adds nothing, so its record may go. -/
theorem total_retire {A : Type} [AddCommMonoid A] {f : McdHashT → A} {d : Domid}
    (he : t.entries (.dom d) = []) (m : CacheMode) :
    total t.entries f ((t.retire d).locs m) = total t.entries f (t.locs m) := by
  cases m with
  | shared => rfl
  | partition =>
    show total t.entries _ ((t.live.erase d).map Loc.dom) = total t.entries _ (t.live.map Loc.dom)
    rw [List.map_erase fun _ _ h => Loc.dom.inj h]
    by_cases hd : d ∈ t.live
    · have hsplit : total t.entries f (t.live.map Loc.dom) = _ :=
        total_split (List.mem_map_of_mem hd)
      rw [hsplit, he]
      simp
    · rw [List.erase_of_not_mem]
      simpa using hd

theorem Tiers.Counted.retire (hc : t.Counted) {d : Domid} (he : t.entries (.dom d) = []) :
    (t.retire d).Counted where
  live := hc.live.erase d
  unlisted e hne := by
    by_cases h : e = d
    · rw [h]
      exact he
    · exact hc.unlisted e fun hmem => hne ((List.mem_erase_of_ne h).mpr hmem)
  headersOwned := hc.headersOwned
  counters m := by
    show t.data.counters m = total t.entries _ ((t.retire d).locs m)
    rw [hc.counters, total_retire he]

theorem entries_drop_subset (t : Tiers) (loc : Loc) (mh : McdHashT) (l : Loc) :
    (t.drop loc mh).entries l ⊆ t.entries l :=
  (update_erase_sublist t.entries loc mh l).subset

theorem mem_entries_link {l : Loc} {x : McdHashT} (hx : x ∈ (t.link loc mh).entries l) :
    x ∈ t.entries l ∨ l = loc ∧ x = mh :=
  mem_of_update_append hx

/-- What a touch leaves alone in an entry, it leaves alone in all entries. -/
theorem mem_entries_touch {β : Type} {f : McdHashT → β} {now : Int}
    (hf : f { mh with ref := mh.ref + 1, putTime := now } = f mh) {l : Loc} {x : McdHashT}
    (hx : x ∈ (t.touch loc mh now).entries l) : ∃ y ∈ t.entries l, f y = f x := by
  have hmem : f x ∈ (t.entries l).map f := by
    rw [← map_entries_touch hf t loc l]
    exact List.mem_map_of_mem hx
  exact List.mem_map.mp hmem

theorem share_of_ne {d : Domid} (h : d ≠ mh.domain) : mh.share d = 0 := if_neg fun hd => h hd.symm

theorem share_self : mh.share mh.domain = (mh.bytes, mh.nrPages) := if_pos rfl

theorem Tiers.Charged.payer_eq (hu : t.Charged) (hmh : mh ∈ t.entries loc) :
    loc.payer mh = mh.domain := by
  cases loc with
  | bucket i => rfl
  | dom d => exact (hu.owned d mh hmh).symm

theorem Tiers.Charged.drop (hu : t.Charged) (hc : t.Counted) (hmh : mh ∈ t.entries loc) :
    (t.drop loc mh).Charged := by
  have hsub := entries_drop_subset t loc mh
  refine ⟨fun d x hx => hu.owned d x (hsub _ hx), fun l x hx => hu.payers l x (hsub l hx), ?_,
    fun d hd => ?_⟩
  swap
  · have hne : d ≠ loc.payer mh := by
      rw [hu.payer_eq hmh]
      exact fun h => hd (h ▸ hu.payers loc mh hmh)
    have hidle := hu.idle d hd
    show (Function.update t.usedBytes _ _ d, Function.update t.usedPages _ _ d) = 0
    rw [Function.update_of_ne hne, Function.update_of_ne hne, hidle]
  intro d hd
  have herase := total_erase (m := McdHashT.share d) (nodup_allLocs hc.live)
    (mem_allLocs (hc.mem_locs hmh)) hmh
  have hused := hu.used d hd
  show (Function.update t.usedBytes (loc.payer mh) _ d, Function.update t.usedPages (loc.payer mh) _ d) =
    total (Function.update t.entries loc _) (McdHashT.share d) (t.locs .shared ++ t.locs .partition)
  rw [hu.payer_eq hmh]
  by_cases hdom : d = mh.domain
  · subst hdom
    rw [share_self] at herase
    rw [Function.update_self, Function.update_self]
    calc (t.usedBytes mh.domain - mh.bytes, t.usedPages mh.domain - mh.nrPages)
        = (t.usedBytes mh.domain, t.usedPages mh.domain) - (mh.bytes, mh.nrPages) := rfl
      _ = _ := by rw [hused, ← herase, add_sub_cancel_right]
  · rw [share_of_ne hdom, add_zero] at herase
    rw [Function.update_of_ne hdom, Function.update_of_ne hdom, hused, herase]

theorem Tiers.Charged.removal (hu : t.Charged) (hc : t.Counted) (h : Removal c t loc mh u) :
    u.Charged := by
  cases h with
  | drop mem => exact hu.drop hc mem
  | evict mem _ _ _ _ _ page slot =>
    have hd := hu.drop hc mem
    exact ⟨hd.owned, hd.payers, hd.used, hd.idle⟩

theorem Tiers.Charged.link (hu : t.Charged) (hc : t.Counted) (hp : loc.payer mh = mh.domain)
    (hlist : mh.domain ∈ t.live) : (t.link loc mh).Charged := by
  refine ⟨fun d x hx => ?_, fun l x hx => ?_, fun d hd => ?_, fun d hd => ?_⟩
  · rcases mem_entries_link hx with hx | ⟨hloc, rfl⟩
    · exact hu.owned d x hx
    · rw [← hp, ← hloc]
      rfl
  · rcases mem_entries_link hx with hx | ⟨-, rfl⟩
    · exact hu.payers l x hx
    · exact hlist
  · have hused := hu.used d hd
    show (Function.update t.usedBytes (loc.payer mh) _ d, Function.update t.usedPages (loc.payer mh) _ d) =
      total (Function.update t.entries loc _) (McdHashT.share d) (t.locs .shared ++ t.locs .partition)
    rw [hp, total_concat (nodup_allLocs hc.live) (mem_allLocs (mem_locs_of_payer hp hlist))]
    by_cases hdom : d = mh.domain
    · subst hdom
      rw [Function.update_self, Function.update_self, share_self, ← hused]
      rfl
    · rw [Function.update_of_ne hdom, Function.update_of_ne hdom, share_of_ne hdom, add_zero, hused]
  · have hne : d ≠ loc.payer mh := by
      rw [hp]
      exact fun h => hd (h ▸ hlist)
    have hidle := hu.idle d hd
    show (Function.update t.usedBytes _ _ d, Function.update t.usedPages _ _ d) = 0
    rw [Function.update_of_ne hne, Function.update_of_ne hne, hidle]

theorem Tiers.Charged.touch (hu : t.Charged) (loc : Loc) (mh : McdHashT) (now : Int) :
    (t.touch loc mh now).Charged := by
  -- a touched entry keeps its domain
  have hmem : ∀ l, ∀ x ∈ (t.touch loc mh now).entries l, ∃ y ∈ t.entries l, y.domain = x.domain :=
    fun l x hx => mem_entries_touch (f := McdHashT.domain) rfl hx
  refine ⟨fun d x hx => ?_, fun l x hx => ?_, fun d hd => ?_, hu.idle⟩
  · obtain ⟨y, hy, hdom⟩ := hmem _ x hx
    rw [← hdom]
    exact hu.owned d y hy
  · obtain ⟨y, hy, hdom⟩ := hmem _ x hx
    rw [← hdom]
    exact hu.payers l y hy
  · have hused := hu.used d hd
    have hw : McdHashT.share d { mh with ref := mh.ref + 1, putTime := now } = mh.share d := rfl
    have hsame := total_replace t.entries (t.locs .shared ++ t.locs .partition) loc hw
    exact hused.trans hsame.symm

theorem Tiers.Charged.enrol (hu : t.Charged) (hc : t.Counted) {d : Domid} (hd : d ∉ t.live) :
    ({ t with live := t.live ++ [d] } : Tiers).Charged := by
  have hall : ∀ e, total t.entries (McdHashT.share e)
      (({ t with live := t.live ++ [d] } : Tiers).locs .shared ++
        ({ t with live := t.live ++ [d] } : Tiers).locs .partition) =
      total t.entries (McdHashT.share e) (t.locs .shared ++ t.locs .partition) := by
    intro e
    show total t.entries _ (t.locs .shared ++ (t.live ++ [d]).map Loc.dom) = _
    rw [List.map_append, ← List.append_assoc, total_append, List.map_singleton, total_cons,
      hc.unlisted d hd]
    simp [Tiers.locs]
  refine ⟨hu.owned, fun l x hx => List.mem_append_left _ (hu.payers l x hx), fun e he => ?_,
    fun e he => hu.idle e fun h => he (List.mem_append_left _ h)⟩
  rw [hall e]
  rcases List.mem_append.mp he with hold | hnew
  · exact hu.used e hold
  · have hed : e = d := List.mem_singleton.mp hnew
    rw [hed]
    -- nobody has paid with the new id yet
    have hzero : total t.entries (McdHashT.share d) (t.locs .shared ++ t.locs .partition) = 0 :=
      total_eq_zero fun l _ x hx => share_of_ne fun h => hd (h ▸ hu.payers l x hx)
    exact (hu.idle d hd).trans hzero.symm

theorem Tiers.Charged.act (hu : t.Charged) (hc : t.Counted) (h : Act c t u) : u.Charged := by
  cases h with
  | removal h => exact hu.removal hc h
  | link payer listed => exact hu.link hc payer listed
  | touch loc mh now => exact hu.touch loc mh now
  | forget headers store sub => exact ⟨hu.owned, hu.payers, hu.used, hu.idle⟩
  | configure cfg => exact ⟨hu.owned, hu.payers, hu.used, hu.idle⟩
  | enrol fresh => exact hu.enrol hc fresh

theorem Tiers.Charged.acts (hu : t.Charged) (hc : t.Counted) (h : Acts c t u) :
    u.Counted ∧ u.Charged :=
  h.induct (I := fun v => v.Counted ∧ v.Charged) (fun hact hi => ⟨hi.1.act hact, hi.2.act hi.1 hact⟩)
    ⟨hc, hu⟩

end

section
variable {y z : System} {a : Call} {r : Reply} {l : List (Call × Reply)}

/-- The counters of the modes stay exact in every hypercall. -/
theorem call_counted (hc : y.mcd.tiers.Counted) (hfresh : a.cmd.Fresh y.mcd)
    (h : y.call a = .ok (r, z)) : z.mcd.tiers.Counted := by
  obtain ⟨t, hop, hz, -⟩ := call_spec h
  rw [hz]
  by_cases hd : a.cmd.Destroys
  · cases hcmd : a.cmd with
    | destroy d =>
      rw [hcmd] at hop
      obtain ⟨u, hupkeep, hempty, -, ht⟩ := destroy_upkeeps hc.live hop
      rw [ht]
      exact (hc.acts hupkeep.acts).retire hempty
    | _ =>
      rw [hcmd] at hd
      exact hd.elim
  · exact hc.acts (mcdOp_acts hc.headersOwned hfresh hd hop)

theorem call_charged (hc : y.mcd.tiers.Counted) (hu : y.mcd.tiers.Charged)
    (hfresh : a.cmd.Fresh y.mcd) (hkeep : ¬ a.cmd.Destroys) (h : y.call a = .ok (r, z)) :
    z.mcd.tiers.Charged := by
  obtain ⟨t, hop, hz, -⟩ := call_spec h
  rw [hz]
  exact (hu.acts hc (mcdOp_acts hc.headersOwned hfresh hkeep hop)).2

theorem counted_start : System.start.mcd.tiers.Counted where
  live := List.nodup_nil
  unlisted _ _ := rfl
  headersOwned _ _ h := by simp [State.tiers, State.headers, findMcdDom, System.start, mcdStart] at h
  counters m := by
    symm
    have hnone : total System.start.mcd.tiers.entries McdHashT.weight
        (System.start.mcd.tiers.locs m) = 0 := by
      apply total_eq_zero
      intro loc _ mh hmh
      cases loc <;> simp [State.tiers, State.entries, findMcdDom, System.start, mcdStart] at hmh
    rw [hnone]
    cases m <;> rfl

theorem charged_start : System.start.mcd.tiers.Charged where
  owned _ _ h := by simp [State.tiers, State.entries, findMcdDom, System.start, mcdStart] at h
  payers loc _ h := by
    cases loc <;> simp [State.tiers, State.entries, findMcdDom, System.start, mcdStart] at h
  used _ h := by simp [State.tiers, State.domids, System.start, mcdStart] at h
  idle _ _ := rfl

/-- Calls among which no id is given to a second domain. -/
def Call.Fresh (y : System) (a : Call) : Prop := a.cmd.Fresh y.mcd

instance (y : System) (a : Call) : Decidable (Call.Fresh y a) :=
  inferInstanceAs (Decidable (a.cmd.Fresh y.mcd))

/-- Calls among which, besides, no domain is destroyed. -/
def Call.Keeps (y : System) (a : Call) : Prop := a.cmd.Fresh y.mcd ∧ ¬ a.cmd.Destroys

instance (y : System) (a : Call) : Decidable (Call.Keeps y a) :=
  inferInstanceAs (Decidable (_ ∧ _))

theorem run_counted (h : Run Call.Fresh .start l y) : y.mcd.tiers.Counted :=
  h.invariant (I := fun y => y.mcd.tiers.Counted) (fun hc hstep => call_counted hc hstep.1 hstep.2)
    counted_start

theorem run_charged (h : Run Call.Keeps .start l y) : y.mcd.tiers.Counted ∧ y.mcd.tiers.Charged :=
  h.invariant (I := fun y => y.mcd.tiers.Counted ∧ y.mcd.tiers.Charged)
    (fun hc hstep => ⟨call_counted hc.1 hstep.1.1 hstep.2,
      call_charged hc.1 hc.2 hstep.1.1 hstep.1.2 hstep.2⟩)
    ⟨counted_start, charged_start⟩

end

/-- The entries of the shared buckets. -/
def State.sharedEntries (s : State) : List McdHashT := (List.finRange 100).flatMap s.shared

/-- The entries of the domains' own lists. -/
def State.privateEntries (s : State) : List McdHashT := s.domains.flatMap (·.hashList)

/-- The in-memory entries whose domain field is `d`. -/
def State.entriesOf (s : State) (d : Domid) : List McdHashT :=
  (s.sharedEntries ++ s.privateEntries).filter (·.domain = d)

/-- Every counter equals the sum it stands for, modulo its width. -/
structure State.Exact (s : State) : Prop where
  shrNrBytes : s.data.shrNrBytes = (s.sharedEntries.map (·.bytes)).sum
  shrNrPages : s.data.shrNrPages = (s.sharedEntries.map (·.nrPages)).sum
  shrNrKeys : s.data.shrNrKeys = UInt32.ofNat s.sharedEntries.length
  priNrBytes : s.data.priNrBytes = (s.privateEntries.map (·.bytes)).sum
  priNrPages : s.data.priNrPages = (s.privateEntries.map (·.nrPages)).sum
  priNrKeys : s.data.priNrKeys = UInt32.ofNat s.privateEntries.length
  nrUsedBytes : ∀ d ∈ s.domains, d.nrUsedBytes = ((s.entriesOf d.domid).map (·.bytes)).sum
  nrUsedPages : ∀ d ∈ s.domains, d.nrUsedPages = ((s.entriesOf d.domid).map (·.nrPages)).sum

theorem sum_weight (l : List McdHashT) :
    (l.map McdHashT.weight).sum =
      ((l.map (·.bytes)).sum, (l.map (·.nrPages)).sum, UInt32.ofNat l.length) := by
  induction l with
  | nil => rfl
  | cons mh l ih =>
    have hlen : UInt32.ofNat (mh :: l).length = 1 + UInt32.ofNat l.length := by
      rw [List.length_cons, UInt32.ofNat_add, add_comm]
      rfl
    rw [List.map_cons, List.sum_cons, ih, hlen]
    rfl

theorem sum_share (d : Domid) (l : List McdHashT) :
    (l.map (McdHashT.share d)).sum = (((l.filter (·.domain = d)).map (·.bytes)).sum,
      ((l.filter (·.domain = d)).map (·.nrPages)).sum) := by
  induction l with
  | nil => rfl
  | cons mh l ih =>
    rw [List.map_cons, List.sum_cons, ih]
    by_cases h : mh.domain = d
    · subst h
      rw [share_self, List.filter_cons_of_pos (by simp)]
      rfl
    · rw [share_of_ne fun hd => h hd.symm, zero_add, List.filter_cons_of_neg (by simpa using h)]

/-- With distinct ids a record is found under its own. -/
theorem find_of_mem {l : List McdDomain} (hnd : (l.map (·.domid)).Nodup) {d : McdDomain}
    (hd : d ∈ l) : l.find? (·.domid = d.domid) = some d := by
  induction l with
  | nil => simp at hd
  | cons e l ih =>
    obtain ⟨hne, hnd⟩ := List.nodup_cons.mp hnd
    rcases List.mem_cons.mp hd with rfl | hd
    · simp
    · have he : ¬ e.domid = d.domid := by
        intro h
        have hmem : d.domid ∈ l.map (·.domid) := List.mem_map_of_mem hd
        rw [← h] at hmem
        exact hne hmem
      rw [List.find?_cons_of_neg (by simpa using he)]
      exact ih hnd hd

theorem flatMap_locs_shared (s : State) :
    (s.tiers.locs .shared).flatMap s.tiers.entries = s.sharedEntries := by
  show ((List.finRange 100).map Loc.bucket).flatMap s.entries = (List.finRange 100).flatMap s.shared
  rw [List.flatMap_map]
  rfl

theorem flatMap_locs_partition {s : State} (hnd : s.tiers.live.Nodup) :
    (s.tiers.locs .partition).flatMap s.tiers.entries = s.privateEntries := by
  have hfind : ∀ d ∈ s.domains, s.entries (.dom d.domid) = d.hashList := fun d hd =>
    entries_of_find (find_of_mem hnd hd)
  show ((s.domains.map (·.domid)).map Loc.dom).flatMap s.entries = s.domains.flatMap (·.hashList)
  rw [List.map_map, List.flatMap_map]
  exact List.flatMap_congr hfind

theorem exact_of_charged {s : State} (hc : s.tiers.Counted) (hu : s.tiers.Charged) : s.Exact := by
  have hshared := hc.counters .shared
  have hprivate := hc.counters .partition
  rw [total_eq_flatMap, flatMap_locs_shared, sum_weight] at hshared
  rw [total_eq_flatMap, flatMap_locs_partition hc.live, sum_weight] at hprivate
  have hused : ∀ d ∈ s.domains, (d.nrUsedBytes, d.nrUsedPages) =
      (((s.entriesOf d.domid).map (·.bytes)).sum, ((s.entriesOf d.domid).map (·.nrPages)).sum) := by
    intro d hd
    have h := hu.used d.domid (List.mem_map_of_mem hd)
    have hfind : findMcdDom d.domid s = some d := find_of_mem hc.live hd
    rw [total_append, total_eq_flatMap, total_eq_flatMap, flatMap_locs_shared,
      flatMap_locs_partition hc.live, ← List.sum_append, ← List.map_append, sum_share] at h
    have hval : (s.tiers.usedBytes d.domid, s.tiers.usedPages d.domid) =
        (d.nrUsedBytes, d.nrUsedPages) := by simp [State.tiers, hfind]
    rw [hval] at h
    exact h
  have hbytes : s.data.shrNrBytes = _ := congrArg (·.1) hshared
  have hpages : s.data.shrNrPages = _ := congrArg (·.2.1) hshared
  have hkeys : s.data.shrNrKeys = _ := congrArg (·.2.2) hshared
  have hbytes' : s.data.priNrBytes = _ := congrArg (·.1) hprivate
  have hpages' : s.data.priNrPages = _ := congrArg (·.2.1) hprivate
  have hkeys' : s.data.priNrKeys = _ := congrArg (·.2.2) hprivate
  exact ⟨hbytes, hpages, hkeys, hbytes', hpages', hkeys', fun d hd => congrArg (·.1) (hused d hd),
    fun d hd => congrArg (·.2) (hused d hd)⟩

/-- Byte and page accounting is exact as long as no domain is destroyed. -/
theorem accounting_exact {y : System} {l : List (Call × Reply)} (h : Run Call.Keeps .start l y) :
    y.mcd.Exact := by
  obtain ⟨hc, hu⟩ := run_charged h
  exact exact_of_charged hc hu

/-- Calls that fill both modes, switch between them and evict. -/
def mixedCalls : List Call :=
  [⟨.calm, .enable⟩, ⟨.calm, .put 1 (.single 1) (.single 7)⟩,
    ⟨.calm, .check 1 (.single 2)⟩, ⟨.full .done, .put 1 (.single 3) (.single 8)⟩,
    ⟨.calm, .get 1 (.single 1) 10⟩, ⟨.calm, .cacheMode 0 1⟩, ⟨.calm, .memsize 5⟩,
    ⟨.calm, .put 1 (.single 1) (.single 9)⟩]

theorem accounting_exact_mixed :
    (System.start.replies (⟨.calm, .create 1⟩ :: mixedCalls)).isSome ∧
      (System.start.after (⟨.calm, .create 1⟩ :: mixedCalls)).mcd.Exact := by
  have hsome : (System.start.replies (⟨.calm, .create 1⟩ :: mixedCalls)).isSome := by
    decide +kernel
  have hfirst : Call.Keeps .start ⟨.calm, .create 1⟩ :=
    ⟨by simp [Cmd.Fresh, System.start, mcdStart, State.domids], id⟩
  have hrest : ∀ a ∈ mixedCalls, ∀ y, Call.Keeps y a := by
    simp [mixedCalls, Call.Keeps, Cmd.Fresh, Cmd.Destroys]
  obtain ⟨rs, hrs⟩ := Option.isSome_iff_exists.mp hsome
  exact ⟨hsome, accounting_exact (run_cons_after hfirst (run_after hrest) hrs)⟩

end UniCache.Mcd
