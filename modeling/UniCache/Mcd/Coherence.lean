import Mathlib.Data.List.Nodup
import UniCache.Base.LossyMap
import UniCache.Mcd.RefineFlush
import UniCache.Mcd.RefineGuest

/-! What the two tiers hold for a hash. The acts of the operations move a value between the tiers
or lose it; only linking an entry adds one. -/
namespace UniCache.Mcd

namespace Tiers

def homeOf (t : Tiers) (d : Domid) (h : UInt32) : Loc := t.cfg.cacheMode.home d h

theorem pageOutLoc_eq (t : Tiers) (mh : McdHashT) : t.pageOutLoc mh = t.homeOf mh.domain mh.hash := by
  unfold pageOutLoc homeOf
  cases t.cfg.cacheMode <;> rfl

/-- The outsourced bytes behind a header. -/
def file (t : Tiers) (mch : McdctlHashT) : List UInt8 := (t.store mch.domain mch.hash).getD []

/-- The hashes listed at `loc`, over both tiers. -/
def hashes (t : Tiers) (loc : Loc) : List UInt32 :=
  (t.entries loc).map (·.hash) ++ (t.headers loc).map (·.hash)

/-- One of the tiers holds the value `v` for hash `h`. -/
inductive Stored (t : Tiers) (loc : Loc) (h : UInt32) (v : List UInt8) : Prop
  | entry (mh : McdHashT) (mem : mh ∈ t.entries loc) (hash : mh.hash = h) (value : mh.value = v)
  | header (mch : McdctlHashT) (mem : mch ∈ t.headers loc) (hash : mch.hash = h)
      (value : (t.file mch).drop mch.keySize.toNat = v)

/-- In the lists of the current mode every hash is at home and occurs once over both tiers, and
the file behind a header is complete. -/
structure Tidy (t : Tiers) : Prop where
  entry_home : ∀ loc, t.Current loc → ∀ mh ∈ t.entries loc, t.homeOf mh.domain mh.hash = loc
  header_home : ∀ loc, t.Current loc → ∀ mch ∈ t.headers loc, t.homeOf mch.domain mch.hash = loc
  nodup : ∀ loc, t.Current loc → (t.hashes loc).Nodup
  complete : ∀ loc, t.Current loc → ∀ mch ∈ t.headers loc,
    (t.file mch).length = mch.keySize.toNat + mch.valSize.toNat

/-- Everything `t` holds in the lists of the current mode is held by `s` too. -/
def Keeps (s t : Tiers) : Prop :=
  ∀ loc, s.Current loc → ∀ h v, t.Stored loc h v → s.Stored loc h v

end Tiers

open Tiers

variable {c : Ctx} {s t u : Tiers} {loc : Loc} {mh : McdHashT} {mch : McdctlHashT} {hash : UInt32}

theorem keeps_refl (t : Tiers) : t.Keeps t := fun _ _ _ _ h => h

theorem Tiers.Keeps.trans (h₁ : s.Keeps t) (h₂ : t.Keeps u) (hcfg : t.cfg = s.cfg) : s.Keeps u := by
  intro loc hcur h v hv
  have hcur' : t.Current loc := by
    unfold Current
    rw [hcfg]
    exact hcur
  exact h₁ loc hcur h v (h₂ loc hcur' h v hv)

/-- Entries and headers were only taken away, and the remaining headers kept their files. -/
structure Shrinks (s t : Tiers) : Prop where
  cfg : t.cfg = s.cfg
  entries : ∀ loc, (t.entries loc).Sublist (s.entries loc)
  headers : ∀ loc, (t.headers loc).Sublist (s.headers loc)
  file : ∀ loc, s.Current loc → ∀ mch ∈ t.headers loc, t.file mch = s.file mch

theorem Shrinks.hashes_sublist (h : Shrinks s t) (loc : Loc) :
    (t.hashes loc).Sublist (s.hashes loc) :=
  ((h.entries loc).map _).append ((h.headers loc).map _)

theorem Shrinks.keeps (h : Shrinks s t) : s.Keeps t := by
  intro loc hcur x v hv
  cases hv with
  | entry mh mem hx value => exact .entry mh ((h.entries loc).subset mem) hx value
  | header mch mem hx value =>
    refine .header mch ((h.headers loc).subset mem) hx ?_
    rw [← h.file loc hcur mch mem]
    exact value

theorem Shrinks.tidy (h : Shrinks s t) (hs : s.Tidy) : t.Tidy := by
  have hcur : ∀ loc, t.Current loc → s.Current loc := by
    intro loc hl
    unfold Current at hl ⊢
    rwa [h.cfg] at hl
  have hhome : ∀ d x, t.homeOf d x = s.homeOf d x := by
    intro d x
    unfold homeOf
    rw [h.cfg]
  refine ⟨fun loc hl mh hm => ?_, fun loc hl mch hm => ?_, fun loc hl => ?_, fun loc hl mch hm => ?_⟩
  · rw [hhome]
    exact hs.entry_home loc (hcur loc hl) mh ((h.entries loc).subset hm)
  · rw [hhome]
    exact hs.header_home loc (hcur loc hl) mch ((h.headers loc).subset hm)
  · exact (hs.nodup loc (hcur loc hl)).sublist (h.hashes_sublist loc)
  · rw [h.file loc (hcur loc hl) mch hm]
    exact hs.complete loc (hcur loc hl) mch ((h.headers loc).subset hm)

theorem shrinks_drop (t : Tiers) (loc : Loc) (mh : McdHashT) : Shrinks t (t.drop loc mh) where
  cfg := rfl
  entries l := Base.update_erase_sublist t.entries loc mh l
  headers _ := List.Sublist.refl _
  file _ _ _ _ := rfl

/-- Dropping an entry takes its hash off the list. -/
theorem hashes_drop_perm (hmem : mh ∈ t.entries loc) :
    (t.hashes loc).Perm (mh.hash :: (t.drop loc mh).hashes loc) := by
  have he : (t.drop loc mh).entries loc = (t.entries loc).erase mh := Function.update_self ..
  unfold hashes
  rw [he, ← List.cons_append]
  exact ((List.perm_cons_erase hmem).map (·.hash)).append_right _

theorem not_mem_hashes_drop (ht : t.Tidy) (hcur : t.Current loc) (hmem : mh ∈ t.entries loc) :
    mh.hash ∉ (t.drop loc mh).hashes loc :=
  (List.nodup_cons.mp ((hashes_drop_perm hmem).nodup_iff.mp (ht.nodup loc hcur))).1

/-- The hash and domain of a listed header tell where it is listed. -/
theorem Tiers.Tidy.loc_eq (ht : t.Tidy) {l : Loc} {m : McdctlHashT} (hl : t.Current l)
    (hm : m ∈ t.headers l) (hloc : t.homeOf mch.domain mch.hash = loc) (hd : m.domain = mch.domain)
    (hh : m.hash = mch.hash) : l = loc := by
  have hhome := ht.header_home l hl m hm
  rw [hd, hh, hloc] at hhome
  exact hhome.symm

theorem file_set_of_ne {st : Store} {d : Domid} {x : Option (List UInt8)} {m : McdctlHashT}
    (h : ¬ (m.domain = d ∧ m.hash = hash)) :
    ((st.set d hash x) m.domain m.hash).getD [] = (st m.domain m.hash).getD [] := by
  unfold Store.set
  rw [if_neg h]

theorem hashes_unlink_perm (hmem : mch ∈ t.headers loc) (st : Store) :
    (t.hashes loc).Perm (mch.hash ::
      Tiers.hashes { t.setHeaders loc ((t.headers loc).erase mch) with store := st } loc) := by
  have hh : (t.setHeaders loc ((t.headers loc).erase mch)).headers loc = (t.headers loc).erase mch :=
    Function.update_self ..
  have hperm := (List.perm_cons_erase hmem).map (·.hash)
  unfold hashes
  rw [hh]
  exact (hperm.append_left _).trans List.perm_middle

/-- A header goes, and with it possibly its file. -/
theorem shrinks_unlink (ht : t.Tidy) (hcur : t.Current loc) (hmem : mch ∈ t.headers loc) {st : Store}
    (hst : st = t.store ∨ st = t.store.set mch.domain mch.hash none) :
    Shrinks t { t.setHeaders loc ((t.headers loc).erase mch) with store := st } ∧
      mch.hash ∉ Tiers.hashes { t.setHeaders loc ((t.headers loc).erase mch) with store := st } loc := by
  have hgone := (List.nodup_cons.mp
    ((hashes_unlink_perm hmem st).nodup_iff.mp (ht.nodup loc hcur))).1
  have hsub := Base.update_erase_sublist t.headers loc mch
  refine ⟨⟨rfl, fun _ => List.Sublist.refl _, hsub, fun l hl m hm => ?_⟩, hgone⟩
  rcases hst with rfl | rfl
  · rfl
  · refine file_set_of_ne fun ⟨hd, hh⟩ => ?_
    -- a second header of the same file would repeat the hash in the same list
    have hmt : m ∈ t.headers l := (hsub l).subset hm
    have hl' : l = loc := ht.loc_eq hl hmt (ht.header_home loc hcur mch hmem) hd hh
    apply hgone
    unfold hashes
    refine List.mem_append_right _ (List.mem_map.mpr ⟨m, ?_, hh⟩)
    rw [hl'] at hm
    exact hm

/-- What is held after a value was added at `loc`. -/
def HeldOr (s t : Tiers) (loc : Loc) (hash : UInt32) (v : List UInt8) : Prop :=
  ∀ l, s.Current l → ∀ h x, t.Stored l h x →
    s.Stored l h x ∨ (l = loc ∧ h = hash ∧ x = v)

theorem link_tidy (ht : t.Tidy) (hcur : t.Current loc) (hhome : t.homeOf mh.domain mh.hash = loc)
    (hnew : mh.hash ∉ t.hashes loc) :
    (t.link loc mh).Tidy ∧ HeldOr t (t.link loc mh) loc mh.hash mh.value := by
  have hent : ∀ l, ∀ m ∈ (t.link loc mh).entries l, m ∈ t.entries l ∨ (l = loc ∧ m = mh) := by
    intro l m hm
    exact Base.mem_of_update_append hm
  have hperm : ((t.link loc mh).hashes loc).Perm (mh.hash :: t.hashes loc) := by
    have he : (t.link loc mh).entries loc = t.entries loc ++ [mh] := Function.update_self ..
    unfold hashes
    rw [he, List.map_append, List.append_assoc]
    exact List.perm_middle
  refine ⟨⟨fun l hl m hm => ?_, ht.header_home, fun l hl => ?_, ht.complete⟩, fun l hl h x hx => ?_⟩
  · rcases hent l m hm with hold | ⟨rfl, rfl⟩
    · exact ht.entry_home l hl m hold
    · exact hhome
  · by_cases h : l = loc
    · rw [h]
      exact hperm.nodup_iff.mpr (List.nodup_cons.mpr ⟨hnew, ht.nodup loc hcur⟩)
    · have he : (t.link loc mh).hashes l = t.hashes l := by
        have hl' : (t.link loc mh).entries l = t.entries l := Function.update_of_ne h ..
        unfold hashes
        rw [hl']
        rfl
      rw [he]
      exact ht.nodup l hl
  · cases hx with
    | entry m mem hash value =>
      rcases hent l m mem with hold | ⟨rfl, rfl⟩
      · exact .inl (.entry m hold hash value)
      · exact .inr ⟨rfl, hash.symm, value.symm⟩
    | header m mem hash value => exact .inl (.header m mem hash value)

theorem outsource_tidy (ht : t.Tidy) (hcur : t.Current loc)
    (hhome : t.homeOf mh.domain mh.hash = loc) (hnew : mh.hash ∉ t.hashes loc) (page slot : Nat) :
    (t.outsource mh (some mh.keyVal) page slot).Tidy ∧
      HeldOr t (t.outsource mh (some mh.keyVal) page slot) loc mh.hash mh.value := by
  have hloc : t.pageOutLoc mh = loc := by rw [pageOutLoc_eq, hhome]
  set o := t.outsource mh (some mh.keyVal) page slot with ho
  have hheaders : o.headers =
      Function.update t.headers loc (t.headers loc ++ [mh.header page slot]) := by
    rw [ho, ← hloc]
    rfl
  have hhead : ∀ l, ∀ m ∈ o.headers l, m ∈ t.headers l ∨ (l = loc ∧ m = mh.header page slot) := by
    intro l m hm
    rw [hheaders] at hm
    exact Base.mem_of_update_append hm
  -- the file written belongs to no header listed before
  have hold : ∀ l, t.Current l → ∀ m ∈ t.headers l, o.file m = t.file m := by
    intro l hl m hm
    refine file_set_of_ne fun ⟨hd, hh⟩ => hnew ?_
    have hhome' : t.homeOf (mh.header page slot).domain (mh.header page slot).hash = loc := hhome
    have hl' : l = loc := ht.loc_eq hl hm hhome' hd hh
    rw [hl'] at hm
    exact List.mem_append_right _ (List.mem_map.mpr ⟨m, hm, hh⟩)
  have hfile : o.file (mh.header page slot) = mh.keyVal := by
    show ((t.store.set mh.domain mh.hash (some mh.keyVal)) mh.domain mh.hash).getD [] = _
    simp [Store.set]
  have hperm : (o.hashes loc).Perm (mh.hash :: t.hashes loc) := by
    unfold hashes
    rw [hheaders, Function.update_self, List.map_append, ← List.append_assoc]
    exact List.perm_append_comm
  refine ⟨⟨ht.entry_home, fun l hl m hm => ?_, fun l hl => ?_, fun l hl m hm => ?_⟩,
    fun l hl h x hx => ?_⟩
  · rcases hhead l m hm with hm | ⟨rfl, rfl⟩
    · exact ht.header_home l hl m hm
    · exact hhome
  · by_cases h : l = loc
    · rw [h]
      exact hperm.nodup_iff.mpr (List.nodup_cons.mpr ⟨hnew, ht.nodup loc hcur⟩)
    · have he : o.hashes l = t.hashes l := by
        unfold hashes
        rw [hheaders, Function.update_of_ne h]
        rfl
      rw [he]
      exact ht.nodup l hl
  · rcases hhead l m hm with hm | ⟨rfl, rfl⟩
    · rw [hold l hl m hm]
      exact ht.complete l hl m hm
    · rw [hfile]
      exact mh.keyVal_length
  · cases hx with
    | entry m mem hash value => exact .inl (.entry m mem hash value)
    | header m mem hash value =>
      rcases hhead l m mem with hm | ⟨rfl, rfl⟩
      · rw [hold l hl m hm] at value
        exact .inl (.header m hm hash value)
      · rw [hfile] at value
        exact .inr ⟨rfl, hash.symm, value.symm⟩

/-- No page-out that was accepted breaks off. -/
def Env.Unbroken (e : Env) : Prop := ∀ n left, e.pageOut n ≠ .broken left

theorem Env.Unbroken.file {e : Env} (h : e.Unbroken) (n : Nat) :
    (e.pageOut n).file mh = some mh.keyVal := by
  cases hn : e.pageOut n with
  | done => rfl
  | refused => rfl
  | broken left => exact (h n left hn).elim

/-- A removal moves the value to the other tier or loses it. -/
theorem Removal.tidy (h : Removal c t loc mh u) (hcur : t.Current loc) (hc : c.Unbroken)
    (ht : t.Tidy) : u.Tidy ∧ t.Keeps u := by
  cases h with
  | drop mem =>
    have hd := shrinks_drop t loc mh
    exact ⟨hd.tidy ht, hd.keeps⟩
  | evict mem normal on n read accepted page slot =>
    subst read
    rw [hc.file n]
    have hd := shrinks_drop t loc mh
    have hhome : (t.drop loc mh).homeOf mh.domain mh.hash = loc := ht.entry_home loc hcur mh mem
    obtain ⟨htidy, hheld⟩ := outsource_tidy (hd.tidy ht) hcur hhome
      (not_mem_hashes_drop ht hcur mem) page slot
    refine ⟨htidy, fun l hl h x hx => ?_⟩
    rcases hheld l hl h x hx with hold | ⟨rfl, rfl, rfl⟩
    · exact hd.keeps l hl h x hold
    · exact .entry mh mem rfl rfl

/-- Making room loses keys and changes none. -/
theorem Clears.tidy {k : Nat} (h : Clears c s.Current s t k) (hc : c.Unbroken) (hs : s.Tidy) :
    t.Tidy ∧ s.Keeps t := by
  obtain ⟨l, hl, hP, -⟩ := h
  have key : ∀ {a b : Tiers} {l}, Removals c a l b → a.cfg = s.cfg → (∀ x ∈ l, s.Current x.1) →
      a.Tidy → b.Tidy ∧ a.Keeps b := by
    intro a b l hl
    induction hl with
    | nil t => exact fun _ _ ht => ⟨ht, keeps_refl t⟩
    | @cons t u v loc mh rest hr _ ih =>
      intro hcfg hP ht
      have hcur : t.Current loc := by
        have h := hP (loc, mh) List.mem_cons_self
        unfold Current at h ⊢
        rwa [hcfg]
      obtain ⟨hu, hk⟩ := hr.tidy hcur hc ht
      have hcu : u.cfg = t.cfg := hr.cfg_eq
      obtain ⟨hv, hk'⟩ := ih (hcu.trans hcfg) (fun x hx => hP x (List.mem_cons_of_mem _ hx)) hu
      exact ⟨hv, hk.trans hk' hcu⟩
  exact key hl rfl hP hs

theorem mem_hashes_iff : hash ∈ t.hashes loc ↔ ∃ v, t.Stored loc hash v := by
  unfold hashes
  rw [List.mem_append, List.mem_map, List.mem_map]
  constructor
  · rintro (⟨mh, hm, hh⟩ | ⟨mch, hm, hh⟩)
    · exact ⟨_, .entry mh hm hh rfl⟩
    · exact ⟨_, .header mch hm hh rfl⟩
  · rintro ⟨v, hv⟩
    cases hv with
    | entry mh mem hash _ => exact .inl ⟨mh, mem, hash⟩
    | header mch mem hash _ => exact .inr ⟨mch, mem, hash⟩

theorem Tiers.Keeps.not_mem (h : s.Keeps t) (hcur : s.Current loc) (hs : hash ∉ s.hashes loc) :
    hash ∉ t.hashes loc := by
  rw [mem_hashes_iff] at hs ⊢
  rintro ⟨v, hv⟩
  exact hs ⟨v, h loc hcur hash v hv⟩

theorem not_mem_map_of_find_none {l : List McdHashT} (h : findMcdHashT hash l = none) :
    hash ∉ l.map (·.hash) := by
  unfold findMcdHashT at h
  rw [List.mem_map]
  rintro ⟨mh, hm, hh⟩
  have hne := List.find?_eq_none.mp h mh hm
  exact hne (by simpa using hh)

theorem Forgets.spec (h : Forgets s loc hash t) (hcur : s.Current loc) (hon : s.outsourcing)
    (hs : s.Tidy) (habs : findMcdHashT hash (s.entries loc) = none) :
    Shrinks s t ∧ hash ∉ t.hashes loc := by
  have hentries := not_mem_map_of_find_none habs
  rcases h with ⟨hnone, rfl⟩ | ⟨mch, hfind, st, hst, rfl⟩
  · refine ⟨⟨rfl, fun _ => .refl _, fun _ => .refl _, fun _ _ _ _ => rfl⟩, ?_⟩
    intro hmem
    rcases List.mem_append.mp hmem with hmem | hmem
    · exact hentries hmem
    · obtain ⟨mch, hm, hh⟩ := List.mem_map.mp hmem
      have hne := List.find?_eq_none.mp hnone mch hm
      exact hne (by simpa using hh)
  · rw [if_pos hon]
    have hhash : mch.hash = hash := by
      have hp := List.find?_some hfind
      simpa using hp
    rw [← hhash]
    exact shrinks_unlink hs hcur (List.mem_of_find?_eq_some hfind) hst

/-- After a `remove`, or the first half of a `put` that discards, nothing is left of the hash. -/
theorem Discards.spec (h : Discards s loc hash t) (hcur : s.Current loc) (hon : s.outsourcing)
    (hs : s.Tidy) : Shrinks s t ∧ hash ∉ t.hashes loc := by
  rcases h with ⟨mh, hfind, rfl⟩ | ⟨habs, hforget⟩
  · obtain ⟨hmem, rfl⟩ := findMcdHashT_mem hfind
    exact ⟨shrinks_drop s loc mh, not_mem_hashes_drop hs hcur hmem⟩
  · exact hforget.spec hcur hon hs habs

theorem Tiers.Tidy.of_link (hs : s.Tidy) (hcl : Clears c s.Current s u 0) (hc : c.Unbroken)
    (hcur : s.Current loc) (hhome : s.homeOf mh.domain mh.hash = loc)
    (hnew : mh.hash ∉ s.hashes loc) :
    (u.link loc mh).Tidy ∧ HeldOr s (u.link loc mh) loc mh.hash mh.value := by
  obtain ⟨hu, hk⟩ := hcl.tidy hc hs
  have hcfg := hcl.cfg_eq
  have hcur' : ∀ l, s.Current l → u.Current l := by
    intro l hl
    unfold Current at hl ⊢
    rwa [hcfg]
  have hhome' : u.homeOf mh.domain mh.hash = loc := by
    unfold homeOf at hhome ⊢
    rwa [hcfg]
  obtain ⟨ht, hheld⟩ := link_tidy hu (hcur' loc hcur) hhome' (hk.not_mem hcur hnew)
  refine ⟨ht, fun l hl h x hx => ?_⟩
  rcases hheld l (hcur' l hl) h x hx with hold | hnew
  · exact .inl (hk l hl h x hold)
  · exact .inr hnew

theorem touch_tidy (ht : t.Tidy) (loc : Loc) (mh : McdHashT) (now : Int) :
    (t.touch loc mh now).Tidy ∧ t.Keeps (t.touch loc mh now) := by
  -- a touched entry keeps its domain, hash and value
  let key : McdHashT → Domid × UInt32 × List UInt8 := fun m => (m.domain, m.hash, m.value)
  have hmem : ∀ l, ∀ m ∈ (t.touch loc mh now).entries l, ∃ m₀ ∈ t.entries l, key m₀ = key m := by
    intro l m hm
    have hk : key m ∈ ((t.touch loc mh now).entries l).map key := List.mem_map_of_mem hm
    rw [map_entries_touch (f := key) rfl] at hk
    exact List.mem_map.mp hk
  refine ⟨⟨fun l hl m hm => ?_, ht.header_home, fun l hl => ?_, ht.complete⟩, fun l hl h x hx => ?_⟩
  · obtain ⟨m₀, hm₀, hk⟩ := hmem l m hm
    have hd : m₀.domain = m.domain := congrArg (·.1) hk
    have hh : m₀.hash = m.hash := congrArg (·.2.1) hk
    have hhome := ht.entry_home l hl m₀ hm₀
    rw [hd, hh] at hhome
    exact hhome
  · have hh : (t.touch loc mh now).hashes l = t.hashes l := by
      unfold hashes
      rw [map_entries_touch (f := fun m => m.hash) rfl]
      rfl
    rw [hh]
    exact ht.nodup l hl
  · cases hx with
    | entry m mem hash value =>
      obtain ⟨m₀, hm₀, hk⟩ := hmem l m mem
      exact .entry m₀ hm₀ ((congrArg (·.2.1) hk).trans hash) ((congrArg (·.2.2) hk).trans value)
    | header m mem hash value => exact .header m mem hash value

/-- Page-ins complete: they return the whole file and delete it. -/
def Env.Fetches (e : Env) : Prop := ∀ n, e.pageIn n = .done

theorem Fetched.value {before after : Store} (h : Fetched c before mch mh after) (hin : c.Fetches)
    (hlen : ((before mch.domain mch.hash).getD []).length = mch.keySize.toNat + mch.valSize.toNat) :
    after = before.set mch.domain mch.hash none ∧
      mh.value = ((before mch.domain mch.hash).getD []).drop mch.keySize.toNat := by
  obtain ⟨n, stale, ⟨-, hafter, hkv⟩ | ⟨got, hfail, -, -⟩⟩ := h.transfer
  · refine ⟨hafter, ?_⟩
    unfold McdHashT.value
    rw [hkv, h.keySize, fillBuf_full stale hlen]
  · rw [hin n] at hfail
    exact PageIn.noConfusion hfail

/-- A page-in moves the value of its header to memory. -/
theorem Loads.tidy (h : Loads c s loc mch mh t) (hmem : mch ∈ s.headers loc) (hcur : s.Current loc)
    (hc : c.Unbroken) (hin : c.Fetches) (hs : s.Tidy) :
    t.Tidy ∧ s.Keeps t ∧ s.Stored loc mch.hash mh.value := by
  obtain ⟨-, u, st, hcl, -, hfetch, rfl⟩ := h
  obtain ⟨hu, hk⟩ := hcl.tidy hc hs
  have hcur' : ∀ l, s.Current l → u.Current l := by
    intro l hl
    unfold Current at hl ⊢
    rwa [hcl.cfg_eq]
  have hmem' : mch ∈ u.headers loc := hcl.headers_subset loc hmem
  obtain ⟨hst, hvalue⟩ := hfetch.value hin (hu.complete loc (hcur' loc hcur) mch hmem')
  obtain ⟨hshrink, hgone⟩ := shrinks_unlink hu (hcur' loc hcur) hmem' (.inr hst)
  have hstored : u.Stored loc mch.hash mh.value := .header mch hmem' rfl hvalue.symm
  have hhome : u.homeOf mh.domain mh.hash = loc := by
    rw [hfetch.domain, hfetch.hash]
    exact hu.header_home loc (hcur' loc hcur) mch hmem'
  rw [← hfetch.hash] at hgone
  obtain ⟨ht, hheld⟩ := link_tidy (hshrink.tidy hu) (hcur' loc hcur) hhome hgone
  refine ⟨ht, fun l hl h x hx => ?_, hk loc hcur _ _ hstored⟩
  rcases hheld l (hcur' l hl) h x hx with hold | ⟨rfl, rfl, rfl⟩
  · exact hk l hl h x (hshrink.keeps l (hcur' l hl) h x hold)
  · rw [hfetch.hash]
    exact hk l hl _ _ hstored

/-- The codes of a `get` that delivers. -/
def Reply.Hit (r : Reply) : Prop := r.rc = .retGetMem ∨ r.rc = .retGetSsd

theorem Delivers.value {cap : UInt32} {rc : Rc} {r : Reply} (h : Delivers mh cap rc r)
    (hr : r.Hit) : r.val = some mh.value := by
  rcases h with ⟨-, rfl⟩ | ⟨-, rfl⟩
  · rcases hr with hr | hr
    · exact Rc.noConfusion hr
    · exact Rc.noConfusion hr
  · rfl

/-- A `get` changes nothing that is held, and delivers what was held. -/
theorem Gets.spec {cap : UInt32} {r : Reply} (h : Gets c s loc hash cap r t) (hcur : s.Current loc)
    (hc : c.Unbroken) (hin : c.Fetches) (hs : s.Tidy) :
    t.cfg = s.cfg ∧ t.Tidy ∧ s.Keeps t ∧
      (r.Hit → ∃ v, r.val = some v ∧ s.Stored loc hash v) := by
  cases h with
  | hit mh now find reply after =>
    subst after
    obtain ⟨hmem, hhash⟩ := findMcdHashT_mem find
    obtain ⟨ht, hk⟩ := touch_tidy hs loc mh now
    exact ⟨rfl, ht, hk, fun hr => ⟨_, reply.value hr, .entry mh hmem hhash rfl⟩⟩
  | load mch mh u now absent find on loads reply after =>
    subst after
    have hmem := List.mem_of_find?_eq_some find
    have hhash : mch.hash = hash := by
      have hp := List.find?_some find
      simpa using hp
    have hcfg : u.cfg = s.cfg := by
      obtain ⟨-, w, st, hcl, -, -, rfl⟩ := loads
      exact hcl.cfg_eq
    obtain ⟨hu, hk, hstored⟩ := loads.tidy hmem hcur hc hin hs
    obtain ⟨ht, hk'⟩ := touch_tidy hu loc mh now
    rw [hhash] at hstored
    exact ⟨hcfg, ht, hk.trans hk' hcfg, fun hr => ⟨_, reply.value hr, hstored⟩⟩
  | miss absent reply clears =>
    subst reply
    obtain ⟨ht, hk⟩ := clears.tidy hc hs
    refine ⟨clears.cfg_eq, ht, hk, fun hr => ?_⟩
    rcases hr with hr | hr
    · exact Rc.noConfusion hr
    · exact Rc.noConfusion hr

theorem not_stored_of_nil {h : UInt32} {v : List UInt8} (he : t.entries loc = [])
    (hh : t.headers loc = []) : ¬ t.Stored loc h v := by
  intro hv
  cases hv with
  | entry m mem _ _ =>
    rw [he] at mem
    exact List.not_mem_nil mem
  | header m mem _ _ =>
    rw [hh] at mem
    exact List.not_mem_nil mem

theorem shrinks_forgetShared (st : Store) (hm : t.cfg.cacheMode = .shared) :
    Shrinks t (t.forgetShared st) where
  cfg := rfl
  entries _ := .refl _
  headers l := by
    cases l with
    | bucket i => exact List.nil_sublist _
    | dom d => exact .refl _
  file l hl m mem := by
    cases l with
    | bucket i => exact (List.not_mem_nil mem).elim
    | dom d =>
      have hd : CacheMode.partition = t.cfg.cacheMode := hl
      rw [hm] at hd
      exact CacheMode.noConfusion hd

/-- A flush of one domain's list leaves the other domains' files alone. -/
theorem shrinks_forgetDom (ht : t.Tidy) (hm : t.cfg.cacheMode = .partition) {id : Domid}
    {st : Store} (hst : st = t.store ∨ st = fun d x => if d = id then none else t.store d x) :
    Shrinks t (t.forgetDom id st) := by
  have hlist : ∀ l, l ≠ .dom id → (t.forgetDom id st).headers l = t.headers l :=
    fun l hl => Function.update_of_ne hl ..
  have hnil : (t.forgetDom id st).headers (.dom id) = [] := Function.update_self ..
  refine ⟨rfl, fun _ => .refl _, fun l => ?_, fun l hl m mem => ?_⟩
  · by_cases h : l = .dom id
    · rw [h, hnil]
      exact List.nil_sublist _
    · rw [hlist l h]
  · by_cases h : l = .dom id
    · rw [h, hnil] at mem
      exact (List.not_mem_nil mem).elim
    · rw [hlist l h] at mem
      have hhome := ht.header_home l hl m mem
      have hne : m.domain ≠ id := by
        rintro rfl
        unfold homeOf at hhome
        rw [hm] at hhome
        exact h hhome.symm
      rcases hst with rfl | rfl
      · rfl
      · show (if m.domain = id then none else t.store m.domain m.hash).getD [] = _
        rw [if_neg hne]
        rfl

end UniCache.Mcd
