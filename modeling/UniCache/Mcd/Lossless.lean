import UniCache.Mcd.CoherentRuns
import UniCache.Mcd.Reclaim

/-! Shared mode when every transfer completes: memory and the daemon's files together hold exactly
what the history has written, however little memory there is. -/
namespace UniCache.Mcd
open Base Base.Exec Base.LossyMap Tiers

/-- Every page-out completes. -/
def Env.Completes (e : Env) : Prop := ∀ n, e.pageOut n = .done

theorem Env.Completes.unbroken {e : Env} (h : e.Completes) : e.Unbroken := by
  intro n left hn
  rw [h n] at hn
  cases hn

/-- A guest operation that leaves no entry without a value behind: such entries are never paged
out. -/
def Cmd.Valued : Cmd → Prop
  | .put _ _ v => v.size ≠ 0
  | _ => True

/-- A shared cache with outsourcing on in which every entry may be paged out. -/
structure Safe (t : Tiers) : Prop where
  inOrder : InOrder .shared t
  entries : ∀ i, ∀ mh ∈ t.entries (.bucket i), mh.flags = mcdHashTNormal ∧ mh.valSize ≠ 0
  headers : ∀ i, ∀ mch ∈ t.headers (.bucket i), mch.valSize ≠ 0

/-- What the buckets of `s` hold the buckets of `t` hold too. -/
def Carries (s t : Tiers) : Prop :=
  ∀ i h v, s.Stored (.bucket i) h v → t.Stored (.bucket i) h v

section
variable {c : Ctx} {s t u : Tiers} {i j : Bucket} {mh : McdHashT} {mch : McdctlHashT}
  {hash : UInt32} {v : List UInt8}

theorem carries_refl (t : Tiers) : Carries t t := fun _ _ _ h => h

theorem Carries.trans (h₁ : Carries s t) (h₂ : Carries t u) : Carries s u :=
  fun i h v hv => h₂ i h v (h₁ i h v hv)

theorem Safe.current (hs : Safe s) (i : Bucket) : s.Current (.bucket i) := hs.inOrder.mode.symm

theorem Safe.home_eq (hs : Safe s) (d : Domid) (h : UInt32) :
    s.homeOf d h = .bucket (bucketOf h) := by
  unfold homeOf
  rw [hs.inOrder.mode]
  rfl

theorem Safe.bucket_entry (hs : Safe s) (hm : mh ∈ s.entries (.bucket i)) :
    bucketOf mh.hash = i := by
  have hhome := hs.inOrder.tidy.entry_home _ (hs.current i) mh hm
  rw [hs.home_eq] at hhome
  exact Loc.bucket.inj hhome

theorem Safe.bucket_header (hs : Safe s) (hm : mch ∈ s.headers (.bucket i)) :
    bucketOf mch.hash = i := by
  have hhome := hs.inOrder.tidy.header_home _ (hs.current i) mch hm
  rw [hs.home_eq] at hhome
  exact Loc.bucket.inj hhome

theorem Safe.bucket_stored (hs : Safe s) (hv : s.Stored (.bucket i) hash v) :
    bucketOf hash = i := by
  cases hv with
  | entry m mem hh _ => rw [← hh, hs.bucket_entry mem]
  | header m mem hh _ => rw [← hh, hs.bucket_header mem]

/-- The other entries of a bucket stay. -/
theorem stored_drop (hv : s.Stored (.bucket j) hash v) (hne : hash ≠ mh.hash) :
    (s.drop (.bucket i) mh).Stored (.bucket j) hash v := by
  cases hv with
  | entry m mem hh value =>
    have hm : m ≠ mh := by
      rintro rfl
      exact hne hh.symm
    exact .entry m (mem_update_erase mem hm) hh value
  | header m mem hh value => exact .header m mem hh value

/-- An entry that is paged out moves to the other tier. -/
theorem evict_carries (hs : Safe s) (hm : mh ∈ s.entries (.bucket i)) (page slot : Nat) :
    Carries s ((s.drop (.bucket i) mh).outsource mh (some mh.keyVal) page slot) := by
  have hloc : (s.drop (.bucket i) mh).pageOutLoc mh = .bucket i := by
    rw [pageOutLoc_eq]
    exact (hs.home_eq mh.domain mh.hash).trans (by rw [hs.bucket_entry hm])
  have hheaders : ((s.drop (.bucket i) mh).outsource mh (some mh.keyVal) page slot).headers =
      Function.update s.headers (.bucket i) (s.headers (.bucket i) ++ [mh.header page slot]) := by
    unfold outsource
    rw [hloc]
    rfl
  intro j h v hv
  cases hv with
  | entry m mem hh value =>
    by_cases he : m = mh
    · subst he
      obtain rfl : i = j := (hs.bucket_entry hm).symm.trans (hs.bucket_entry mem)
      refine .header (m.header page slot) ?_ hh ?_
      · rw [hheaders, Function.update_self]
        exact List.mem_append_right _ List.mem_cons_self
      · have hfile : ((s.drop (.bucket i) m).outsource m (some m.keyVal) page slot).file
            (m.header page slot) = m.keyVal := by
          show ((s.store.set m.domain m.hash (some m.keyVal)) m.domain m.hash).getD [] = _
          simp [Store.set]
        rw [hfile]
        exact value
    · exact .entry m (mem_update_erase mem he) hh value
  | header m mem hh value =>
    refine .header m ?_ hh ?_
    · rw [hheaders]
      exact subset_update_append s.headers _ _ _ mem
    · -- a header of the same file would repeat the hash in the bucket
      have hother : ¬ (m.domain = mh.domain ∧ m.hash = mh.hash) := by
        rintro ⟨-, hsame⟩
        have hij : j = i := by rw [← hs.bucket_header mem, hsame, hs.bucket_entry hm]
        subst hij
        apply not_mem_hashes_drop hs.inOrder.tidy (hs.current j) hm
        rw [← hsame]
        exact List.mem_append_right _ (List.mem_map_of_mem mem)
      rw [← value]
      exact congrArg _ (file_set_of_ne hother)

theorem evict_safe (hc : c.Completes) (hs : Safe s) (hm : mh ∈ s.entries (.bucket i))
    (n page slot : Nat) :
    Safe ((s.drop (.bucket i) mh).outsource mh ((c.pageOut n).file mh) page slot) := by
  have hrem : Removal c s (.bucket i) mh
      ((s.drop (.bucket i) mh).outsource mh ((c.pageOut n).file mh) page slot) :=
    .evict hm (hs.entries i mh hm).1 hs.inOrder.on n rfl (by rw [hc n]; exact PageOut.noConfusion)
      page slot
  obtain ⟨htidy, -⟩ := hrem.tidy (hs.current i) hc.unbroken hs.inOrder.tidy
  refine ⟨hs.inOrder.of_cfg hrem.cfg_eq htidy, fun j m hmem => ?_, fun j m hmem => ?_⟩
  · exact hs.entries j m ((update_erase_sublist s.entries _ mh _).subset hmem)
  · rcases mem_of_update_append hmem with hold | ⟨-, rfl⟩
    · exact hs.headers j m hold
    · exact (hs.entries i mh hm).2

/-- A removal of the reclaim moves its entry to the other tier. -/
theorem Unlinks.carries (hc : c.Completes) (hs : Safe s) (hm : mh ∈ s.entries (.bucket i))
    (h : Unlinks c .moveToSsd (.bucket i) mh s t) : Carries s t ∧ Safe t := by
  cases h with
  | drop why after =>
    cases why with
    | unasked h => exact Move.noConfusion h
    | measurement h => exact absurd (hs.entries i mh hm).1 h
    | off h => exact absurd (hs.inOrder.on.symm.trans h) Bool.noConfusion
    | refused n h => exact PageOut.noConfusion ((hc n).symm.trans h)
  | evict _ _ _ n page slot _ after =>
    rw [after]
    refine ⟨?_, evict_safe hc hs hm n page slot⟩
    rw [hc n]
    exact evict_carries hs hm page slot

end

section
variable {c : Ctx} (hc : c.Completes)
include hc

theorem tally_carries :
    Tally c fun s t _ => Safe s.tiers → Carries s.tiers t.tiers ∧ Safe t.tiers where
  quiet h hs := by
    rw [h]
    exact ⟨carries_refl _, hs⟩
  trans h₁ h₂ hs := by
    obtain ⟨hst, ht⟩ := h₁ hs
    obtain ⟨htu, hu⟩ := h₂ ht
    exact ⟨hst.trans htu, hu⟩
  remove hm h hs := h.carries hc hs hm

omit hc in
theorem passive_carries :
    Passive fun s t => Safe s.tiers → Carries s.tiers t.tiers ∧ Safe t.tiers where
  refl s hs := ⟨carries_refl _, hs⟩
  trans h₁ h₂ hs := by
    obtain ⟨hst, ht⟩ := h₁ hs
    obtain ⟨htu, hu⟩ := h₂ ht
    exact ⟨hst.trans htu, hu⟩
  bump s hs := ⟨carries_refl _, hs⟩
  addr s _ hs := ⟨carries_refl _, hs⟩
  usage total id s hs := by
    rw [passive_quiet.usage total id s]
    exact ⟨carries_refl _, hs⟩

/-- Making room loses nothing. -/
theorem mcdMalloc_carries {size : UInt64} {id : Domid} {r : Option Nat} {s t : State}
    (h : Returns (mcdMalloc c size id) s r t) (hs : Safe s.tiers) :
    Carries s.tiers t.tiers ∧ Safe t.tiers := by
  refine passive_carries.mcdMalloc ?_ size s r t h hs
  intro amount s rc t h hs
  have hm : s.cacheMode = .shared := hs.inOrder.mode
  simp only [cacheFree, returns_bind, returns_get, and_assoc, exists_and_left, exists_eq_left,
    hm] at h
  obtain ⟨n, hcarries, -⟩ := sharedCacheFree_tally (tally_carries hc) h
  exact hcarries hs

end

section
variable {c : Ctx} {s t u : Tiers} {i j : Bucket} {mh : McdHashT} {mch : McdctlHashT}
  {hash : UInt32} {v : List UInt8}

theorem carries_link (t : Tiers) (loc : Loc) (mh : McdHashT) : Carries t (t.link loc mh) := by
  intro j h v hv
  cases hv with
  | entry m mem hh value => exact .entry m (subset_update_append t.entries _ _ _ mem) hh value
  | header m mem hh value => exact .header m mem hh value

theorem stored_link (t : Tiers) (loc : Loc) (mh : McdHashT) :
    (t.link loc mh).Stored loc mh.hash mh.value := by
  refine .entry mh ?_ rfl rfl
  show mh ∈ Function.update t.entries loc (t.entries loc ++ [mh]) loc
  rw [Function.update_self]
  exact List.mem_append_right _ List.mem_cons_self

theorem link_safe (hs : Safe s) (hi : bucketOf mh.hash = i) (hnew : mh.hash ∉ s.hashes (.bucket i))
    (hnormal : mh.flags = mcdHashTNormal) (hsize : mh.valSize ≠ 0) :
    Safe (s.link (.bucket i) mh) := by
  have hhome : s.homeOf mh.domain mh.hash = .bucket i := by rw [hs.home_eq, hi]
  obtain ⟨htidy, -⟩ := link_tidy hs.inOrder.tidy (hs.current i) hhome hnew
  refine ⟨hs.inOrder.of_cfg rfl htidy, fun j m hmem => ?_, hs.headers⟩
  rcases mem_of_update_append hmem with hold | ⟨-, rfl⟩
  · exact hs.entries j m hold
  · exact ⟨hnormal, hsize⟩

/-- Recording an access changes no value. -/
theorem touch_carries (hs : Safe s) (loc : Loc) (mh : McdHashT) (now : Int) :
    Carries s (s.touch loc mh now) ∧ Safe (s.touch loc mh now) := by
  let key : McdHashT → (UInt32 × List UInt8) × UInt16 × UInt32 :=
    fun m => ((m.hash, m.value), m.flags, m.valSize)
  have hkeys (l : Loc) : ((s.touch loc mh now).entries l).map key = (s.entries l).map key :=
    map_entries_touch (f := key) rfl s loc l
  refine ⟨fun j h v hv => ?_, ?_⟩
  · cases hv with
    | entry m mem hh value =>
      have hmem : key m ∈ ((s.touch loc mh now).entries (.bucket j)).map key := by
        rw [hkeys]
        exact List.mem_map_of_mem mem
      obtain ⟨m', hm', hkey⟩ := List.mem_map.mp hmem
      exact .entry m' hm' ((congrArg (·.1.1) hkey).trans hh) ((congrArg (·.1.2) hkey).trans value)
    | header m mem hh value => exact .header m mem hh value
  · obtain ⟨htidy, -⟩ := touch_tidy hs.inOrder.tidy loc mh now
    refine ⟨hs.inOrder.of_cfg rfl htidy, fun j m hm => ?_, hs.headers⟩
    have hmem : key m ∈ (s.entries (.bucket j)).map key := by
      rw [← hkeys]
      exact List.mem_map_of_mem hm
    obtain ⟨m', hm', hkey⟩ := List.mem_map.mp hmem
    have hflags : m'.flags = m.flags := congrArg (·.2.1) hkey
    have hsize : m'.valSize = m.valSize := congrArg (·.2.2) hkey
    rw [← hflags, ← hsize]
    exact hs.entries j m' hm'

theorem Shrinks.safe (h : Shrinks s t) (hs : Safe s) : Safe t where
  inOrder := hs.inOrder.of_cfg h.cfg (h.tidy hs.inOrder.tidy)
  entries j m hm := hs.entries j m ((h.entries _).subset hm)
  headers j m hm := hs.headers j m ((h.headers _).subset hm)

/-- The other hashes keep their values when a header goes. -/
theorem stored_unlink (hs : Safe s) (hm : mch ∈ s.headers (.bucket i)) {st : Store}
    (hst : st = s.store ∨ st = s.store.set mch.domain mch.hash none) (hne : hash ≠ mch.hash)
    (hv : s.Stored (.bucket j) hash v) :
    Tiers.Stored { s.setHeaders (.bucket i) ((s.headers (.bucket i)).erase mch) with store := st }
      (.bucket j) hash v := by
  obtain ⟨hshrink, -⟩ := shrinks_unlink hs.inOrder.tidy (hs.current i) hm hst
  cases hv with
  | entry m mem hh value => exact .entry m mem hh value
  | header m mem hh value =>
    have hother : m ≠ mch := by
      rintro rfl
      exact hne hh.symm
    have hmem : m ∈ Function.update s.headers (.bucket i) ((s.headers (.bucket i)).erase mch)
        (.bucket j) := mem_update_erase mem hother
    refine .header m hmem hh ?_
    rw [hshrink.file _ (hs.current j) m hmem]
    exact value

/-- What a `remove`, or the first half of a `put`, leaves of the other hashes. -/
theorem Discards.carries (h : Discards s (.bucket i) hash t) (hs : Safe s) :
    Safe t ∧ hash ∉ t.hashes (.bucket i) ∧
      ∀ j x v, x ≠ hash → s.Stored (.bucket j) x v → t.Stored (.bucket j) x v := by
  obtain ⟨hshrink, hgone⟩ := h.spec (hs.current i) hs.inOrder.on hs.inOrder.tidy
  refine ⟨hshrink.safe hs, hgone, fun j x v hne hv => ?_⟩
  rcases h with ⟨mh, hfind, rfl⟩ | ⟨-, ⟨-, rfl⟩ | ⟨mch, hfind, st, hst, rfl⟩⟩
  · obtain ⟨-, hhash⟩ := findMcdHashT_mem hfind
    exact stored_drop hv (by rw [hhash]; exact hne)
  · exact hv
  · have hhash : mch.hash = hash := by simpa using List.find?_some hfind
    rw [if_pos hs.inOrder.on]
    exact stored_unlink hs (List.mem_of_find?_eq_some hfind) hst (by rw [hhash]; exact hne) hv

/-- A page-in moves the value of its header to memory. -/
theorem load_carries {st : Store} (hs : Safe s) (hm : mch ∈ s.headers (.bucket i))
    (hin : c.Fetches) (hf : Fetched c s.store mch mh st)
    (ht : t = Tiers.link
      { s.setHeaders (.bucket i) ((s.headers (.bucket i)).erase mch) with store := st }
      (.bucket i) mh) :
    Carries s t ∧ Safe t := by
  obtain ⟨hst, hvalue⟩ := hf.value hin (hs.inOrder.tidy.complete _ (hs.current i) mch hm)
  obtain ⟨hshrink, hgone⟩ := shrinks_unlink hs.inOrder.tidy (hs.current i) hm (.inr hst)
  rw [← hf.hash] at hgone
  have hbucket : bucketOf mh.hash = i := by rw [hf.hash, hs.bucket_header hm]
  have hsize : mch.valSize ≠ 0 := hs.headers i mch hm
  rw [ht]
  refine ⟨fun j h v hv => ?_, link_safe (hshrink.safe hs) hbucket hgone
    (by rw [hf.flags, if_neg hsize]) (by rw [hf.valSize]; exact hsize)⟩
  by_cases hh : h = mch.hash
  · -- the one value of this hash was the header's
    subst hh
    obtain rfl : i = j := (hs.bucket_header hm).symm.trans (hs.bucket_stored hv)
    have hone : v = mh.value := by
      have hnd := hs.inOrder.tidy.nodup _ (hs.current i)
      cases hv with
      | entry m mem he _ =>
        have hleft : mch.hash ∈ (s.entries (.bucket i)).map (·.hash) :=
          he ▸ List.mem_map_of_mem mem
        exact absurd (List.mem_map_of_mem hm) (List.disjoint_of_nodup_append hnd hleft)
      | header m mem he value =>
        have hinj := List.inj_on_of_nodup_map (List.Nodup.of_append_right hnd) mem hm he
        rw [← value, hinj, hvalue]
        rfl
    rw [hone, ← hf.hash]
    exact stored_link ..
  · exact carries_link _ _ mh j h v (stored_unlink hs hm (.inr hst) hh hv)

end

section
variable {c : Ctx} {id : Domid} {k : GuestKey} {gv : GuestVal} {r : Reply} {s t : State}
  {i : Bucket} {hash cap : UInt32} {mch : McdctlHashT}

/-- The second half of a `put`: an allocation, and what follows it. -/
theorem putEntry_path {ms : UInt32} (h : Returns (putEntry c id k (.bucket i) gv ms) s r t) :
    ∃ val u, Returns (mcdMalloc c (entrySize k.size gv.size) id) s val u ∧
      (r = .code .errMcdFault ∧ t = u ∨
        ∃ mh, r.rc = .errNo ∧ Holds id k gv mh ∧
          (u.cacheMode = .shared → t.tiers = u.tiers.link (.bucket i) mh)) := by
  obtain ⟨o, s₁, hcreate, h⟩ := returns_bind.mp h
  obtain ⟨o', s₂, hraw, hfill⟩ := returns_bind.mp hcreate
  obtain ⟨val, u, hmalloc, hrest⟩ := returns_bind.mp hraw
  refine ⟨val, u, hmalloc, ?_⟩
  cases val with
  | none =>
    obtain ⟨rfl, rfl⟩ := returns_pure.mp hrest
    obtain ⟨rfl, rfl⟩ := returns_pure.mp hfill
    obtain ⟨rfl, rfl⟩ := returns_pure.mp h
    exact .inl ⟨rfl, rfl⟩
  | some addr =>
    obtain ⟨hsome, m, hm, rfl, rfl⟩ := (returns_createMcdHashT hmalloc).mp hraw
    obtain ⟨rfl, rfl⟩ := returns_pure.mp hfill
    obtain ⟨mh, s₃, hset, h⟩ := returns_bind.mp h
    obtain ⟨rfl, hq, -⟩ := setQueryTime_spec hset
    simp only [returns_bind, returns_modify, returns_pure, exists_and_left, exists_eq_left,
      exists_const] at h
    obtain ⟨rfl, rfl⟩ := h
    refine .inr ⟨{ m.fill k gv with queryTimeMs := ms }, rfl,
      ⟨by rw [hm]; rfl, by rw [hm]; rfl, rfl, rfl, rfl, rfl, by rw [hm]; rfl⟩, fun hmode => ?_⟩
    refine tiers_listAddTail (m := m) (show s₃.Has (.bucket i) from trivial) ?_ rfl rfl
    rw [hq, tiers_accounted hsome, hmode]
    show _ = u.tiers.charge m.domain .shared m
    rw [hm]
    rfl

/-- A page-in: an allocation, and what follows it. -/
theorem mcdPageIn_path {o : Option McdHashT} (hon : s.outsourcing = true)
    (h : Returns (mcdPageIn c (.bucket i) mch) s o t) :
    ∃ val u, Returns (mcdMalloc c (entrySize mch.keySize mch.valSize) mch.domain) s val u ∧
      (o = none ∧ val = none ∧ t = u ∨
        ∃ mh st, o = some mh ∧ Fetched c u.store mch mh st ∧
          (u.tiers.cfg = s.tiers.cfg → u.cacheMode = .shared →
            (t.listAddTail (.bucket i) mh).tiers =
              Tiers.link { u.tiers.setHeaders (.bucket i) ((u.headers (.bucket i)).erase mch) with
                store := st } (.bucket i) mh)) := by
  simp only [mcdPageIn, returns_bind, returns_get, and_assoc, exists_and_left, exists_eq_left] at h
  rw [if_neg (not_not_intro hon)] at h
  obtain ⟨o', s₁, hcreate, h⟩ := returns_bind.mp h
  obtain ⟨val, u, hmalloc, hrest⟩ := returns_bind.mp hcreate
  refine ⟨val, u, hmalloc, ?_⟩
  cases val with
  | none =>
    obtain ⟨rfl, rfl⟩ := returns_pure.mp hrest
    obtain ⟨rfl, rfl⟩ := returns_pure.mp h
    exact .inl ⟨rfl, rfl, rfl⟩
  | some addr =>
    obtain ⟨hsome, m, rfl, rfl, rfl⟩ := (returns_createMcdHashT hmalloc).mp hcreate
    obtain ⟨mh, s₂, htr, h⟩ := returns_bind.mp h
    obtain ⟨hfetch, hpages, htier, -⟩ := transferIn_spec htr
    by_cases hflag : mh.flags &&& mcdMinfError ≠ 0
    · rw [if_pos hflag] at h
      exact (returns_throw.mp h).elim
    · rw [if_neg hflag] at h
      obtain ⟨_, s₃, hfree, h⟩ := returns_bind.mp h
      obtain ⟨rfl, rfl⟩ := returns_pure.mp h
      refine .inr ⟨mh, s₂.store, rfl, hfetch, fun hcfg hmode => ?_⟩
      have hs₂ : s₂.Has (.bucket i) := trivial
      have hon₂ : s₂.tiers.outsourcing := by
        have hcfg₂ : s₂.tiers.cfg = s.tiers.cfg := by
          rw [htier, tiers_accounted hsome]
          exact hcfg
        unfold Tiers.outsourcing
        rw [hcfg₂]
        exact hon
      have hfreed := mcdctlFree_spec hfree hs₂
      rw [if_pos hon₂, htier, tiers_accounted hsome, hmode] at hfreed
      refine tiers_listAddTail (show t.Has (.bucket i) from trivial) ?_ hpages hfetch.nrBytes
      rw [hfreed]
      show _ = Tiers.charge _ mh.domain .shared _
      rw [hfetch.domain]
      rfl

end

section
variable {s t : Tiers} {e : Write (Loc × UInt32) (List UInt8)}

/-- What the buckets hold, hash by hash. -/
theorem retains_of_stored (hs : Safe s) (ht : Safe t)
    (hset : ∀ x v, e x = some (some v) → t.held x v)
    (hrest : ∀ h v, e (.bucket (bucketOf h), h) = none → s.Stored (.bucket (bucketOf h)) h v →
      t.Stored (.bucket (bucketOf h)) h v) : Retains e s.held t.held := by
  rintro ⟨loc, h⟩ v (hw | ⟨hnone, hcur, hv⟩)
  · exact hset _ v hw
  · cases loc with
    | bucket j =>
      obtain rfl : bucketOf h = j := hs.bucket_stored hv
      exact ⟨ht.current _, hrest h v hnone hv⟩
    | dom d =>
      have hmode : CacheMode.partition = s.cfg.cacheMode := hcur
      rw [hs.inOrder.mode] at hmode
      cases hmode

theorem retains_of_carries (hs : Safe s) (ht : Safe t) (h : Carries s t) :
    Retains (fun _ => none) s.held t.held :=
  retains_of_stored hs ht (fun _ _ h => by cases h) fun _ _ _ hv => h _ _ _ hv

end

section
variable {c : Ctx} {d : Domid} {k : GuestKey} {gv : GuestVal} {r : Reply} {s t : State}
  {cap : UInt32}

theorem Safe.home (hs : Safe s.tiers) (d : Domid) (k : GuestKey) :
    s.home d k = .bucket (bucketOf (getHash k.bytes)) := home_shared hs.inOrder.mode

theorem put_retains (hs : Safe s.tiers) (hc : c.Completes) (hk : k.Stable) (hv : gv.size ≠ 0)
    (h : Returns (mcdOp c (.put d k gv)) s r t) :
    Safe t.tiers ∧ Retains (Cmd.writes .shared (.put d k gv) r) s.tiers.held t.tiers.held := by
  obtain ⟨ms, u, hev, hdrop, -, hput⟩ := put_path h
  rw [hs.home] at hev hdrop hput
  have hdis :
      Discards s.tiers (.bucket (bucketOf (getHash k.bytes))) (getHash k.bytes) u.tiers := by
    cases hev with
    | header find forget => exact .inr ⟨find, forget⟩
    | entry mh find _ => exact .inl ⟨mh, find, hdrop hs.inOrder.mode mh find⟩
  obtain ⟨hu, hgone, hkept⟩ := hdis.carries hs
  obtain ⟨val, w, hmalloc, hend⟩ := putEntry_path hput
  obtain ⟨hcarry, hw⟩ := mcdMalloc_carries hc hmalloc hu
  have hother (h : UInt32) (v : List UInt8)
      (he : Cmd.writes .shared (.put d k gv) r (.bucket (bucketOf h), h) = none)
      (hst : s.tiers.Stored (.bucket (bucketOf h)) h v) :
      w.tiers.Stored (.bucket (bucketOf h)) h v := by
    refine hcarry _ h v (hkept _ h v ?_ hst)
    rintro rfl
    simp [Cmd.writes, CacheMode.home] at he
  rcases hend with ⟨rfl, rfl⟩ | ⟨mh, hrc, hmh, hlink⟩
  · refine ⟨hw, retains_of_stored hs hw (fun x v he => ?_) hother⟩
    by_cases hx : x = (CacheMode.shared.home d (getHash k.bytes), getHash k.bytes) <;>
      simp [Cmd.writes, hx, Reply.code] at he
  · have hhash : mh.hash = getHash k.bytes := by rw [hmh.hash, hk]
    have hnew : mh.hash ∉ w.tiers.hashes (.bucket (bucketOf (getHash k.bytes))) := by
      have hkeeps := ((mcdMalloc_spec hmalloc).1.tidy hc.unbroken hu.inOrder.tidy).2
      rw [hhash]
      exact hkeeps.not_mem (hu.current _) hgone
    have hlink' := hlink hw.inOrder.mode
    have ht : Safe t.tiers := by
      rw [hlink']
      exact link_safe hw (by rw [hhash]) hnew (by rw [hmh.flags, if_neg hv])
        (by rw [hmh.valSize]; exact hv)
    refine ⟨ht, retains_of_stored hs ht (fun x v he => ?_) fun h v he hst => ?_⟩
    · have hvalue : mh.value = gv.bytes := by
        unfold McdHashT.value
        rw [hmh.keyVal, hmh.keySize, ← k.again_length]
        exact List.drop_left
      by_cases hx : x = (CacheMode.shared.home d (getHash k.bytes), getHash k.bytes)
      · subst hx
        obtain rfl : gv.bytes = v := by simpa [Cmd.writes, hrc] using he
        refine ⟨ht.current _, ?_⟩
        rw [hlink', ← hvalue, ← hhash]
        exact stored_link ..
      · simp [Cmd.writes, hx] at he
    · rw [hlink']
      exact carries_link _ _ mh _ h v (hother h v he hst)

theorem get_retains (hs : Safe s.tiers) (hc : c.Completes) (hin : c.Fetches)
    (h : Returns (mcdOp c (.get d k cap)) s r t) :
    Safe t.tiers ∧ Retains (Cmd.writes .shared (.get d k cap) r) s.tiers.held t.tiers.held := by
  have hpath := get_path hs.inOrder.headersOwned h
  rw [hs.home] at hpath
  have hcarries : Carries s.tiers t.tiers ∧ Safe t.tiers := by
    cases hpath with
    | hit mh now _ _ after =>
      rw [after]
      exact touch_carries hs _ mh now
    | absent _ _ _ after =>
      rw [after]
      exact ⟨carries_refl _, hs⟩
    | refused mch _ _ pages =>
      obtain ⟨val, u, hmalloc, ⟨-, -, rfl⟩ | ⟨mh, st, hnone, -⟩⟩ :=
        mcdPageIn_path hs.inOrder.on pages
      · exact mcdMalloc_carries hc hmalloc hs
      · cases hnone
    | load mch mh w now _ find pages _ after =>
      obtain ⟨val, u, hmalloc, ⟨hnone, -⟩ | ⟨mh', st, heq, hf, hlink⟩⟩ :=
        mcdPageIn_path hs.inOrder.on pages
      · cases hnone
      · cases heq
        obtain ⟨hsu, hu⟩ := mcdMalloc_carries hc hmalloc hs
        have hmem : mch ∈ u.tiers.headers (.bucket (bucketOf (getHash k.bytes))) :=
          (mcdMalloc_spec hmalloc).1.headers_subset _ (List.mem_of_find?_eq_some find)
        obtain ⟨huw, hw⟩ := load_carries hu hmem hin hf
          (hlink (mcdMalloc_spec hmalloc).1.cfg_eq hu.inOrder.mode)
        obtain ⟨hwt, ht⟩ := touch_carries hw (.bucket (bucketOf (getHash k.bytes))) mh now
        rw [after]
        exact ⟨(hsu.trans huw).trans hwt, ht⟩
  exact ⟨hcarries.2, retains_of_carries hs hcarries.2 hcarries.1⟩

theorem remove_retains (hs : Safe s.tiers) (h : Returns (mcdOp c (.remove d k)) s r t) :
    Safe t.tiers ∧ Retains (Cmd.writes .shared (.remove d k) r) s.tiers.held t.tiers.held := by
  have hdis := (remove_discards h).2
  rw [hs.home] at hdis
  obtain ⟨ht, -, hkept⟩ := hdis.carries hs
  refine ⟨ht, retains_of_stored hs ht (fun x v he => ?_) fun x v he hst => hkept _ x v ?_ hst⟩
  · by_cases hx : x = (CacheMode.shared.home d (getHash k.bytes), getHash k.bytes) <;>
      simp [Cmd.writes, hx] at he
  · rintro rfl
    simp [Cmd.writes, CacheMode.home] at he

theorem flush_retains (hs : Safe s.tiers) (hc : c.Completes)
    (h : Returns (mcdOp c (.flush d)) s r t) :
    Safe t.tiers ∧ Retains (Cmd.writes .shared (.flush d) r) s.tiers.held t.tiers.held := by
  obtain ⟨hin, -⟩ := flush_follows hs.inOrder hc.unbroken h
  rcases mcdSubCall_spec h with ⟨-, h⟩ | ⟨hm, -⟩
  · obtain ⟨-, u, st, -, hnil, -, ht⟩ := sMcdFlush_spec h
    refine ⟨⟨hin, fun i m hm => ?_, fun i m hm => ?_⟩, fun x v hx => ?_⟩
    · rw [ht] at hm
      have hn : (u.forgetShared st).entries (.bucket i) = [] := hnil i
      rw [hn] at hm
      cases hm
    · rw [ht] at hm
      cases hm
    · simp [Cmd.writes] at hx
  · exact absurd (hs.inOrder.mode.symm.trans hm) CacheMode.noConfusion

/-- One hypercall of a guest loses nothing. -/
theorem call_retains {y z : System} {a : Call} (hy : Safe y.mcd.tiers) (hg : a.cmd.Guest)
    (hv : a.cmd.Valued) (hin : a.env.Fetches) (hc : a.env.Completes) (h : y.call a = .ok (r, z)) :
    Safe z.mcd.tiers ∧ Retains (a.cmd.writes .shared r) y.mcd.tiers.held z.mcd.tiers.held := by
  obtain ⟨t, hop, ht, -⟩ := call_spec h
  rw [ht]
  obtain ⟨env, cmd⟩ := a
  have hc' : (y.ctx env).Completes := hc
  cases cmd with
  | get d k cap => exact get_retains hy hc' hin hop
  | put d k v => exact put_retains hy hc' hg hv hop
  | remove d k => exact remove_retains hy hop
  | flush d => exact flush_retains hy hc' hop
  | check | getsize | memsize | weight | cacheMode | param | create | destroy | enable | disable =>
    exact hg.elim

end

section
variable {c : Ctx} {d : Domid} {k : GuestKey} {r : Reply} {s t : State} {cap : UInt32}

theorem Delivers.cases {mh : McdHashT} {rc : Rc} (h : Delivers mh cap rc r)
    (hrc : rc = .retGetMem ∨ rc = .retGetSsd) :
    (r.Hit ∧ r.val = some mh.value) ∨ r = .code .errMcdFault ∧ cap.toNat < mh.value.length := by
  rcases h with ⟨hbig, rfl⟩ | ⟨-, rfl⟩
  · refine .inr ⟨rfl, ?_⟩
    have hlen : mh.value.length = mh.valSize.toNat := by
      unfold McdHashT.value
      rw [List.length_drop, mh.keyVal_length]
      omega
    rw [hlen]
    exact hbig
  · exact .inl ⟨hrc, rfl⟩

/-- A `get` finds the value if there is one, unless the guest's buffer is too small or a page-in
finds no memory. -/
theorem get_finds (hs : Safe s.tiers) (hc : c.Completes) (hin : c.Fetches)
    (h : Returns (mcdOp c (.get d k cap)) s r t) :
    (∃ v, s.tiers.held (.bucket (bucketOf (getHash k.bytes)), getHash k.bytes) v ∧
      ((r.Hit ∧ r.val = some v) ∨ r = .code .errMcdFault ∧ cap.toNat < v.length)) ∨
    r = .code .errMcdFault ∧
      ((∀ v, ¬ s.tiers.held (.bucket (bucketOf (getHash k.bytes)), getHash k.bytes) v) ∨
        ∃ size id u, Returns (mcdMalloc c size id) s none u) := by
  have hpath := get_path hs.inOrder.headersOwned h
  rw [hs.home] at hpath
  have hcur := hs.current (bucketOf (getHash k.bytes))
  cases hpath with
  | hit mh now find reply _ =>
    obtain ⟨hmem, hhash⟩ := findMcdHashT_mem find
    exact .inl ⟨mh.value, ⟨hcur, .entry mh hmem hhash rfl⟩, reply.cases (.inl rfl)⟩
  | absent absent find reply _ =>
    refine .inr ⟨reply, .inl fun v hv => ?_⟩
    rcases List.mem_append.mp (mem_hashes_iff.mpr ⟨v, hv.2⟩) with hmem | hmem
    · exact not_mem_map_of_find_none absent hmem
    · obtain ⟨mch, hm, hh⟩ := List.mem_map.mp hmem
      exact List.find?_eq_none.mp find mch hm (by simpa using hh)
  | refused mch _ _ pages reply =>
    obtain ⟨val, u, hmalloc, ⟨-, rfl, -⟩ | ⟨mh, st, hnone, -⟩⟩ := mcdPageIn_path hs.inOrder.on pages
    · exact .inr ⟨reply, .inr ⟨_, _, u, hmalloc⟩⟩
    · cases hnone
  | load mch mh w now _ find pages reply _ =>
    have hmem := List.mem_of_find?_eq_some find
    have hhash : mch.hash = getHash k.bytes := by simpa using List.find?_some find
    obtain ⟨-, hload⟩ := mcdPageIn_some pages (for_bucket_headers hs.inOrder.mode _ mch hmem)
    obtain ⟨-, -, hstored⟩ := hload.tidy hmem hcur hc.unbroken hin hs.inOrder.tidy
    rw [hhash] at hstored
    exact .inl ⟨mh.value, ⟨hcur, hstored⟩, reply.cases (.inr rfl)⟩

/-- A guest operation whose transfers all complete. -/
structure Call.Untroubled (a : Call) : Prop where
  guest : a.cmd.Guest
  valued : a.cmd.Valued
  fetches : a.env.Fetches
  completes : a.env.Completes

theorem safe_of_empty (hm : s.cacheMode = .shared) (hon : s.outsourcing) (he : s.EmptyIn .shared) :
    Safe s.tiers where
  inOrder := (inOrder_of_empty hm hon he).1
  entries i mh hmem := by
    have hnil : s.tiers.entries (.bucket i) = [] := (he (.bucket i) rfl).1
    rw [hnil] at hmem
    cases hmem
  headers i mch hmem := by
    have hnil : s.tiers.headers (.bucket i) = [] := (he (.bucket i) rfl).2
    rw [hnil] at hmem
    cases hmem

/-- Along a run whose transfers complete the two tiers hold exactly what was written. -/
theorem run_exact {y z : System} {hist : List (Call × Reply)} (hm : y.mcd.cacheMode = .shared)
    (hon : y.mcd.outsourcing) (he : y.mcd.EmptyIn .shared)
    (hrun : Run (fun _ a => a.Untroubled) y hist z) :
    Safe z.mcd.tiers ∧
      ∀ x v, z.mcd.tiers.held x v ↔
        replay (fun x : Call × Reply => x.1.cmd.writes .shared x.2) hist x = some v := by
  have hlossless : Safe z.mcd.tiers ∧
      Lossless (fun x : Call × Reply => x.1.cmd.writes .shared x.2) hist z.mcd.tiers.held := by
    refine hrun.invariant_history (I := fun pre (u : System) => Safe u.mcd.tiers ∧
      Lossless (fun x : Call × Reply => x.1.cmd.writes .shared x.2) pre u.mcd.tiers.held) ?_ []
      ⟨safe_of_empty hm hon he, fun x v hv => by cases hv⟩
    rintro pre s ⟨a, r⟩ t ⟨hs, hall⟩ ⟨ha, hcall⟩
    obtain ⟨ht, hretains⟩ := call_retains hs ha.guest ha.valued ha.fetches ha.completes hcall
    exact ⟨ht, hall.step hretains⟩
  have hcoherent : InOrder .shared z.mcd.tiers ∧
      Coherent (fun x : Call × Reply => x.1.cmd.writes .shared x.2) hist z.mcd.tiers.held := by
    refine run_coherent hm hon he (hrun.mono ?_)
    rintro s x t ⟨ha, hcall⟩
    exact ⟨⟨ha.guest, ha.fetches, ha.completes.unbroken, fun h => CacheMode.noConfusion h⟩, hcall⟩
  exact ⟨hlossless.1, fun x v => ⟨hcoherent.2 x v, hlossless.2 x v⟩⟩

end

end UniCache.Mcd
