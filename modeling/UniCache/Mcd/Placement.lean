import UniCache.Mcd.Accounting
import UniCache.Mcd.Coherence

/-! Where the entries of the shared buckets stand. `s_mcd_put` and `s_mcd_check` read the key twice,
so what a bucket holds depends on both reads. -/
namespace UniCache.Mcd
open Base Base.Exec

/-- The key bytes of an entry. -/
def McdHashT.key (mh : McdHashT) : List UInt8 := mh.keyVal.take mh.keySize.toNat

/-- What the placement of an entry depends on. -/
def McdHashT.tag (mh : McdHashT) : UInt32 × List UInt8 := (mh.hash, mh.key)

namespace Tiers

def tags (t : Tiers) (i : Bucket) : List (UInt32 × List UInt8) :=
  (t.entries (.bucket i)).map McdHashT.tag

/-- Every entry stands in the bucket of its hash, and no bucket has a hash twice. -/
def Settled (t : Tiers) : Prop := Placed bucketOf fun i => (t.tags i).map (·.1)

/-- Every entry in a bucket carries the hash of its own key bytes. -/
def Keyed (t : Tiers) : Prop := ∀ i, ∀ x ∈ t.tags i, x.1 = getHash x.2

/-- From `s` to `t` the buckets lost entries at most. -/
def Thins (s t : Tiers) : Prop := ∀ i, (t.tags i).Sublist (s.tags i)

end Tiers

open Tiers

section
variable {c : Ctx} {s t u : Tiers} {loc : Loc} {mh : McdHashT} {i : Bucket}

theorem thins_of_entries (h : t.entries = s.entries) : Thins s t := by
  intro i
  unfold tags
  rw [h]

theorem Tiers.Thins.trans (h₁ : Thins s t) (h₂ : Thins t u) : Thins s u :=
  fun i => (h₂ i).trans (h₁ i)

theorem Tiers.Thins.settled (h : Thins s t) (hs : s.Settled) : t.Settled :=
  hs.of_sublist fun i => (h i).map _

theorem Tiers.Thins.keyed (h : Thins s t) (hs : s.Keyed) : t.Keyed :=
  fun i x hx => hs i x ((h i).subset hx)

theorem thins_drop (t : Tiers) (loc : Loc) (mh : McdHashT) : Thins t (t.drop loc mh) :=
  fun i => ((shrinks_drop t loc mh).entries (.bucket i)).map _

theorem Removal.thins (h : Removal c s loc mh t) : Thins s t := by
  cases h with
  | drop _ => exact thins_drop s loc mh
  | evict _ _ _ _ _ _ _ _ => exact (thins_drop s loc mh).trans (thins_of_entries rfl)

theorem Release.thins (h : Release c s t) : Thins s t := by
  cases h with
  | removal h => exact h.thins
  | touch loc mh now =>
    intro i
    unfold tags
    rw [map_entries_touch rfl]
  | forget _ _ _ => exact thins_of_entries rfl

theorem Releases.thins (h : Releases c s t) : Thins s t :=
  h.induct (I := Thins s) (fun hrel hv => hv.trans hrel.thins) (thins_of_entries rfl)

theorem Upkeeps.thins (h : Upkeeps c s t) : Thins s t := by
  induction h with
  | refl => exact thins_of_entries rfl
  | tail _ hact ih =>
    cases hact with
    | release h => exact ih.trans h.thins
    | configure _ => exact ih.trans (thins_of_entries rfl)
    | enrol _ => exact ih.trans (thins_of_entries rfl)

theorem Clears.thins {P : Loc → Prop} {k : Nat} (h : Clears c P s t k) : Thins s t :=
  h.releases.thins

theorem tags_link (t : Tiers) (i : Bucket) (mh : McdHashT) :
    (t.link (.bucket i) mh).tags = Function.update t.tags i (t.tags i ++ [mh.tag]) := by
  funext j
  show (Function.update t.entries (.bucket i) _ (.bucket j)).map McdHashT.tag = _
  by_cases hj : j = i
  · rw [hj, Function.update_self, Function.update_self, List.map_append]
    rfl
  · rw [Function.update_of_ne (fun h => hj (Loc.bucket.inj h)), Function.update_of_ne hj]
    rfl

/-- A private entry does not show in the buckets. -/
theorem thins_link_dom (t : Tiers) (d : Domid) (mh : McdHashT) : Thins t (t.link (.dom d) mh) := by
  intro i
  show ((Function.update t.entries (.dom d) (t.entries (.dom d) ++ [mh]) (.bucket i)).map
    McdHashT.tag).Sublist (t.tags i)
  rw [Function.update_of_ne (by simp)]
  exact List.Sublist.refl _

theorem Tiers.Settled.link (ht : t.Settled) (hi : bucketOf mh.hash = i)
    (hnew : mh.hash ∉ (t.tags i).map (·.1)) : (t.link (.bucket i) mh).Settled := by
  unfold Settled
  rw [tags_link]
  subst hi
  have hmap : (fun i => (Function.update t.tags (bucketOf mh.hash)
      (t.tags (bucketOf mh.hash) ++ [mh.tag]) i).map (·.1)) =
      Function.update (fun i => (t.tags i).map (·.1)) (bucketOf mh.hash)
        ((t.tags (bucketOf mh.hash)).map (·.1) ++ [mh.hash]) := by
    funext j
    by_cases hj : j = bucketOf mh.hash
    · rw [hj, Function.update_self, Function.update_self, List.map_append]
      rfl
    · rw [Function.update_of_ne hj, Function.update_of_ne hj]
  rw [hmap]
  exact Placed.concat ht hnew

theorem Tiers.Keyed.link (ht : t.Keyed) (hk : mh.hash = getHash mh.key) :
    (t.link (.bucket i) mh).Keyed := by
  intro j x hx
  rw [tags_link] at hx
  rcases mem_of_update_append hx with hold | ⟨-, hnew⟩
  · exact ht j x hold
  · rw [hnew]
    exact hk

theorem map_fst_tags (t : Tiers) (i : Bucket) :
    (t.tags i).map (·.1) = (t.entries (.bucket i)).map (·.hash) := by
  unfold tags
  rw [List.map_map]
  rfl

theorem notMem_tags_of_find_none {hash : UInt32}
    (h : findMcdHashT hash (t.entries (.bucket i)) = none) : hash ∉ (t.tags i).map (·.1) := by
  rw [map_fst_tags]
  exact not_mem_map_of_find_none h

theorem Tiers.Thins.notMem {hash : UInt32} (h : Thins s t) (hs : hash ∉ (s.tags i).map (·.1)) :
    hash ∉ (t.tags i).map (·.1) :=
  fun hmem => hs (((h i).map _).subset hmem)

/-- After `s_mcd_put` has cleared the way for a hash, its bucket does not have it. -/
theorem Evacuates.cleared {hash : UInt32} (h : Evacuates c s (.bucket i) hash t) (hs : s.Settled) :
    hash ∉ (t.tags i).map (·.1) := by
  cases h with
  | header find forget => 
    exact (forget.releases (c := c)).thins.notMem (notMem_tags_of_find_none find)
  | entry mh find rem =>
    obtain ⟨hmem, hhash⟩ := findMcdHashT_mem find
    have hnd : ((s.entries (.bucket i)).map (·.hash)).Nodup := by
      rw [← map_fst_tags]
      exact hs.nodup i
    have herase : t.entries (.bucket i) = (s.entries (.bucket i)).erase mh := by
      cases rem with
      | drop _ => exact Function.update_self ..
      | evict _ _ _ _ _ _ _ _ => exact Function.update_self ..
    rw [map_fst_tags, herase, ← hhash]
    exact notMem_map_erase hnd hmem

end

section
variable {c : Ctx} {d : Domid} {k : GuestKey} {r : Reply} {s t : State}

theorem Adds.thins_dom {s t : Tiers} {mh : McdHashT} (h : Adds c s (.dom d) mh t) : Thins s t := by
  obtain ⟨-, u, hcl, -, rfl⟩ := h
  exact hcl.thins.trans (thins_link_dom u d mh)

theorem McdHashT.key_of_append {mh : McdHashT} {bytes rest : List UInt8}
    (hv : mh.keyVal = bytes ++ rest) (hlen : bytes.length = mh.keySize.toNat) :
    mh.key = bytes := by
  unfold McdHashT.key
  rw [hv, ← hlen, List.take_left]

/-- The bucket in which an operation looks a key up. -/
def GuestKey.slot (k : GuestKey) : Bucket := bucketOf (getHash k.bytes)

/-- A `put` chooses the bucket by the first read of the key and the hash by the second. -/
theorem put_bucket {v : GuestVal} (h : Returns (mcdOp c (.put d k v)) s r t) :
    Thins s.tiers t.tiers ∨ s.cacheMode = .shared ∧
      ∃ u w mh, Evacuates c s.tiers (.bucket k.slot) (getHash k.bytes) u ∧ Thins u w ∧
        mh.tag = (getHash k.again, k.again) ∧ t.tiers = w.link (.bucket k.slot) mh := by
  obtain ⟨ms, u, hev, -, hloc, hput⟩ := put_path h
  rcases putEntry_spec hput hloc with ⟨-, hcl⟩ | ⟨mh, -, hmh, hadd⟩
  · exact .inl (hev.releases.thins.trans hcl.thins)
  cases hm : s.cacheMode with
  | shared =>
    rw [home_shared hm] at hev hadd
    obtain ⟨-, w, hcl, -, ht⟩ := hadd
    have hkey : mh.key = k.again := by
      apply McdHashT.key_of_append hmh.keyVal
      rw [hmh.keySize, k.again_length]
    have htag : mh.tag = (getHash k.again, k.again) := by
      unfold McdHashT.tag
      rw [hmh.hash, hkey]
    exact .inr ⟨rfl, u.tiers, w, mh, hev, hcl.thins, htag, ht⟩
  | partition =>
    rw [home_partition hm] at hadd
    exact .inl (hev.releases.thins.trans hadd.thins_dom)

/-- A lookup stores the second read of the key under the hash of the first. -/
theorem check_bucket (h : Returns (mcdOp c (.check d k)) s r t) :
    Thins s.tiers t.tiers ∨ s.cacheMode = .shared ∧
      ∃ w mh, findMcdHashT (getHash k.bytes) (s.entries (.bucket k.slot)) = none ∧
        Thins s.tiers w ∧ mh.tag = (getHash k.bytes, k.again) ∧
        t.tiers = w.link (.bucket k.slot) mh := by
  cases check_path h with
  | found mh find reply after =>
    rw [after]
    exact .inl (thins_of_entries rfl)
  | absent absent mch find adds reply =>
    rcases addMeasurement_spec adds (for_home s d k) with
      hcl | ⟨mh, -, -, hhash, hks, -, hkv, -, hadd⟩
    · exact .inl hcl.thins
    cases hm : s.cacheMode with
    | shared =>
      rw [home_shared hm] at absent hadd
      obtain ⟨-, w, hcl, -, ht⟩ := hadd
      have hkey : mh.key = k.again := by
        unfold McdHashT.key
        rw [hkv, hks, ← k.again_length, List.take_length]
      have htag : mh.tag = (getHash k.bytes, k.again) := by
        unfold McdHashT.tag
        rw [hhash, hkey]
      exact .inr ⟨rfl, w, mh, absent, hcl.thins, htag, ht⟩
    | partition =>
      rw [home_partition hm] at hadd
      exact .inl hadd.thins_dom

/-- The entry a page-in of `mch` would hand over. -/
def pagedIn (c : Ctx) (loc : Loc) (mch : McdctlHashT) (s : State) : Option McdHashT :=
  match (mcdPageIn c loc mch).run s with
  | .ok (o, _) => o
  | .error _ => none

theorem pagedIn_eq {loc : Loc} {mch : McdctlHashT} {o : Option McdHashT}
    (h : Returns (mcdPageIn c loc mch) s o t) : pagedIn c loc mch s = o := by
  have hrun : (mcdPageIn c loc mch).run s = .ok (o, t) := h
  unfold pagedIn
  rw [hrun]

/-- A `get` that pages in links what the page-in hands over, under the hash of its header. -/
theorem get_bucket {cap : UInt32} (hown : s.tiers.HeadersOwned)
    (h : Returns (mcdOp c (.get d k cap)) s r t) :
    Thins s.tiers t.tiers ∨ s.cacheMode = .shared ∧
      ∃ mch w mh, findMcdHashT (getHash k.bytes) (s.entries (.bucket k.slot)) = none ∧
        (s.headers (.bucket k.slot)).find? (·.hash = getHash k.bytes) = some mch ∧
        Thins s.tiers w ∧ pagedIn c (.bucket k.slot) mch s = some mh ∧ mh.hash = getHash k.bytes ∧
        Thins (w.link (.bucket k.slot) mh) t.tiers := by
  have htouch : ∀ (u : Tiers) (loc : Loc) (mh : McdHashT) (now : Int), Thins u (u.touch loc mh now) :=
    fun u loc mh now => (Release.touch loc mh now : Release c _ _).thins
  cases hm : s.cacheMode with
  | shared =>
    have hpath := get_path (fun _ => hown) h
    rw [home_shared hm] at hpath
    cases hpath with
    | hit mh now _ _ after =>
      rw [after]
      exact .inl (htouch _ _ mh now)
    | absent _ _ _ after =>
      rw [after]
      exact .inl (thins_of_entries rfl)
    | refused mch _ _ pages _ => exact .inl (mcdPageIn_none pages (for_bucket hm _ _)).thins
    | load mch mh u now absent find pages _ after =>
      obtain ⟨-, -, w, st, hcl, -, hfetch, hload⟩ := mcdPageIn_some pages (for_bucket hm _ _)
      have hhash : mh.hash = getHash k.bytes := by
        rw [hfetch.hash]
        simpa using List.find?_some find
      rw [after, hload]
      exact .inr ⟨rfl, mch, _, mh, absent, find, hcl.thins.trans (thins_of_entries rfl),
        pagedIn_eq pages, hhash, htouch _ _ mh now⟩
  | partition =>
    have hgets := get_gets (fun _ => hown) h
    rw [home_partition hm] at hgets
    cases hgets with
    | hit mh now _ _ after =>
      rw [after]
      exact .inl (htouch _ _ mh now)
    | miss _ _ clears => exact .inl clears.thins
    | load mch mh u now _ _ _ loads _ after =>
      obtain ⟨-, w, st, hcl, -, -, rfl⟩ := loads
      have hfree : Thins w { w.setHeaders (.dom d) ((w.headers (.dom d)).erase mch) with store := st } :=
        thins_of_entries rfl
      rw [after]
      exact .inl (((hcl.thins.trans hfree).trans (thins_link_dom _ d mh)).trans (htouch _ _ mh now))

/-- Commands through which an entry may come in. -/
def Cmd.Enters : Cmd → Prop
  | .get .. | .put .. | .check .. | .getsize .. => True
  | _ => False

theorem others_thin {cmd : Cmd} (hc : s.tiers.Counted) (hfresh : cmd.Fresh s) (he : ¬ cmd.Enters)
    (h : Returns (mcdOp c cmd) s r t) : Thins s.tiers t.tiers := by
  cases cmd with
  | get | put | check | getsize => exact (he trivial).elim
  | remove d k => exact (remove_discards h).2.releases.thins (c := c)
  | flush d =>
    rcases mcdSubCall_spec h with ⟨-, h⟩ | ⟨-, h⟩
    · exact (sMcdFlush_releases h).thins
    · exact (pMcdFlush_releases h).thins
  | destroy d =>
    obtain ⟨u, hup, -, -, ht⟩ := destroy_upkeeps hc.live h
    rw [ht]
    exact hup.thins.trans (thins_of_entries rfl)
  | memsize | weight | cacheMode | param | create | enable | disable =>
    exact (control_upkeeps id hfresh id h).thins

/-- The reads of a shared `put` have one hash. -/
def Cmd.PutsOneHash (s : State) : Cmd → Prop
  | .put _ k _ => s.cacheMode = .shared → getHash k.again = getHash k.bytes
  | _ => True

/-- The reads of a shared lookup have one hash, and what a shared `get` pages in has a key of the
hash it was filed under. -/
def Cmd.BringsKeys (c : Ctx) (s : State) : Cmd → Prop
  | .check _ k | .getsize _ k => s.cacheMode = .shared → getHash k.again = getHash k.bytes
  | .get _ k _ => s.cacheMode = .shared →
      ∀ mch ∈ (s.headers (.bucket k.slot)).find? (·.hash = getHash k.bytes),
        ∀ mh ∈ pagedIn c (.bucket k.slot) mch s, getHash mh.key = getHash k.bytes
  | _ => True

instance (s : State) : (cmd : Cmd) → Decidable (cmd.PutsOneHash s)
  | .put _ k _ =>
    inferInstanceAs (Decidable (s.cacheMode = .shared → getHash k.again = getHash k.bytes))
  | .get .. | .remove .. | .check .. | .getsize .. | .flush .. | .memsize .. | .weight ..
  | .cacheMode .. | .param .. | .create .. | .destroy .. | .enable | .disable =>
    inferInstanceAs (Decidable True)

instance (c : Ctx) (s : State) : (cmd : Cmd) → Decidable (cmd.BringsKeys c s)
  | .check _ k | .getsize _ k =>
    inferInstanceAs (Decidable (s.cacheMode = .shared → getHash k.again = getHash k.bytes))
  | .get _ k _ => inferInstanceAs (Decidable (s.cacheMode = .shared →
      ∀ mch ∈ (s.headers (.bucket k.slot)).find? (·.hash = getHash k.bytes),
        ∀ mh ∈ pagedIn c (.bucket k.slot) mch s, getHash mh.key = getHash k.bytes))
  | .put .. | .remove .. | .flush .. | .memsize .. | .weight .. | .cacheMode .. | .param ..
  | .create .. | .destroy .. | .enable | .disable => inferInstanceAs (Decidable True)

theorem op_settled {cmd : Cmd} (hc : s.tiers.Counted) (hfresh : cmd.Fresh s)
    (hone : cmd.PutsOneHash s) (hs : s.tiers.Settled) (h : Returns (mcdOp c cmd) s r t) :
    t.tiers.Settled := by
  have hcheck : ∀ {d : Domid} {k : GuestKey}, Returns (mcdOp c (.check d k)) s r t →
      t.tiers.Settled := by
    intro d k h
    rcases check_bucket h with hth | ⟨-, w, mh, habs, hth, htag, ht⟩
    · exact hth.settled hs
    · have hhash : mh.hash = getHash k.bytes := congrArg (·.1) htag
      rw [ht]
      apply (hth.settled hs).link (by rw [hhash]; rfl)
      rw [hhash]
      exact hth.notMem (notMem_tags_of_find_none habs)
  cases cmd with
  | put d k v =>
    rcases put_bucket h with hth | ⟨hm, u, w, mh, hev, hth, htag, ht⟩
    · exact hth.settled hs
    · have hhash : mh.hash = getHash k.bytes := (congrArg (·.1) htag).trans (hone hm)
      rw [ht]
      apply ((hev.releases.thins.trans hth).settled hs).link (by rw [hhash]; rfl)
      rw [hhash]
      exact hth.notMem (hev.cleared hs)
  | check d k => exact hcheck h
  | getsize d k => exact hcheck h
  | get d k cap =>
    rcases get_bucket hc.headersOwned h with hth | ⟨-, mch, w, mh, habs, -, hth, -, hhash, hend⟩
    · exact hth.settled hs
    · apply hend.settled
      apply (hth.settled hs).link (by rw [hhash]; rfl)
      rw [hhash]
      exact hth.notMem (notMem_tags_of_find_none habs)
  | _ => exact (others_thin hc hfresh id h).settled hs

theorem op_keyed {cmd : Cmd} (hc : s.tiers.Counted) (hfresh : cmd.Fresh s)
    (hkeys : cmd.BringsKeys c s) (hs : s.tiers.Keyed) (h : Returns (mcdOp c cmd) s r t) :
    t.tiers.Keyed := by
  have hcheck : ∀ {d : Domid} {k : GuestKey}, (s.cacheMode = .shared →
      getHash k.again = getHash k.bytes) → Returns (mcdOp c (.check d k)) s r t →
      t.tiers.Keyed := by
    intro d k hone h
    rcases check_bucket h with hth | ⟨hm, w, mh, -, hth, htag, ht⟩
    · exact hth.keyed hs
    · have hhash : mh.hash = getHash k.bytes := congrArg (·.1) htag
      have hkey : mh.key = k.again := congrArg (·.2) htag
      rw [ht]
      apply (hth.keyed hs).link
      rw [hhash, hkey, hone hm]
  cases cmd with
  | put d k v =>
    rcases put_bucket h with hth | ⟨-, u, w, mh, hev, hth, htag, ht⟩
    · exact hth.keyed hs
    · have hhash : mh.hash = getHash k.again := congrArg (·.1) htag
      have hkey : mh.key = k.again := congrArg (·.2) htag
      rw [ht]
      apply ((hev.releases.thins.trans hth).keyed hs).link
      rw [hhash, hkey]
  | check d k => exact hcheck hkeys h
  | getsize d k => exact hcheck hkeys h
  | get d k cap =>
    rcases get_bucket hc.headersOwned h with
      hth | ⟨hm, mch, w, mh, -, hfind, hth, hpaged, hhash, hend⟩
    · exact hth.keyed hs
    · apply hend.keyed
      apply (hth.keyed hs).link
      rw [hhash]
      exact (hkeys hm mch hfind mh hpaged).symm
  | _ => exact (others_thin hc hfresh id h).keyed hs

end

/-- Calls whose `put`s read one hash. -/
def Call.PutsOneHash (y : System) (a : Call) : Prop :=
  a.cmd.Fresh y.mcd ∧ a.cmd.PutsOneHash y.mcd

/-- Calls that bring in entries with their own keys. -/
def Call.BringsKeys (y : System) (a : Call) : Prop :=
  a.cmd.Fresh y.mcd ∧ a.cmd.BringsKeys (y.ctx a.env) y.mcd

instance (y : System) (a : Call) : Decidable (Call.PutsOneHash y a) :=
  inferInstanceAs (Decidable (_ ∧ _))

instance (y : System) (a : Call) : Decidable (Call.BringsKeys y a) :=
  inferInstanceAs (Decidable (_ ∧ _))

section
variable {y : System} {l : List (Call × Reply)}

theorem settled_start : System.start.mcd.tiers.Settled := placed_nil fun _ => rfl

theorem keyed_start : System.start.mcd.tiers.Keyed := by
  intro i x hx
  have hnil : System.start.mcd.tiers.tags i = [] := rfl
  simp [hnil] at hx

theorem run_settled (h : Run Call.PutsOneHash .start l y) :
    y.mcd.tiers.Counted ∧ y.mcd.tiers.Settled := by
  apply h.invariant (I := fun y => y.mcd.tiers.Counted ∧ y.mcd.tiers.Settled)
  · intro y x z hy hstep
    obtain ⟨⟨hfresh, hone⟩, hcall⟩ := hstep
    obtain ⟨t, hop, ht, -⟩ := call_spec hcall
    refine ⟨call_counted hy.1 hfresh hcall, ?_⟩
    rw [ht]
    exact op_settled hy.1 hfresh hone hy.2 hop
  · exact ⟨counted_start, settled_start⟩

theorem run_keyed (h : Run Call.BringsKeys .start l y) :
    y.mcd.tiers.Counted ∧ y.mcd.tiers.Keyed := by
  apply h.invariant (I := fun y => y.mcd.tiers.Counted ∧ y.mcd.tiers.Keyed)
  · intro y x z hy hstep
    obtain ⟨⟨hfresh, hkeys⟩, hcall⟩ := hstep
    obtain ⟨t, hop, ht, -⟩ := call_spec hcall
    refine ⟨call_counted hy.1 hfresh hcall, ?_⟩
    rw [ht]
    exact op_keyed hy.1 hfresh hkeys hy.2 hop
  · exact ⟨counted_start, keyed_start⟩

end

/-- Key 1 is put, evicted and read back, and key 2 is looked up. -/
def steadyCalls : List Call :=
  [⟨.calm, .create 1⟩, ⟨.calm, .enable⟩, ⟨.calm, .put 1 (.single 1) (.single 7)⟩,
    ⟨.full .done, .put 1 (.single 3) (.single 9)⟩, ⟨.calm, .get 1 (.single 1) 100⟩,
    ⟨.calm, .check 1 (.single 2)⟩]

/-- The guest writes 2 over the key byte 1 between the two reads. -/
def GuestKey.changed : GuestKey := ⟨1, [1], [2], rfl, rfl⟩

/-- Guest 1 has put the changing key twice. -/
def System.putChanged : System :=
  System.start.after [⟨.calm, .create 1⟩, ⟨.calm, .put 1 .changed (.single 7)⟩,
    ⟨.calm, .put 1 .changed (.single 7)⟩]

/-- Guest 1 has looked the changing key up. -/
def System.checkedChanged : System :=
  System.start.after [⟨.calm, .create 1⟩, ⟨.calm, .check 1 .changed⟩]

end UniCache.Mcd
