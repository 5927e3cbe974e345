import UniCache.Mcd.Alias
import UniCache.Mcd.Destroy
import UniCache.Mcd.Placement

/-! What a `put` that fails in shared mode leaves of the other keys. The failure shows only after
the reclaim has taken entries out of memory. -/
namespace UniCache.Mcd
open Base Base.Exec

namespace Tiers

/-- The bucket of a hash has it in memory. -/
def Resident (t : Tiers) (h : UInt32) : Prop :=
  h ∈ (t.entries (.bucket (bucketOf h))).map (·.hash)

/-- The entry has an outsourced copy with its own bytes. -/
def Filed (t : Tiers) (mh : McdHashT) : Prop :=
  (∃ page slot, mh.header page slot ∈ t.headers (.bucket (bucketOf mh.hash))) ∧
    t.store mh.domain mh.hash = some mh.keyVal

/-- The reclaim may outsource the entries of the buckets, and does not confuse them. -/
structure Saving (t : Tiers) : Prop where
  shared : t.cfg.cacheMode = .shared
  on : t.outsourcing = true
  settled : t.Settled

/-- From `s` to `t` the buckets lost entries, but no value. -/
structure Saves (s t : Tiers) : Prop where
  cfg : t.cfg = s.cfg
  thins : Thins s t
  headers : ∀ i, s.headers (.bucket i) ⊆ t.headers (.bucket i)
  store : ∀ d h, ¬ s.Resident h → t.store d h = s.store d h
  files : ∀ d h, (s.store d h).isSome → (t.store d h).isSome
  entries : ∀ i, ∀ mh ∈ s.entries (.bucket i), mh.flags = mcdHashTNormal →
    mh ∈ t.entries (.bucket i) ∨ t.Filed mh ∧ ¬ t.Resident mh.hash

end Tiers

open Tiers

section
variable {c : Ctx} {s t u : Tiers} {i : Bucket} {mh : McdHashT}

theorem resident_iff {h : UInt32} : s.Resident h ↔ h ∈ (s.tags (bucketOf h)).map (·.1) := by
  unfold Resident
  rw [map_fst_tags]

theorem Tiers.Thins.resident {h : UInt32} (hst : Thins s t) (ht : t.Resident h) : s.Resident h := by
  rw [resident_iff] at ht ⊢
  exact ((hst _).map _).subset ht

theorem Tiers.Settled.bucket_eq (hs : s.Settled) (hm : mh ∈ s.entries (.bucket i)) :
    bucketOf mh.hash = i := by
  apply hs.at_home i
  show mh.hash ∈ (s.tags i).map (·.1)
  rw [map_fst_tags]
  exact List.mem_map_of_mem hm

theorem saves_refl (s : Tiers) : Saves s s where
  cfg := rfl
  thins := thins_of_entries rfl
  headers _ := List.Subset.refl _
  store _ _ _ := rfl
  files _ _ h := h
  entries _ _ hm _ := .inl hm

theorem Tiers.Saves.saving (h : Saves s t) (hs : s.Saving) : t.Saving where
  shared := by rw [h.cfg]; exact hs.shared
  on := by
    have hon := hs.on
    unfold Tiers.outsourcing at hon ⊢
    rwa [h.cfg]
  settled := h.thins.settled hs.settled

theorem Tiers.Saves.trans (h₁ : Saves s t) (h₂ : Saves t u) : Saves s u := by
  constructor
  case cfg => exact h₂.cfg.trans h₁.cfg
  case thins => exact h₁.thins.trans h₂.thins
  case headers => exact fun i mch hm => h₂.headers i (h₁.headers i hm)
  case store =>
    intro d h hr
    rw [h₂.store d h fun ht => hr (h₁.thins.resident ht), h₁.store d h hr]
  case files => exact fun d h hf => h₂.files d h (h₁.files d h hf)
  case entries =>
    intro i mh hm hn
    rcases h₁.entries i mh hm hn with hmem | ⟨⟨⟨page, slot, hhead⟩, hfile⟩, hres⟩
    · exact h₂.entries i mh hmem hn
    · -- the second part does not touch a hash that memory no longer has
      refine .inr ⟨⟨⟨page, slot, h₂.headers _ hhead⟩, ?_⟩, fun hu => hres (h₂.thins.resident hu)⟩
      rw [h₂.store _ _ hres]
      exact hfile

theorem drop_bucket (s : Tiers) (i : Bucket) (mh : McdHashT) :
    (s.drop (.bucket i) mh).entries =
      Function.update s.entries (.bucket i) ((s.entries (.bucket i)).erase mh) := rfl

theorem mem_drop {m : McdHashT} {j : Bucket} (hm : m ∈ s.entries (.bucket j)) (hne : m ≠ mh) :
    m ∈ (s.drop (.bucket i) mh).entries (.bucket j) := by
  rw [drop_bucket]
  exact mem_update_erase hm hne

/-- An entry without a value is dropped. -/
theorem saves_drop (hn : mh.flags ≠ mcdHashTNormal) : Saves s (s.drop (.bucket i) mh) where
  cfg := rfl
  thins := thins_drop s _ mh
  headers _ := List.Subset.refl _
  store _ _ _ := rfl
  files _ _ h := h
  entries _ _ hm hm' := .inl (mem_drop hm fun h => hn (h ▸ hm'))

/-- The hash of an entry that leaves its bucket is no longer in memory. -/
theorem not_resident_drop (hs : s.Settled) (hm : mh ∈ s.entries (.bucket i)) :
    ¬ (s.drop (.bucket i) mh).Resident mh.hash := by
  have hnd : ((s.entries (.bucket i)).map (·.hash)).Nodup := by
    rw [← map_fst_tags]
    exact hs.nodup i
  unfold Resident
  rw [hs.bucket_eq hm, drop_bucket, Function.update_self]
  exact notMem_map_erase hnd hm

/-- An entry with a value is outsourced. -/
theorem saves_evict (hs : s.Saving) (hm : mh ∈ s.entries (.bucket i)) (page slot : Nat) :
    Saves s ((s.drop (.bucket i) mh).outsource mh (some mh.keyVal) page slot) := by
  have hres : s.Resident mh.hash := by
    unfold Resident
    rw [hs.settled.bucket_eq hm]
    exact List.mem_map_of_mem hm
  have hloc : (s.drop (.bucket i) mh).pageOutLoc mh = .bucket (bucketOf mh.hash) := by
    unfold pageOutLoc
    rw [show (s.drop (.bucket i) mh).cfg.cacheMode = .shared from hs.shared]
  have hheaders : ((s.drop (.bucket i) mh).outsource mh (some mh.keyVal) page slot).headers =
      Function.update s.headers (.bucket (bucketOf mh.hash))
        (s.headers (.bucket (bucketOf mh.hash)) ++ [mh.header page slot]) := by
    unfold outsource
    rw [hloc]
    rfl
  have hstore : ((s.drop (.bucket i) mh).outsource mh (some mh.keyVal) page slot).store =
      s.store.set mh.domain mh.hash (some mh.keyVal) := rfl
  constructor
  case cfg => rfl
  case thins => exact (thins_drop s _ mh).trans (thins_of_entries rfl)
  case headers =>
    intro j
    rw [hheaders]
    exact subset_update_append s.headers _ _ _
  case store =>
    intro d h hr
    rw [hstore, Store.set, if_neg]
    rintro ⟨-, rfl⟩
    exact hr hres
  case files =>
    intro d h hf
    rw [hstore, Store.set]
    split
    · rfl
    · exact hf
  case entries =>
    intro j m hmem _
    by_cases hne : m = mh
    · rw [hne]
      refine .inr ⟨⟨⟨page, slot, ?_⟩, ?_⟩, not_resident_drop hs.settled hm⟩
      · rw [hheaders, Function.update_self]
        simp
      · rw [hstore, Store.set, if_pos ⟨rfl, rfl⟩]
    · exact .inl (mem_drop hmem hne)

/-- A removal by the reclaim loses no value while every transfer completes. -/
theorem Unlinks.saves (hdone : ∀ n, c.pageOut n = .done) (hs : s.Saving)
    (hm : mh ∈ s.entries (.bucket i)) (h : Unlinks c .moveToSsd (.bucket i) mh s t) :
    Saves s t := by
  cases h with
  | drop why after =>
    rw [after]
    cases why with
    | unasked h => exact Move.noConfusion h
    | measurement h => exact saves_drop h
    | off h => exact Bool.noConfusion (hs.on.symm.trans h)
    | refused n h => exact PageOut.noConfusion ((hdone n).symm.trans h)
  | evict asked normal on n page slot accepted after =>
    rw [after, hdone n]
    exact saves_evict hs hm page slot

end

section
variable {c : Ctx} (hdone : ∀ n, c.pageOut n = .done)
include hdone

theorem tally_saves : Tally c fun s t _ => s.tiers.Saving → Saves s.tiers t.tiers where
  quiet h _ := by rw [h]; exact saves_refl _
  trans h₁ h₂ hs := (h₁ hs).trans (h₂ ((h₁ hs).saving hs))
  remove hm h hs := h.saves hdone hs hm

omit hdone in
theorem passive_saves : Passive fun s t => s.tiers.Saving → Saves s.tiers t.tiers where
  refl s _ := saves_refl s.tiers
  trans h₁ h₂ hs := (h₁ hs).trans (h₂ ((h₁ hs).saving hs))
  bump s _ := saves_refl s.tiers
  addr s _ _ := saves_refl s.tiers
  usage total id s _ := by
    rw [passive_quiet.usage total id s]
    exact saves_refl s.tiers

theorem mcdMalloc_saves (size : UInt64) (id : Domid) :
    Within (fun s t => s.tiers.Saving → Saves s.tiers t.tiers) (mcdMalloc c size id) := by
  apply passive_saves.mcdMalloc
  intro amount s rc t h hs
  have hm : s.cacheMode = .shared := hs.shared
  simp only [cacheFree, returns_bind, returns_get, and_assoc, exists_and_left, exists_eq_left,
    hm] at h
  obtain ⟨n, hsaves, -⟩ := sharedCacheFree_tally (tally_saves hdone) h
  exact hsaves hs

end

/-- A `put` fails only for want of memory, and stops there. -/
theorem putEntry_fault {c : Ctx} {id : Domid} {k : GuestKey} {loc : Loc} {v : GuestVal}
    {ms : UInt32} {s t : State} (h : Returns (putEntry c id k loc v ms) s (.code .errMcdFault) t) :
    Returns (mcdMalloc c (entrySize k.size v.size) id) s none t := by
  obtain ⟨o, s₁, hcreate, h⟩ := returns_bind.mp h
  obtain ⟨o', s₂, hraw, hfill⟩ := returns_bind.mp hcreate
  obtain ⟨val, s₃, hmalloc, hraw⟩ := returns_bind.mp hraw
  cases val with
  | none =>
    obtain ⟨rfl, rfl⟩ := returns_pure.mp hraw
    obtain ⟨rfl, rfl⟩ := returns_pure.mp hfill
    rw [(returns_pure.mp h).2]
    exact hmalloc
  | some addr =>
    exfalso
    simp only [readNow, returns_bind, returns_reading, returns_modify, returns_domOf, returns_pure,
      and_assoc, exists_and_left, exists_eq_left, exists_const] at hraw
    obtain ⟨d, hd, rfl, rfl⟩ := hraw
    obtain ⟨rfl, rfl⟩ := returns_pure.mp hfill
    simp only [returns_bind, returns_modify, returns_pure] at h
    obtain ⟨mh, _, _, _, _, _, hr, _⟩ := h
    exact Rc.noConfusion (congrArg Reply.rc hr)

/-- Guest 1 has put key 1, and there is no daemon. -/
def System.oneUnbacked : System :=
  System.start.after [⟨.calm, .create 1⟩, ⟨.calm, .put 1 (.single 1) (.single 7)⟩]

/-- Guest 1 has looked key 1 up, with a daemon. -/
def System.oneLookedUp : System :=
  System.start.after [⟨.calm, .create 1⟩, ⟨.calm, .enable⟩, ⟨.calm, .check 1 (.single 1)⟩]

end UniCache.Mcd
