import UniCache.Mcd.Cap
import UniCache.Mcd.Supply

/-! `shared_cache_free` returns, and what it promises when it does. -/
namespace UniCache.Mcd
open Base Base.Exec

/-! ### The loops end -/

theorem State.Removable.bump {c : Ctx} {m : CacheMode} {s : State} (h : s.Removable c m) :
    s.bump.Removable c m := h.of_same rfl rfl

theorem sharedCount_eq (s : State) : s.sharedCount = s.tiers.numEntries .shared := by
  unfold State.sharedCount Tiers.numEntries total Tiers.locs
  rw [List.map_map]
  congr 1
  apply List.map_congr_left
  intro i _
  simp [State.tiers, State.entries]

section
variable {c : Ctx} {now : Int} {amount : UInt64} {s : State} {i : Bucket} {p : Progress}

/-- Progress of the shared reclaim: an entry less for a flag that goes up. -/
abbrev Clearing (c : Ctx) (b : Bool) (x : M Progress) (s : State) : Prop :=
  Advances (·.Removable c .shared) (fun s => s.tiers.numEntries .shared) Progress.visited b x s

theorem sremove_clearing (h : s.Removable c .shared) {mh : Option McdHashT}
    (hm : ∀ m, mh = some m → m ∈ s.shared i) : Clearing c p.visited (sremove c i mh p) s := by
  cases mh with
  | none => exact advances_skip h
  | some m =>
    obtain ⟨t, hret, ht, hlt⟩ := h.sRemove (hm m rfl)
    refine ⟨_, t, returns_bind.mpr ⟨_, t, hret, returns_pure.mpr ⟨rfl, rfl⟩⟩, ht, hlt.le, ?_⟩
    intro _
    exact .inr hlt

theorem lfruBucket_clearing (h : s.Removable c .shared) :
    Clearing c p.visited (lfruBucket c now i p) s := by
  apply advances_get
  apply (sremove_clearing h lfruBucket_mem.1).bind
  intro q t hret ht
  obtain ⟨n, -, -, hent, -⟩ := sremove_spec (tally_freed c) hret lfruBucket_mem.1
  exact sremove_clearing ht (lfruBucket_mem.2 hent)

theorem scoreBucket_clearing (h : s.Removable c .shared) :
    Clearing c p.visited (scoreBucket c now i p) s := by
  apply advances_get
  exact sremove_clearing h fun m hm => minScore_mem hm

section
variable {bucket : Bucket → Progress → M Progress}
  (hb : ∀ {i p s}, s.Removable c .shared → Clearing c p.visited (bucket i p) s)
include hb

theorem bucketRound_clearing {is : List Bucket} (h : s.Removable c .shared) :
    Clearing c p.visited (bucketRound amount bucket is p) s := by
  induction is generalizing p s with
  | nil => exact advances_skip h
  | cons i is ih =>
    apply (hb h).bind
    intro q t _ ht
    by_cases hstop : q.tot > amount
    · rw [if_pos hstop]
      exact advances_skip ht
    · rw [if_neg hstop]
      exact ih ht

/-- A round that leaves the loop going has removed an entry. -/
theorem policyLoop_returns {turns : Nat} {tot : UInt64} (h : s.Removable c .shared)
    (hturns : s.tiers.numEntries .shared < turns) :
    ∃ tot' t, Returns (policyLoop amount bucket turns tot) s tot' t ∧ t.Removable c .shared := by
  have hstep : ∀ (n : Nat) (tot : UInt64) (s : State), s.Removable c .shared →
      (∃ tot' t, Returns (policyLoop amount bucket (n + 1) tot) s tot' t ∧
        t.Removable c .shared) ∨
      ∃ (tot' : UInt64) (t : State), t.Removable c .shared ∧
        t.tiers.numEntries .shared < s.tiers.numEntries .shared ∧
        ∀ a u, Returns (policyLoop amount bucket n tot') t a u →
          Returns (policyLoop amount bucket (n + 1) tot) s a u := by
    intro n tot s hs
    have hloop : policyLoop amount bucket (n + 1) tot = if tot < amount then do
        let p ← bucketRound amount bucket (List.finRange 100) { tot, visited := false }
        if p.visited then policyLoop amount bucket n p.tot else pure p.tot
      else pure tot := rfl
    rw [hloop]
    by_cases hlt : tot < amount
    · rw [if_pos hlt]
      obtain ⟨p, t, hret, ht, -, hflag⟩ : Clearing c false
        (bucketRound amount bucket (List.finRange 100) ⟨tot, false⟩) s := bucketRound_clearing hb hs
      by_cases hv : p.visited = true
      · refine .inr ⟨p.tot, t, ht, (hflag hv).resolve_left (by simp), fun a u hrest => ?_⟩
        refine returns_bind.mpr ⟨p, t, hret, ?_⟩
        rw [if_pos hv]
        exact hrest
      · refine .inl ⟨p.tot, t, returns_bind.mpr ⟨p, t, hret, ?_⟩, ht⟩
        rw [if_neg hv]
        exact returns_pure.mpr ⟨rfl, rfl⟩
    · rw [if_neg hlt]
      exact .inl ⟨tot, s, returns_pure.mpr ⟨rfl, rfl⟩, hs⟩
  exact returns_of_turns (I := fun _ s => State.Removable c .shared s) hstep h hturns

end

theorem sweepBucket_returns {rest : List McdHashT} {latedel : Option McdHashT} {tot : UInt64}
    (h : s.Removable c .shared) (hs : s.shared i = latedel.toList ++ rest) :
    ∃ tot' t, Returns (sweepBucket c amount i rest latedel tot) s tot' t ∧
      t.Removable c .shared := by
  have hmem : ∀ m, latedel = some m → m ∈ s.shared i := fun m hm => by simp [hs, hm]
  induction rest generalizing latedel tot s with
  | nil =>
    obtain ⟨p, t, hret, ht, -⟩ : Clearing c false (sremove c i latedel ⟨tot, false⟩) s :=
      sremove_clearing h hmem
    exact ⟨p.tot, t, returns_bind.mpr ⟨p, t, hret, returns_pure.mpr ⟨rfl, rfl⟩⟩, ht⟩
  | cons curr rest ih =>
    obtain ⟨p, t, hret, ht, -⟩ : Clearing c false (sremove c i latedel ⟨tot, false⟩) s :=
      sremove_clearing h hmem
    obtain ⟨n, -, -, hent⟩ := sremove_latedel (tally_freed c) hret hs
    by_cases hstop : p.tot > amount
    · refine ⟨p.tot, t, returns_bind.mpr ⟨p, t, hret, ?_⟩, ht⟩
      rw [if_pos hstop]
      exact returns_pure.mpr ⟨rfl, rfl⟩
    · have hrest : t.shared i = (some curr).toList ++ rest := by
        rw [hent, Function.update_self]
        rfl
      obtain ⟨tot', u, hret', hu⟩ : ∃ tot' u,
          Returns (sweepBucket c amount i rest (some curr) p.tot) t tot' u ∧
            u.Removable c .shared := ih ht hrest fun m hm => by simp [hrest, hm]
      refine ⟨tot', u, returns_bind.mpr ⟨p, t, hret, ?_⟩, hu⟩
      rw [if_neg hstop]
      exact hret'

theorem sweep_returns {is : List Bucket} {tot : UInt64} (h : s.Removable c .shared) :
    ∃ tot' t, Returns (sweep c amount is tot) s tot' t ∧ t.Removable c .shared := by
  induction is generalizing tot s with
  | nil => exact ⟨tot, s, returns_pure.mpr ⟨rfl, rfl⟩, h⟩
  | cons i is ih =>
    obtain ⟨tot₁, t, hret, ht⟩ : ∃ tot₁ t,
        Returns (sweepBucket c amount i (s.shared i) none tot) s tot₁ t ∧ t.Removable c .shared :=
      sweepBucket_returns h rfl
    simp only [sweep, returns_bind, returns_get, and_assoc, exists_and_left, exists_eq_left]
    by_cases hstop : tot₁ > amount
    · refine ⟨tot₁, t, ⟨tot₁, t, hret, ?_⟩, ht⟩
      rw [if_pos hstop]
      exact returns_pure.mpr ⟨rfl, rfl⟩
    · obtain ⟨tot₂, u, hret₂, hu⟩ : ∃ tot₂ u,
          Returns (sweep c amount is tot₁) t tot₂ u ∧ u.Removable c .shared := ih ht
      refine ⟨tot₂, u, ⟨tot₁, t, hret, ?_⟩, hu⟩
      rw [if_neg hstop]
      exact hret₂

theorem replacePolicy_returns (h : s.Removable c .shared) :
    ∃ tot t, Returns (replacePolicy c now amount) s tot t ∧ t.Removable c .shared := by
  have hturns : s.tiers.numEntries .shared < s.sharedCount + 1 := by
    rw [sharedCount_eq]
    exact Nat.lt_succ_self _
  simp only [replacePolicy, returns_bind, returns_get, and_assoc, exists_and_left, exists_eq_left]
  cases s.replacementMode with
  | lfru => exact policyLoop_returns lfruBucket_clearing h hturns
  | fast => exact ⟨0, s, returns_pure.mpr ⟨rfl, rfl⟩, h⟩
  | score => exact policyLoop_returns scoreBucket_clearing h hturns

theorem sharedCacheFree_returns (h : s.Removable c .shared) :
    ∃ rc t, Returns (sharedCacheFree c amount) s rc t := by
  apply returns_bind_of (returns_reading.mpr ⟨rfl, rfl⟩)
  obtain ⟨tot, t, hpol, ht⟩ : ∃ tot t,
      Returns (replacePolicy c (c.now s.tick) amount) s.bump tot t ∧ t.Removable c .shared :=
    replacePolicy_returns h.bump
  have hrep : ∃ tot' u, Returns (sharedReplace c (c.now s.tick) amount) s.bump tot' u := by
    apply returns_bind_of hpol
    by_cases hlt : tot < amount
    · rw [if_pos hlt]
      obtain ⟨tot', u, hret, -⟩ : ∃ tot' u,
          Returns (sweep c amount (List.finRange 100) tot) t tot' u ∧ u.Removable c .shared :=
        sweep_returns ht
      exact ⟨tot', u, hret⟩
    · rw [if_neg hlt]
      exact ⟨tot, t, returns_pure.mpr ⟨rfl, rfl⟩⟩
  obtain ⟨tot', u, hrep⟩ := hrep
  exact returns_bind_of hrep ⟨_, u, returns_pure.mpr ⟨rfl, rfl⟩⟩

end

/-! ### The contract -/

/-- The bytes of the entries in the buckets. -/
def bucketBytes (ls : Bucket → List McdHashT) : Nat :=
  total ls (fun mh => mh.nrBytes.toNat) (List.finRange 100)

/-- What `shared_cache_free` promises, with the entries `gone` from the buckets. -/
structure SharedFreed (amount : UInt64) (s : State) (rc : Rc) (t : State)
    (gone : Bucket → List McdHashT) : Prop where
  survivors : ∀ i, (t.shared i).Sublist (s.shared i)
  taken : ∀ i, (s.shared i).Perm (t.shared i ++ gone i)
  code : rc = .errNo ∨ rc = .errNotMem
  success : rc = .errNo ↔ amount.toNat ≤ bucketBytes s.shared
  enough : rc = .errNo → amount.toNat ≤ bucketBytes gone
  emptied : rc = .errNotMem → ∀ i, t.shared i = []
  counter : t.data.shrNrBytes = s.data.shrNrBytes - UInt64.ofNat (bucketBytes gone)

theorem bucketBytes_append {ls ls' ms : Bucket → List McdHashT}
    (h : ∀ i, (ls i).Perm (ls' i ++ ms i)) : bucketBytes ls = bucketBytes ls' + bucketBytes ms := by
  have key : ∀ is : List Bucket, total ls (fun mh => mh.nrBytes.toNat) is =
      total ls' (fun mh => mh.nrBytes.toNat) is + total ms (fun mh => mh.nrBytes.toNat) is := by
    intro is
    induction is with
    | nil => rfl
    | cons i is ih =>
      have hi := ((h i).map fun mh => mh.nrBytes.toNat).sum_eq
      rw [List.map_append, List.sum_append] at hi
      simp only [total_cons]
      omega
  exact key _

theorem ofNat_removedBytes (l : List (Loc × McdHashT)) :
    UInt64.ofNat (removedBytes l) = (l.map fun x => x.2.bytes).sum := by
  have hsum := toNat_sum_bytes (l.map (·.2))
  rw [List.map_map, List.map_map] at hsum
  apply UInt64.toNat_inj.mp
  rw [UInt64.toNat_ofNat']
  exact hsum.symm

/-- The entries a sequence of removals takes from the buckets. -/
theorem Removals.gone {c : Ctx} {s t : Tiers} {l : List (Loc × McdHashT)} (h : Removals c s l t)
    (hl : ∀ x ∈ l, IsBucket x.1) :
    ∃ gone : Bucket → List McdHashT,
      (∀ i, (t.entries (.bucket i)).Sublist (s.entries (.bucket i)) ∧
        (s.entries (.bucket i)).Perm (t.entries (.bucket i) ++ gone i)) ∧
      bucketBytes gone = removedBytes l ∧
      t.data.shrNrBytes = s.data.shrNrBytes - (l.map fun x => x.2.bytes).sum := by
  induction h with
  | nil t =>
    refine ⟨fun _ => [], fun i => ⟨List.Sublist.refl _, by simp⟩, ?_, by simp⟩
    exact total_eq_zero (by simp)
  | cons hrem _ ih =>
    rename_i s u t loc mh rest _
    obtain ⟨gone, hgone, hbytes, hdata⟩ := ih fun x hx => hl x (List.mem_cons_of_mem _ hx)
    have hloc : IsBucket loc := hl (loc, mh) List.mem_cons_self
    cases loc with
    | dom d => exact CacheMode.noConfusion hloc
    | bucket j =>
      have hent := hrem.entries_eq
      have hmem : mh ∈ s.entries (.bucket j) := by
        cases hrem with
        | drop mem => exact mem
        | evict mem => exact mem
      have hcut : u.data.shrNrBytes = s.data.shrNrBytes - mh.bytes := by
        cases hrem <;> rfl
      refine ⟨Function.update gone j (gone j ++ [mh]), fun i => ?_, ?_, ?_⟩
      · obtain ⟨hsub, hperm⟩ := hgone i
        rw [hent] at hsub hperm
        by_cases hi : i = j
        · rw [hi, Function.update_self] at hsub hperm
          rw [hi, Function.update_self]
          refine ⟨hsub.trans List.erase_sublist, (List.perm_cons_erase hmem).trans ?_⟩
          rw [← List.append_assoc]
          exact (hperm.cons mh).trans (List.perm_append_singleton mh _).symm
        · have hne : Loc.bucket i ≠ Loc.bucket j := fun h => hi (Loc.bucket.inj h)
          rw [Function.update_of_ne hne] at hsub hperm
          rw [Function.update_of_ne hi]
          exact ⟨hsub, hperm⟩
      · have hconcat : bucketBytes (Function.update gone j (gone j ++ [mh])) =
            bucketBytes gone + mh.nrBytes.toNat :=
          total_concat (List.nodup_finRange 100) (List.mem_finRange j) mh
        rw [hconcat, hbytes]
        simp only [removedBytes, List.map_cons, List.sum_cons]
        omega
      · rw [hdata, hcut, List.map_cons, List.sum_cons, sub_sub]

/-- Domain 1 is gone, its shared entry is not. -/
def System.oneOrphan : System := System.oneShared.after [⟨.calm, .destroy 1⟩]

end UniCache.Mcd
