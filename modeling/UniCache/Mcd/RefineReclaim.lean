import Mathlib.Data.List.Perm.Subperm
import UniCache.Base.Chaining
import UniCache.Base.LeastScan
import UniCache.Mcd.Refine

/-! The reclaim routines as sequences of removals: what they take, and what they report. -/
namespace UniCache.Mcd
open Base.Exec

/-- From `s` to `t` entries of the lists in `P` were removed, `n` bytes in all. -/
def Freed (c : Ctx) (P : Loc → Prop) (s t : State) (n : UInt64) : Prop :=
  ∃ l, Removals c s.tiers l t.tiers ∧ (∀ x ∈ l, P x.1) ∧ n = (l.map fun x => x.2.bytes).sum

section
variable {c : Ctx} {P : Loc → Prop} {s t u : State} {m n : UInt64}

theorem freed_of_tiers_eq (h : t.tiers = s.tiers) : Freed c P s t 0 :=
  ⟨[], by rw [h]; exact .nil _, by simp, rfl⟩

theorem freed_one {loc : Loc} {mh : McdHashT} (hP : P loc)
    (h : Removal c s.tiers loc mh t.tiers) : Freed c P s t mh.bytes :=
  ⟨[(loc, mh)], .cons h (.nil _), by simpa using hP, by simp⟩

theorem Freed.trans (h₁ : Freed c P s t m) (h₂ : Freed c P t u n) : Freed c P s u (m + n) := by
  obtain ⟨l, hl, hPl, rfl⟩ := h₁
  obtain ⟨k, hk, hPk, rfl⟩ := h₂
  refine ⟨l ++ k, hl.append hk, ?_, ?_⟩
  · intro x hx
    rcases List.mem_append.mp hx with hx | hx
    · exact hPl x hx
    · exact hPk x hx
  · rw [List.map_append, List.sum_append]

end

/-- The two entries an LFRU scan chooses are different nodes of the list. -/
theorem lfruScan_subperm (now : Int) (l : List McdHashT) :
    ((lfruScan now none l).lru.toList ++ (lfruScan now none l).lfu.toList).Subperm l := by
  -- the invariant: what is held was taken from the part already scanned
  have key : ∀ (rest seen : List McdHashT) (x : LfruScan),
      (x.lru.toList ++ x.lfu.toList).Subperm seen →
      ((rest.foldl (LfruScan.step now) x).lru.toList ++
        (rest.foldl (LfruScan.step now) x).lfu.toList).Subperm (seen ++ rest) := by
    intro rest
    induction rest with
    | nil =>
      intro seen x hx
      simpa using hx
    | cons curr rest ih =>
      intro seen x hx
      have hstep : ((x.step now curr).lru.toList ++ (x.step now curr).lfu.toList).Subperm
          (seen ++ [curr]) := by
        have hlru : x.lru.toList.Subperm seen := (List.sublist_append_left _ _).subperm.trans hx
        have hlfu : x.lfu.toList.Subperm seen := (List.sublist_append_right _ _).subperm.trans hx
        unfold LfruScan.step
        by_cases h₁ : now - curr.putTime > x.maxtime
        · rw [if_pos h₁]
          have hperm : ([curr] ++ x.lfu.toList).Perm (x.lfu.toList ++ [curr]) := List.perm_append_comm
          exact hperm.subperm.trans (hlfu.append (.refl [curr]))
        · rw [if_neg h₁]
          by_cases h₂ : curr.ref < x.minref
          · rw [if_pos h₂]
            exact hlru.append (.refl [curr])
          · rw [if_neg h₂]
            exact hx.trans (List.sublist_append_left _ _).subperm
      have h := ih (seen ++ [curr]) (x.step now curr) hstep
      simpa using h
  simpa [lfruScan] using key l [] { maxtime := 0, minref := maxRef, lru := none, lfu := none }
    (by simp)

/-- The entry of least score is one of the list, and there is none only if every score is out of
bounds. -/
theorem minScore_cases (sd : ScoreParam) (now : Int) (l : List McdHashT) :
    minScore sd now l = none ∧ (∀ m ∈ l, maxRef ≤ score sd now m) ∨
      ∃ m ∈ l, score sd now m < maxRef ∧ minScore sd now l = some m := by
  obtain ⟨-, hmin, hfound⟩ := Base.leastStep_foldl (score sd now) id (maxRef, none) l
  have hscan : minScore sd now l = (l.foldl (Base.leastStep (score sd now) id) (maxRef, none)).2 :=
    rfl
  rcases hfound with hsame | ⟨m, hm, hlt, hfound⟩
  · rw [hsame] at hmin hscan
    exact .inl ⟨hscan, hmin⟩
  · rw [hfound] at hscan
    exact .inr ⟨m, hm, hlt, hscan⟩

theorem minScore_mem {sd : ScoreParam} {now : Int} {l : List McdHashT} {mh : McdHashT}
    (h : minScore sd now l = some mh) : mh ∈ l := by
  rcases minScore_cases sd now l with ⟨hnone, -⟩ | ⟨m, hm, -, hsome⟩
  · rw [hnone] at h
    cases h
  · rw [hsome] at h
    rwa [← Option.some.inj h]

/-- A removal takes one node from its list and leaves the other lists alone. -/
theorem Removal.entries_eq {c : Ctx} {t u : Tiers} {loc : Loc} {mh : McdHashT}
    (h : Removal c t loc mh u) :
    u.entries = Function.update t.entries loc ((t.entries loc).erase mh) := by
  cases h <;> rfl

/-- The shared buckets. -/
def IsBucket (loc : Loc) : Prop := loc.mode = .shared

/-- A relation that holds across removals from the buckets, with the bytes they took. -/
structure Tally (c : Ctx) (F : State → State → UInt64 → Prop) : Prop where
  quiet : ∀ {s t}, t.tiers = s.tiers → F s t 0
  trans : ∀ {s t u m n}, F s t m → F t u n → F s u (m + n)
  remove : ∀ {i mh s t}, mh ∈ s.shared i → Unlinks c .moveToSsd (.bucket i) mh s.tiers t.tiers →
    F s t mh.bytes

theorem tally_freed (c : Ctx) : Tally c (Freed c IsBucket) where
  quiet := freed_of_tiers_eq
  trans := Freed.trans
  remove hm h := freed_one (show IsBucket (.bucket _) from rfl) (h.removal hm).1

section
variable {c : Ctx} {F : State → State → UInt64 → Prop} (hF : Tally c F)
include hF

theorem sremove_spec {i : Bucket} {mh : Option McdHashT} {p q : Progress} {s t : State}
    (h : Returns (sremove c i mh p) s q t) (hm : ∀ m, mh = some m → m ∈ s.shared i) :
    ∃ n, F s t n ∧ q.tot = p.tot + n ∧
      t.entries = Function.update s.entries (.bucket i)
        (mh.elim (s.shared i) (s.shared i).erase) ∧
      (q.visited = true ↔ p.visited = true ∨ mh.isSome = true) := by
  cases mh with
  | none =>
    obtain ⟨rfl, rfl⟩ := returns_pure.mp h
    refine ⟨0, hF.quiet rfl, by simp, ?_, by simp⟩
    exact (Function.update_eq_self (Loc.bucket i) _).symm
  | some m =>
    obtain ⟨b, s₁, hr, h⟩ := returns_bind.mp h
    obtain ⟨rfl, rfl⟩ := returns_pure.mp h
    obtain ⟨rfl, hun⟩ := sRemoveHashT_unlinks hr
    have hmem : m ∈ s.tiers.entries (.bucket i) := hm m rfl
    exact ⟨m.bytes, hF.remove hmem hun, rfl, (hun.removal hmem).1.entries_eq, by simp⟩

omit hF in
/-- The two entries an LFRU round takes from a bucket are there when their turn comes. -/
theorem lfruBucket_mem {now : Int} {i : Bucket} {s : State} :
    (∀ m, (lfruScan now none (s.shared i)).lru = some m → m ∈ s.shared i) ∧
      ∀ {t : State}, t.entries = Function.update s.entries (.bucket i)
        ((lfruScan now none (s.shared i)).lru.elim (s.shared i) (s.shared i).erase) →
        ∀ m, (lfruScan now none (s.shared i)).lfu = some m → m ∈ t.shared i := by
  have hsub := lfruScan_subperm now (s.shared i)
  constructor
  · intro m hm
    exact hsub.subset (by simp [hm])
  · intro t he m hm
    have ht : t.shared i = (lfruScan now none (s.shared i)).lru.elim (s.shared i)
        (s.shared i).erase := by
      have h := congrFun he (.bucket i)
      rw [Function.update_self] at h
      exact h
    rw [ht]
    cases hl : (lfruScan now none (s.shared i)).lru with
    | none => exact hsub.subset (by simp [hm])
    | some r =>
      -- the second entry survives the removal of the first
      rw [hl, hm] at hsub
      have h := hsub.erase r
      simp only [Option.toList_some, List.singleton_append, List.erase_cons_head] at h
      exact h.subset (by simp)

theorem lfruBucket_spec {now : Int} {i : Bucket} {p q : Progress} {s t : State}
    (h : Returns (lfruBucket c now i p) s q t) :
    ∃ n, F s t n ∧ q.tot = p.tot + n := by
  simp only [lfruBucket, returns_bind, returns_get, and_assoc, exists_and_left,
    exists_eq_left] at h
  obtain ⟨p₁, s₁, h₁, h₂⟩ := h
  obtain ⟨n₁, hf₁, ht₁, he₁, -⟩ := sremove_spec hF h₁ lfruBucket_mem.1
  obtain ⟨n₂, hf₂, ht₂, -, -⟩ := sremove_spec hF h₂ (lfruBucket_mem.2 he₁)
  exact ⟨n₁ + n₂, hF.trans hf₁ hf₂, by rw [ht₂, ht₁, UInt64.add_assoc]⟩

theorem scoreBucket_spec {now : Int} {i : Bucket} {p q : Progress} {s t : State}
    (h : Returns (scoreBucket c now i p) s q t) :
    ∃ n, F s t n ∧ q.tot = p.tot + n := by
  simp only [scoreBucket, returns_bind, returns_get, and_assoc, exists_and_left,
    exists_eq_left] at h
  obtain ⟨n, hf, ht, -, -⟩ := sremove_spec hF h fun m hm => minScore_mem hm
  exact ⟨n, hf, ht⟩

section
variable {amount : UInt64} {bucket : Bucket → Progress → M Progress}
  (hb : ∀ {i p q s t}, Returns (bucket i p) s q t → ∃ n, F s t n ∧ q.tot = p.tot + n)
include hb

theorem bucketRound_spec {is : List Bucket} {p q : Progress} {s t : State}
    (h : Returns (bucketRound amount bucket is p) s q t) :
    ∃ n, F s t n ∧ q.tot = p.tot + n := by
  induction is generalizing p s with
  | nil =>
    obtain ⟨rfl, rfl⟩ := returns_pure.mp h
    exact ⟨0, hF.quiet rfl, by simp⟩
  | cons i is ih =>
    obtain ⟨p₁, s₁, h₁, h₂⟩ := returns_bind.mp h
    obtain ⟨n₁, hf₁, ht₁⟩ := hb h₁
    by_cases hstop : p₁.tot > amount
    · rw [if_pos hstop] at h₂
      obtain ⟨rfl, rfl⟩ := returns_pure.mp h₂
      exact ⟨n₁, hf₁, ht₁⟩
    · rw [if_neg hstop] at h₂
      obtain ⟨n₂, hf₂, ht₂⟩ := ih h₂
      exact ⟨n₁ + n₂, hF.trans hf₁ hf₂, by rw [ht₂, ht₁, UInt64.add_assoc]⟩

theorem policyLoop_spec {turns : Nat} {tot tot' : UInt64} {s t : State}
    (h : Returns (policyLoop amount bucket turns tot) s tot' t) :
    ∃ n, F s t n ∧ tot' = tot + n := by
  induction turns generalizing tot s with
  | zero => exact (returns_throw.mp h).elim
  | succ turns ih =>
    unfold policyLoop at h
    by_cases hlt : tot < amount
    · rw [if_pos hlt] at h
      obtain ⟨p, s₁, h₁, h₂⟩ := returns_bind.mp h
      obtain ⟨n₁, hf₁, ht₁⟩ := bucketRound_spec hF hb h₁
      by_cases hv : p.visited = true
      · rw [if_pos hv] at h₂
        obtain ⟨n₂, hf₂, ht₂⟩ := ih h₂
        exact ⟨n₁ + n₂, hF.trans hf₁ hf₂, by rw [ht₂, ht₁, UInt64.add_assoc]⟩
      · rw [if_neg hv] at h₂
        obtain ⟨rfl, rfl⟩ := returns_pure.mp h₂
        exact ⟨n₁, hf₁, ht₁⟩
    · rw [if_neg hlt] at h
      obtain ⟨rfl, rfl⟩ := returns_pure.mp h
      exact ⟨0, hF.quiet rfl, by simp⟩

end

/-- Removal of the node the walk has passed. -/
theorem sremove_latedel {i : Bucket} {latedel : Option McdHashT} {rest : List McdHashT}
    {p q : Progress} {s t : State} (h : Returns (sremove c i latedel p) s q t)
    (hs : s.shared i = latedel.toList ++ rest) :
    ∃ n, F s t n ∧ q.tot = p.tot + n ∧ t.shared = Function.update s.shared i rest := by
  obtain ⟨n, hf, ht, he, -⟩ := sremove_spec hF h fun m hm => by simp [hs, hm]
  have hrest : latedel.elim (s.shared i) (s.shared i).erase = rest := by
    cases latedel with
    | none => simpa using hs
    | some m => simp [hs]
  refine ⟨n, hf, ht, funext fun j => ?_⟩
  have hj := congrFun he (.bucket j)
  rw [hrest] at hj
  by_cases hji : j = i
  · subst hji
    rw [Function.update_self] at hj ⊢
    exact hj
  · rw [Function.update_of_ne (by simpa using hji)] at hj
    rw [Function.update_of_ne hji]
    exact hj

theorem sweepBucket_spec {amount : UInt64} {i : Bucket} {rest : List McdHashT}
    {latedel : Option McdHashT} {tot tot' : UInt64} {s t : State}
    (h : Returns (sweepBucket c amount i rest latedel tot) s tot' t)
    (hs : s.shared i = latedel.toList ++ rest) :
    ∃ n, F s t n ∧ tot' = tot + n ∧ (∀ j ≠ i, t.shared j = s.shared j) ∧
      (tot' > amount ∨ t.shared i = []) := by
  induction rest generalizing latedel tot s with
  | nil =>
    obtain ⟨p, s₁, h₁, h₂⟩ := returns_bind.mp h
    obtain ⟨rfl, rfl⟩ := returns_pure.mp h₂
    obtain ⟨n, hf, ht, he⟩ := sremove_latedel hF h₁ hs
    refine ⟨n, hf, ht, fun j hj => ?_, .inr ?_⟩
    · rw [he, Function.update_of_ne hj]
    · rw [he, Function.update_self]
  | cons curr rest ih =>
    obtain ⟨p, s₁, h₁, h₂⟩ := returns_bind.mp h
    obtain ⟨n, hf, ht, he⟩ := sremove_latedel hF h₁ hs
    have hother : ∀ j ≠ i, s₁.shared j = s.shared j := fun j hj => by
      rw [he, Function.update_of_ne hj]
    by_cases hstop : p.tot > amount
    · rw [if_pos hstop] at h₂
      obtain ⟨rfl, rfl⟩ := returns_pure.mp h₂
      exact ⟨n, hf, ht, hother, .inl hstop⟩
    · rw [if_neg hstop] at h₂
      obtain ⟨n₂, hf₂, ht₂, ho₂, hend⟩ := ih h₂ (by rw [he, Function.update_self]; rfl)
      refine ⟨n + n₂, hF.trans hf hf₂, by rw [ht₂, ht, UInt64.add_assoc], fun j hj => ?_, hend⟩
      rw [ho₂ j hj, hother j hj]

/-- The sweep frees more than was asked for, or empties every bucket it was given. -/
theorem sweep_spec {amount : UInt64} {is : List Bucket} {tot tot' : UInt64} {s t : State}
    (hnd : is.Nodup) (h : Returns (sweep c amount is tot) s tot' t) :
    ∃ n, F s t n ∧ tot' = tot + n ∧ (∀ j ∉ is, t.shared j = s.shared j) ∧
      (tot' > amount ∨ ∀ j ∈ is, t.shared j = []) := by
  induction is generalizing tot s with
  | nil =>
    obtain ⟨rfl, rfl⟩ := returns_pure.mp h
    exact ⟨0, hF.quiet rfl, by simp, fun _ _ => rfl, .inr (by simp)⟩
  | cons i is ih =>
    obtain ⟨hi, hnd⟩ := List.nodup_cons.mp hnd
    simp only [sweep, returns_bind, returns_get, and_assoc, exists_and_left, exists_eq_left] at h
    obtain ⟨tot₁, s₁, h₁, h₂⟩ := h
    obtain ⟨n, hf, ht, ho, hend⟩ := sweepBucket_spec hF h₁ rfl
    by_cases hstop : tot₁ > amount
    · rw [if_pos hstop] at h₂
      obtain ⟨rfl, rfl⟩ := returns_pure.mp h₂
      exact ⟨n, hf, ht, fun j hj => ho j fun hji => hj (by simp [hji]), .inl hstop⟩
    · rw [if_neg hstop] at h₂
      obtain ⟨n₂, hf₂, ht₂, ho₂, hend₂⟩ := ih hnd h₂
      refine ⟨n + n₂, hF.trans hf hf₂, by rw [ht₂, ht, UInt64.add_assoc], fun j hj => ?_, ?_⟩
      · rw [List.mem_cons, not_or] at hj
        rw [ho₂ j hj.2, ho j hj.1]
      · refine hend₂.imp_right fun hall j hj => ?_
        rcases List.mem_cons.mp hj with rfl | hj
        · rw [ho₂ j hi]
          exact hend.resolve_left hstop
        · exact hall j hj

theorem replacePolicy_spec {now : Int} {amount tot : UInt64} {s t : State}
    (h : Returns (replacePolicy c now amount) s tot t) : F s t tot := by
  simp only [replacePolicy, returns_bind, returns_get, and_assoc, exists_and_left,
    exists_eq_left] at h
  cases hm : s.replacementMode with
  | lfru =>
    rw [hm] at h
    obtain ⟨n, hf, ht⟩ := policyLoop_spec hF (lfruBucket_spec hF) h
    rw [ht, UInt64.zero_add]
    exact hf
  | fast =>
    rw [hm] at h
    obtain ⟨rfl, rfl⟩ := returns_pure.mp h
    exact hF.quiet rfl
  | score =>
    rw [hm] at h
    obtain ⟨n, hf, ht⟩ := policyLoop_spec hF (scoreBucket_spec hF) h
    rw [ht, UInt64.zero_add]
    exact hf

theorem sharedReplace_spec {now : Int} {amount tot : UInt64} {s t : State}
    (h : Returns (sharedReplace c now amount) s tot t) :
    F s t tot ∧ (amount ≤ tot ∨ ∀ i, t.shared i = []) := by
  obtain ⟨tot₁, s₁, hpol, h⟩ := returns_bind.mp h
  have hf := replacePolicy_spec hF hpol
  by_cases hlt : tot₁ < amount
  · rw [if_pos hlt] at h
    obtain ⟨n, hf₂, rfl, -, hend⟩ := sweep_spec hF (List.nodup_finRange 100) h
    exact ⟨hF.trans hf hf₂, hend.imp (fun h => UInt64.le_of_lt h) fun h i => h i (List.mem_finRange i)⟩
  · rw [if_neg hlt] at h
    obtain ⟨rfl, rfl⟩ := returns_pure.mp h
    exact ⟨hf, .inl (UInt64.not_lt.mp hlt)⟩

theorem sharedCacheFree_tally {amount : UInt64} {rc : Rc} {s t : State}
    (h : Returns (sharedCacheFree c amount) s rc t) :
    ∃ n, F s t n ∧
      ((rc = .errNo ∧ amount ≤ n) ∨ (rc = .errNotMem ∧ n < amount ∧ ∀ i, t.shared i = [])) := by
  obtain ⟨now, s₁, hnow, h⟩ := returns_bind.mp h
  obtain ⟨-, rfl⟩ := returns_reading.mp hnow
  obtain ⟨tot, s₂, hrep, h⟩ := returns_bind.mp h
  obtain ⟨rfl, rfl⟩ := returns_pure.mp h
  obtain ⟨hf, hend⟩ := sharedReplace_spec hF hrep
  have hall : F s t tot := by
    have hquiet : F s s.bump 0 := hF.quiet rfl
    simpa using hF.trans hquiet hf
  refine ⟨tot, hall, ?_⟩
  by_cases hlt : tot < amount
  · rw [if_pos hlt]
    exact .inr ⟨rfl, hlt, hend.resolve_left (UInt64.not_le.mpr hlt)⟩
  · rw [if_neg hlt]
    exact .inl ⟨rfl, UInt64.not_lt.mp hlt⟩

end

/-- `shared_cache_free` frees what it was asked for, or empties the shared buckets. -/
theorem sharedCacheFree_spec {c : Ctx} {amount : UInt64} {rc : Rc} {s t : State}
    (h : Returns (sharedCacheFree c amount) s rc t) :
    ∃ n, Freed c IsBucket s t n ∧
      ((rc = .errNo ∧ amount ≤ n) ∨ (rc = .errNotMem ∧ n < amount ∧ ∀ i, t.shared i = [])) :=
  sharedCacheFree_tally (tally_freed c) h

end UniCache.Mcd
