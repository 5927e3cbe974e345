import Mathlib.Logic.Relation
import UniCache.Mcd.Passes
import UniCache.Mcd.Reclaim

/-! The reclaim behind `mcd_malloc` as a sequence of small steps, each removal of an entry that is
in its list. -/
namespace UniCache.Mcd
open Base Base.Exec

/-- All that the reclaim does to the state. -/
inductive Strip (c : Ctx) : State → State → Prop
  | bump (s : State) : Strip c s s.bump
  | addr (s : State) (n : Nat) : Strip c s { s with nextAddr := n }
  | usage (total : UInt64) (id : Domid) (s : State) :
      Strip c s (s.modifyDom id (·.withUsage total))
  | bucket {i : Bucket} {mh : McdHashT} {b : UInt64} {s t : State} (mem : mh ∈ s.shared i)
      (removal : Returns (sRemoveHashT c i mh .moveToSsd) s b t) : Strip c s t
  | dom {id : Domid} {mh : McdHashT} {b : UInt64} {s t : State} (mem : mh ∈ s.entries (.dom id))
      (removal : Returns (pRemoveHashT c id mh .moveToSsd) s b t) : Strip c s t

def Stripped (c : Ctx) : State → State → Prop := Relation.ReflTransGen (Strip c)

section
variable {c : Ctx} {s t u : State}

theorem Strip.stripped (h : Strip c s t) : Stripped c s t := Relation.ReflTransGen.single h

theorem Stripped.trans (h₁ : Stripped c s t) (h₂ : Stripped c t u) : Stripped c s u :=
  Relation.ReflTransGen.trans h₁ h₂

/-- What holds across the steps, and is transitive, holds across the reclaim. -/
theorem Stripped.induct {R : State → State → Prop} (refl : ∀ s, R s s)
    (trans : ∀ {s t u}, R s t → R t u → R s u) (step : ∀ {s t}, Strip c s t → R s t)
    (h : Stripped c s t) : R s t := by
  induction h with
  | refl => exact refl s
  | tail _ hstep ih => exact trans ih (step hstep)

theorem passive_stripped (c : Ctx) : Passive (Stripped c) where
  refl _ := .refl
  trans h₁ h₂ := h₁.trans h₂
  bump s := (Strip.bump s).stripped
  addr s n := (Strip.addr s n).stripped
  usage total id s := (Strip.usage total id s).stripped

end

/-! ### The shared buckets -/

section
variable {c : Ctx} {now : Int} {amount : UInt64} {i : Bucket} {s t : State}

theorem sremove_stripped {mh : Option McdHashT} {p q : Progress}
    (h : Returns (sremove c i mh p) s q t) (hm : ∀ m, mh = some m → m ∈ s.shared i) :
    Stripped c s t := by
  cases mh with
  | none =>
    obtain ⟨rfl, rfl⟩ := returns_pure.mp h
    exact .refl
  | some m =>
    obtain ⟨b, s₁, hr, h⟩ := returns_bind.mp h
    obtain ⟨rfl, rfl⟩ := returns_pure.mp h
    exact (Strip.bucket (hm m rfl) hr).stripped

theorem lfruBucket_stripped (p : Progress) : Within (Stripped c) (lfruBucket c now i p) := by
  intro s q t h
  simp only [lfruBucket, returns_bind, returns_get, and_assoc, exists_and_left,
    exists_eq_left] at h
  obtain ⟨p₁, s₁, h₁, h₂⟩ := h
  obtain ⟨-, -, -, he₁, -⟩ := sremove_spec (tally_freed c) h₁ lfruBucket_mem.1
  exact (sremove_stripped h₁ lfruBucket_mem.1).trans (sremove_stripped h₂ (lfruBucket_mem.2 he₁))

theorem scoreBucket_stripped (p : Progress) : Within (Stripped c) (scoreBucket c now i p) := by
  intro s q t h
  simp only [scoreBucket, returns_bind, returns_get, and_assoc, exists_and_left,
    exists_eq_left] at h
  exact sremove_stripped h fun m hm => minScore_mem hm

section
variable {bucket : Bucket → Progress → M Progress}
  (hb : ∀ i p, Within (Stripped c) (bucket i p))
include hb

theorem bucketRound_stripped (is : List Bucket) (p : Progress) :
    Within (Stripped c) (bucketRound amount bucket is p) := by
  induction is generalizing p with
  | nil => exact (passive_stripped c).pure p
  | cons i is ih =>
    exact (passive_stripped c).bind (hb i p) fun q => .ite ((passive_stripped c).pure q) (ih q)

theorem policyLoop_stripped (turns : Nat) (tot : UInt64) :
    Within (Stripped c) (policyLoop amount bucket turns tot) := by
  induction turns generalizing tot with
  | zero => exact .throw _
  | succ turns ih =>
    apply Within.ite _ ((passive_stripped c).pure tot)
    apply (passive_stripped c).bind (bucketRound_stripped hb _ _)
    intro p
    exact .ite (ih p.tot) ((passive_stripped c).pure p.tot)

end

theorem sweepBucket_stripped {rest : List McdHashT} {latedel : Option McdHashT} {tot tot' : UInt64}
    (h : Returns (sweepBucket c amount i rest latedel tot) s tot' t)
    (hs : s.shared i = latedel.toList ++ rest) : Stripped c s t := by
  have hmem : ∀ m, latedel = some m → m ∈ s.shared i := fun m hm => by simp [hs, hm]
  induction rest generalizing latedel tot s with
  | nil =>
    obtain ⟨p, s₁, h₁, h₂⟩ := returns_bind.mp h
    obtain ⟨rfl, rfl⟩ := returns_pure.mp h₂
    exact sremove_stripped h₁ hmem
  | cons curr rest ih =>
    obtain ⟨p, s₁, h₁, h₂⟩ := returns_bind.mp h
    have hfirst := sremove_stripped h₁ hmem
    obtain ⟨-, -, -, he⟩ := sremove_latedel (tally_freed c) h₁ hs
    by_cases hstop : p.tot > amount
    · rw [if_pos hstop] at h₂
      obtain ⟨rfl, rfl⟩ := returns_pure.mp h₂
      exact hfirst
    · rw [if_neg hstop] at h₂
      have hrest : s₁.shared i = (some curr).toList ++ rest := by
        rw [he, Function.update_self]
        rfl
      exact hfirst.trans (ih h₂ hrest fun m hm => by simp [hrest, hm])

theorem sweep_stripped (is : List Bucket) (tot : UInt64) :
    Within (Stripped c) (sweep c amount is tot) := by
  induction is generalizing tot with
  | nil => exact (passive_stripped c).pure tot
  | cons i is ih =>
    intro s tot' t h
    simp only [sweep, returns_bind, returns_get, and_assoc, exists_and_left, exists_eq_left] at h
    obtain ⟨tot₁, s₁, h₁, h₂⟩ := h
    have hfirst := sweepBucket_stripped h₁ rfl
    have hrest : Within (Stripped c) (if tot₁ > amount then pure tot₁ else sweep c amount is tot₁) :=
      .ite ((passive_stripped c).pure tot₁) (ih tot₁)
    exact hfirst.trans (hrest _ _ _ h₂)

theorem sharedCacheFree_stripped : Within (Stripped c) (sharedCacheFree c amount) := by
  have hpolicy : ∀ now, Within (Stripped c) (replacePolicy c now amount) := by
    intro now
    apply (passive_stripped c).bind (passive_stripped c).get
    intro s
    cases s.replacementMode with
    | lfru => exact policyLoop_stripped (fun i p => lfruBucket_stripped p) _ _
    | fast => exact (passive_stripped c).pure _
    | score => exact policyLoop_stripped (fun i p => scoreBucket_stripped p) _ _
  apply (passive_stripped c).bind ((passive_stripped c).reading _)
  intro now
  apply (passive_stripped c).bind
  · apply (passive_stripped c).bind (hpolicy now)
    intro tot
    exact .ite (sweep_stripped _ tot) ((passive_stripped c).pure tot)
  · intro tot
    exact (passive_stripped c).pure _

end

/-! ### The domains' lists -/

section
variable {c : Ctx} {now : Int} {amount : UInt64} {id : Domid} {s t : State}

theorem Draws.stripped {l : List (Domid × McdHashT)} (h : Draws c s l t) : Stripped c s t := by
  refine Trace.invariant (I := Stripped c s) ?_ h .refl
  intro u x v hu hstep
  exact hu.trans (Strip.dom hstep.1 hstep.2).stripped

theorem walkRemove_stripped {stop : UInt64 → Bool} {d : McdDomain} {p q : Progress}
    (hd : findMcdDom id s = some d) (h : Returns (walkRemove c id stop d.hashList none p) s q t) :
    Stripped c s t := by
  obtain ⟨l, hl, -⟩ := walkRemove_draws h (by simpa using entries_of_find hd)
  exact hl.stripped

theorem brutallyFree_stripped (ids : List Domid) (p : Progress) :
    Within (Stripped c) (brutallyFree c amount ids p) := by
  induction ids generalizing p with
  | nil => exact (passive_stripped c).pure p
  | cons id ids ih =>
    intro s q t h
    simp only [brutallyFree, returns_bind, returns_domOf, and_assoc, exists_and_left,
      exists_eq_left] at h
    obtain ⟨d, hd, p₁, s₁, h₁, h₂⟩ := h
    have hrest : Within (Stripped c)
        (if p₁.tot > amount then pure p₁ else brutallyFree c amount ids p₁) :=
      .ite ((passive_stripped c).pure p₁) (ih p₁)
    exact (walkRemove_stripped hd h₁).trans (hrest _ _ _ h₂)

theorem selfBrutalPhase_stripped (p : Progress) :
    Within (Stripped c) (selfBrutalPhase c amount id p) := by
  intro s q t h
  obtain ⟨l, hl⟩ := selfBrutalPhase_draws h
  exact hl.stripped

theorem partitionCfWeightBased_stripped :
    Within (Stripped c) (partitionCfWeightBased c amount id) := by
  have hphases : ∀ now fair p,
      Within (Stripped c) (weightPhases c now amount id fair { toProgress := p, lfu := none }) := by
    intro now fair p s q t h
    obtain ⟨l, hl⟩ := weightPhases_passes h
    obtain ⟨-, k, hk⟩ := AnyPasses.draws hl
    exact hk.stripped
  have hp := passive_stripped c
  apply hp.bind (hp.reading _)
  intro now
  apply hp.bind hp.get
  intro s
  apply hp.bind (hp.domUsageUpdateAll _)
  intro _
  apply hp.bind (hp.bind hp.get fun s => .ite (brutallyFree_stripped _ _) (hp.pure _))
  intro p
  apply Within.ite (hp.pure _)
  apply hp.bind hp.get
  intro s
  apply hp.bind (hphases now _ p)
  intro r
  apply hp.bind (selfBrutalPhase_stripped _)
  intro p
  exact hp.pure _

theorem partitionCfAdaptiveDynamic_stripped :
    Within (Stripped c) (partitionCfAdaptiveDynamic c amount id) := by
  intro s rc t h
  simp only [partitionCfAdaptiveDynamic, returns_bind, returns_get, returns_pure, and_assoc,
    exists_and_left, exists_eq_left] at h
  obtain ⟨now, s₁, hnow, r, s₂, h₁, q, s₃, h₂, rfl, rfl⟩ := h
  obtain ⟨l₁, hl₁, -⟩ := adaptivePhase_passes h₁
  obtain ⟨l₂, hl₂, -⟩ := adaptivePhase_passes h₂
  obtain ⟨-, k, hk⟩ := AnyPasses.draws (hl₁.any.append hl₂.any)
  exact ((passive_stripped c).reading _ _ _ _ hnow).trans hk.stripped

end

/-! ### The reclaim -/

section
variable {c : Ctx} (amount size : UInt64) (id : Domid)

theorem cacheFree_stripped : Within (Stripped c) (cacheFree c amount id) := by
  have hp := passive_stripped c
  apply hp.bind hp.get
  intro s
  cases s.cacheMode with
  | shared => exact sharedCacheFree_stripped
  | partition =>
    apply hp.bind hp.get
    intro s
    cases s.partitionMode with
    | be => exact hp.pure _
    | wb => exact partitionCfWeightBased_stripped
    | ad => exact partitionCfAdaptiveDynamic_stripped

theorem mcdMalloc_stripped : Within (Stripped c) (mcdMalloc c size id) :=
  (passive_stripped c).mcdMalloc (fun amount => cacheFree_stripped amount id) size

end

/-- The rule for relations that hold across any removal. -/
theorem Reclaimed.of_stripped {c : Ctx} {R : State → State → Prop} (h : Reclaimed c R) {s t : State}
    (hst : Stripped c s t) : R s t := by
  refine hst.induct h.refl h.trans fun hstep => ?_
  cases hstep with
  | bump => exact h.bump _
  | addr _ n => exact h.addr _ n
  | usage total id => exact h.usage total id _
  | bucket _ removal => exact h.sRemove _ _ _ _ _ removal
  | dom _ removal => exact h.pRemove _ _ _ _ _ removal

theorem Reclaimed.cacheFree {c : Ctx} {R : State → State → Prop} (h : Reclaimed c R)
    (amount : UInt64) (id : Domid) : Within R (Mcd.cacheFree c amount id) :=
  fun _ _ _ hret => h.of_stripped (cacheFree_stripped amount id _ _ _ hret)

theorem Reclaimed.mcdMalloc {c : Ctx} {R : State → State → Prop} (h : Reclaimed c R)
    (size : UInt64) (id : Domid) : Within R (Mcd.mcdMalloc c size id) :=
  fun _ _ _ hret => h.of_stripped (mcdMalloc_stripped size id _ _ _ hret)

end UniCache.Mcd
