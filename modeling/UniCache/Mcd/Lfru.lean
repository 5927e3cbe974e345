import UniCache.Base.TwoScan
import UniCache.Mcd.Passes
import UniCache.Mcd.SharedContract

/-! What an LFRU pass takes from a list: in the shared buckets, and in the domains' lists. -/
namespace UniCache.Mcd
open Base Base.Exec

def McdHashT.age (now : Int) (mh : McdHashT) : Int := now - mh.putTime

def McdHashT.uses (mh : McdHashT) : Nat := mh.ref.toNat

/-- The scan of the source as a scan for two extremes. -/
def LfruScan.two (x : LfruScan) : TwoScan McdHashT Int Nat where
  top := x.maxtime
  low := x.minref.toNat
  first := x.lru
  second := x.lfu

theorem LfruScan.two_step (now : Int) (x : LfruScan) (mh : McdHashT) :
    (x.step now mh).two = TwoScan.step (McdHashT.age now) McdHashT.uses x.two mh := by
  have hage : (now - mh.putTime > x.maxtime) = (x.two.top < mh.age now) := rfl
  have huse : (mh.ref < x.minref) = (mh.uses < x.two.low) := propext UInt32.lt_iff_toNat_lt
  simp only [LfruScan.step, TwoScan.step, hage, huse]
  split_ifs <;> rfl

theorem lfruScan_two (now : Int) (l : List McdHashT) :
    (lfruScan now none l).two =
      l.foldl (TwoScan.step (McdHashT.age now) McdHashT.uses) ⟨0, maxRef.toNat, none, none⟩ := by
  have key : ∀ x : LfruScan, (l.foldl (LfruScan.step now) x).two =
      l.foldl (TwoScan.step (McdHashT.age now) McdHashT.uses) x.two := by
    induction l with
    | nil => exact fun x => rfl
    | cons mh l ih =>
      intro x
      rw [List.foldl_cons, List.foldl_cons, ih, LfruScan.two_step]
  exact key _

/-- The entries that were the oldest so far until an older one came; their `ref` is never looked
at. -/
def displaced (now : Int) (l : List McdHashT) : List McdHashT :=
  (records (McdHashT.age now) 0 l).dropLast

/-- The entries whose `ref` the scan compares. -/
def tested (now : Int) (l : List McdHashT) : List McdHashT := others (McdHashT.age now) 0 l

section
variable {now : Int} {l : List McdHashT}

theorem lfruScan_lru (now : Int) (l : List McdHashT) :
    (lfruScan now none l).lru = (records (McdHashT.age now) 0 l).getLast? := by
  have h := congrArg TwoScan.first (lfruScan_two now l)
  rw [TwoScan.first_foldl, Option.or_none] at h
  exact h

/-- The scan's first choice is an oldest entry; the others are those displaced and those tested. -/
theorem lfruScan_oldest (hne : l ≠ []) (hpast : ∀ m ∈ l, m.putTime < now) :
    ∃ r, (lfruScan now none l).lru = some r ∧ r ∈ l ∧ (∀ m ∈ l, r.putTime ≤ m.putTime) ∧
      (displaced now l ++ tested now l).Perm (l.erase r) := by
  have hall := records_append_others_perm (McdHashT.age now) 0 l
  have htop := TwoScan.top_foldl (McdHashT.age now) McdHashT.uses
    ⟨0, maxRef.toNat, none, none⟩ l
  obtain ⟨-, hle⟩ := TwoScan.le_top_foldl (McdHashT.age now) McdHashT.uses
    ⟨0, maxRef.toNat, none, none⟩ l
  rw [htop] at hle
  rw [lfruScan_lru]
  cases hlast : (records (McdHashT.age now) 0 l).getLast? with
  | none =>
    -- every entry is older than the floor the scan starts with
    rw [hlast] at hle
    obtain ⟨m, hm⟩ := List.exists_mem_of_ne_nil l hne
    have hage : now - m.putTime ≤ 0 := hle m hm
    have := hpast m hm
    omega
  | some r =>
    rw [hlast] at hle
    have hsplit : records (McdHashT.age now) 0 l = displaced now l ++ [r] :=
      (List.dropLast_append_getLast? r hlast).symm
    rw [hsplit, List.append_assoc] at hall
    have hcons : (r :: (displaced now l ++ tested now l)).Perm l :=
      List.perm_middle.symm.trans hall
    refine ⟨r, rfl, hcons.subset List.mem_cons_self, fun m hm => ?_, ?_⟩
    · have hage : now - m.putTime ≤ now - r.putTime := hle m hm
      omega
    · have h := hcons.erase r
      rwa [List.erase_cons_head] at h

/-- The scan's second choice is a least used one of the entries it has tested. -/
theorem lfruScan_least (href : ∀ m ∈ l, m.ref < maxRef) :
    (lfruScan now none l).lfu = none ∧ tested now l = [] ∨
      ∃ f ∈ tested now l, (lfruScan now none l).lfu = some f ∧ ∀ m ∈ tested now l, f.ref ≤ m.ref := by
  have hall := records_append_others_perm (McdHashT.age now) 0 l
  obtain ⟨-, hmin, hsec⟩ := TwoScan.second_foldl (McdHashT.age now) McdHashT.uses
    ⟨0, maxRef.toNat, none, none⟩ l
  have hlfu := congrArg TwoScan.second (lfruScan_two now l)
  rcases hsec with ⟨hlow, hnone⟩ | ⟨f, hf, -, huse, hsome⟩
  · refine .inl ⟨hlfu.trans hnone, List.eq_nil_iff_forall_not_mem.mpr fun m hm => ?_⟩
    have hle : maxRef.toNat ≤ m.ref.toNat := by
      have h := hmin m hm
      rwa [hlow] at h
    have hlt := UInt32.lt_iff_toNat_lt.mp (href m (hall.subset (List.mem_append_right _ hm)))
    omega
  · refine .inr ⟨f, hf, hlfu.trans hsome, fun m hm => UInt32.le_iff_toNat_le.mpr ?_⟩
    have h := hmin m hm
    rwa [← huse] at h

/-- The scan chooses nothing just when no entry is older than now and every one is used too much. -/
theorem lfruScan_nothing_iff :
    (lfruScan now none l).lru = none ∧ (lfruScan now none l).lfu = none ↔
      ∀ m ∈ l, now ≤ m.putTime ∧ maxRef ≤ m.ref := by
  have hlfu := congrArg TwoScan.second (lfruScan_two now l)
  obtain ⟨-, hmin, hsec⟩ := TwoScan.second_foldl (McdHashT.age now) McdHashT.uses
    ⟨0, maxRef.toNat, none, none⟩ l
  have hall := records_append_others_perm (McdHashT.age now) 0 l
  rw [lfruScan_lru, List.getLast?_eq_none_iff]
  constructor
  · rintro ⟨hrec, hnone⟩ m hm
    have hold : now - m.putTime ≤ 0 := (records_eq_nil_iff _).mp hrec m hm
    rw [hrec, List.nil_append] at hall
    have hlow := hmin m (hall.symm.subset hm)
    rcases hsec with ⟨hsame, -⟩ | ⟨f, -, -, -, hsome⟩
    · rw [hsame] at hlow
      exact ⟨by omega, UInt32.le_iff_toNat_le.mpr hlow⟩
    · rw [← hlfu] at hsome
      exact absurd (hnone.symm.trans hsome) (by simp)
  · intro h
    have hrec : records (McdHashT.age now) 0 l = [] := (records_eq_nil_iff _).mpr fun m hm => by
      have := (h m hm).1
      show now - m.putTime ≤ 0
      omega
    refine ⟨hrec, ?_⟩
    rcases hsec with ⟨-, hnone⟩ | ⟨f, hf, hlt, -⟩
    · exact hlfu.trans hnone
    · have hge := UInt32.le_iff_toNat_le.mp (h f (hall.subset (List.mem_append_right _ hf))).2
      exact absurd hlt (Nat.not_lt.mpr hge)

end

/-! ### The pass over a bucket -/

/-- What the two removals of a pass leave of a list. -/
def LfruScan.leave (x : LfruScan) (l : List McdHashT) : List McdHashT :=
  x.lfu.elim (x.lru.elim l l.erase) (x.lru.elim l l.erase).erase

section
variable {c : Ctx} {now : Int} {i : Bucket} {p q : Progress} {s t : State}

theorem lfruBucket_left (h : Returns (lfruBucket c now i p) s q t) :
    t.entries = Function.update s.entries (.bucket i)
      ((lfruScan now none (s.shared i)).leave (s.shared i)) := by
  simp only [lfruBucket, returns_bind, returns_get, and_assoc, exists_and_left,
    exists_eq_left] at h
  obtain ⟨p₁, s₁, h₁, h₂⟩ := h
  obtain ⟨-, -, -, he₁, -⟩ := sremove_spec (tally_freed c) h₁ lfruBucket_mem.1
  obtain ⟨-, -, -, he₂, -⟩ := sremove_spec (tally_freed c) h₂ (lfruBucket_mem.2 he₁)
  have hmid : s₁.shared i = (lfruScan now none (s.shared i)).lru.elim (s.shared i)
      (s.shared i).erase := by
    have h := congrFun he₁ (.bucket i)
    rwa [Function.update_self] at h
  rw [he₂, he₁, hmid, Function.update_idem]
  rfl

/-- A pass takes an oldest entry. It takes a least used one of the others just when one of the
entries it tested is used no more than any that was displaced. -/
theorem lfruBucket_takes_least_iff (hne : s.shared i ≠ [])
    (hpast : ∀ m ∈ s.shared i, m.putTime < now) (href : ∀ m ∈ s.shared i, m.ref < maxRef) :
    (s.Removable c .shared → ∃ q t, Returns (lfruBucket c now i p) s q t) ∧
      ∀ q t, Returns (lfruBucket c now i p) s q t →
        ∃ r ∈ s.shared i, (∀ m ∈ s.shared i, r.putTime ≤ m.putTime) ∧
          ∃ o : Option McdHashT,
            t.shared i = o.elim ((s.shared i).erase r) ((s.shared i).erase r).erase ∧
            ((∃ f ∈ (s.shared i).erase r, o = some f ∧ ∀ m ∈ (s.shared i).erase r, f.ref ≤ m.ref) ↔
              ∃ f ∈ tested now (s.shared i), ∀ m ∈ displaced now (s.shared i), f.ref ≤ m.ref) := by
  constructor
  · intro hrem
    have hclear : Clearing c p.visited (lfruBucket c now i p) s := lfruBucket_clearing hrem
    obtain ⟨q, t, hret, -⟩ := hclear
    exact ⟨q, t, hret⟩
  intro q t h
  obtain ⟨r, hlru, hr, hold, hperm⟩ := lfruScan_oldest hne hpast
  refine ⟨r, hr, hold, (lfruScan now none (s.shared i)).lfu, ?_, ?_⟩
  · have hleft := congrFun (lfruBucket_left h) (.bucket i)
    rw [Function.update_self, LfruScan.leave, hlru] at hleft
    exact hleft
  have hothers : ∀ m, m ∈ (s.shared i).erase r ↔
      m ∈ displaced now (s.shared i) ∨ m ∈ tested now (s.shared i) := fun m => by
    rw [← hperm.mem_iff, List.mem_append]
  rcases lfruScan_least href with ⟨hnone, hempty⟩ | ⟨f, hf, hlfu, hmin⟩
  · rw [hnone, hempty]
    simp
  · rw [hlfu]
    constructor
    · rintro ⟨g, -, hg, hleast⟩
      obtain rfl := Option.some.inj hg
      exact ⟨f, hf, fun m hm => hleast m ((hothers m).mpr (.inl hm))⟩
    · rintro ⟨g, hg, hbelow⟩
      refine ⟨f, (hothers f).mpr (.inr hf), rfl, fun m hm => ?_⟩
      rcases (hothers m).mp hm with hm | hm
      · exact UInt32.le_trans (hmin g hg) (hbelow m hm)
      · exact hmin m hm

end

/-- Two entries in bucket 49, the older one first. -/
def System.twoAged : System := System.start.after [⟨.calm, .create 1⟩,
  ⟨.clock 1, .put 1 (.single 1) (.single 7)⟩, ⟨.clock 2, .put 1 (.single 9) (.single 8)⟩]

theorem lfruBucket_takes_least_twoAged :
    (System.twoAged.mcd.shared 49).length = 2 ∧
      ∀ q t, Returns (lfruBucket (System.twoAged.ctx .calm) 10 49 ⟨0, false⟩) System.twoAged.mcd q t →
        t.shared 49 = [] := by
  obtain ⟨hlen, hpast, href, hfit⟩ : (System.twoAged.mcd.shared 49).length = 2 ∧
      (∀ m ∈ System.twoAged.mcd.shared 49, m.putTime < 10) ∧
      (∀ m ∈ System.twoAged.mcd.shared 49, m.ref < maxRef) ∧
      ∃ f ∈ tested 10 (System.twoAged.mcd.shared 49),
        ∀ m ∈ displaced 10 (System.twoAged.mcd.shared 49), f.ref ≤ m.ref := by decide +kernel
  generalize System.twoAged = y at *
  have hne : y.mcd.shared 49 ≠ [] := by
    intro hnil
    simp [hnil] at hlen
  refine ⟨hlen, fun q t h => ?_⟩
  obtain ⟨r, hr, -, o, hleft, hiff⟩ := (lfruBucket_takes_least_iff hne hpast href).2 q t h
  obtain ⟨f, hf, rfl, -⟩ := hiff.mpr hfit
  have hlast : (((y.mcd.shared 49).erase r).erase f).length = 0 := by
    rw [List.length_erase_of_mem hf, List.length_erase_of_mem hr, hlen]
  rw [hleft]
  exact List.length_eq_zero_iff.mp hlast

/-- The first of the two has been read again. -/
def System.twoDisplaced : System := System.twoAged.after [⟨.clock 5, .get 1 (.single 1) 1⟩]

/-- The second entry, now the oldest, displaces the first, and only the second is removed. -/
theorem lfruBucket_spares_displaced :
    ∃ m r, System.twoDisplaced.mcd.shared 49 = [m, r] ∧ r.putTime < m.putTime ∧ m.putTime < 10 ∧
      m.ref < maxRef ∧ r.ref < maxRef ∧
      ∃ q t, Returns (lfruBucket (System.twoDisplaced.ctx .calm) 10 49 ⟨0, false⟩)
        System.twoDisplaced.mcd q t ∧ t.shared 49 = [m] := by
  obtain ⟨hlist, hfacts, hrun⟩ : (System.twoDisplaced.mcd.shared 49).length = 2 ∧
      (∀ x ∈ (System.twoDisplaced.mcd.shared 49).head?,
        ∀ y ∈ (System.twoDisplaced.mcd.shared 49).getLast?, y.putTime < x.putTime ∧ x.putTime < 10 ∧
          x.ref < maxRef ∧ y.ref < maxRef) ∧
      ((lfruBucket (System.twoDisplaced.ctx .calm) 10 49 ⟨0, false⟩).run
        System.twoDisplaced.mcd).toOption.map (fun x => x.2.shared 49) =
        some ((System.twoDisplaced.mcd.shared 49).take 1) := by decide +kernel
  obtain ⟨m, r, hmr⟩ := List.length_eq_two.mp hlist
  rw [hmr] at hfacts hrun
  obtain ⟨h₁, h₂, h₃, h₄⟩ := hfacts m rfl r rfl
  obtain ⟨q, t, hret, hleft⟩ := returns_of_map hrun
  exact ⟨m, r, hmr, h₁, h₂, h₃, h₄, q, t, hret, hleft⟩

/-! ### The pass over a domain's list -/

section
variable {c : Ctx} {now : Int} {id : Domid} {s t : State}

/-- In a list of distinct nodes the two choices are distinct, and the test `lru != lfu` lets both
removals through. -/
theorem lfruRemove_left {p q : Progress} (hnd : (s.entries (.dom id)).Nodup)
    (h : Returns (lfruRemove c id (lfruScan now none (s.entries (.dom id))) p) s q t) :
    t.entries = Function.update s.entries (.dom id)
      ((lfruScan now none (s.entries (.dom id))).leave (s.entries (.dom id))) := by
  obtain ⟨hlru, hlfu, hleft⟩ := @lfruRemove_mem now id s
  unfold lfruRemove at h
  by_cases hne : (lfruScan now none (s.entries (.dom id))).lru ≠
      (lfruScan now none (s.entries (.dom id))).lfu
  · rw [if_pos hne] at h
    obtain ⟨p₁, s₁, h₁, h₂⟩ := returns_bind.mp h
    obtain ⟨-, -, -, he₁⟩ := premove_spec h₁ hlru
    obtain ⟨-, -, -, he₂⟩ := premove_spec h₂ (hleft hne he₁)
    rw [he₂, he₁, Function.update_self, Function.update_idem]
    rfl
  · rw [if_neg hne] at h
    obtain ⟨-, -, -, he⟩ := premove_spec h hlfu
    have hsame := not_not.mp hne
    rw [he, LfruScan.leave]
    cases hl : (lfruScan now none (s.entries (.dom id))).lfu with
    | none => rw [hsame, hl]; rfl
    | some m =>
      have hsub := lfruScan_subperm now (s.entries (.dom id))
      rw [hsame, hl] at hsub
      have htwice : 2 ≤ (s.entries (.dom id)).count m := by simpa using hsub.count_le m
      have honce := List.nodup_iff_count_le_one.mp hnd m
      omega

theorem replaceModeSubroutine_left {r q : Reclaim} (hm : s.replacementMode = .lfru)
    (hr : r.lfu = none) (hnd : (s.entries (.dom id)).Nodup)
    (h : Returns (replaceModeSubroutine c now id r) s q t) :
    t.entries = Function.update s.entries (.dom id)
      ((lfruScan now none (s.entries (.dom id))).leave (s.entries (.dom id))) := by
  simp only [replaceModeSubroutine, hm, returns_bind, returns_domOf, returns_get, returns_pure,
    and_assoc, exists_and_left, exists_eq_left] at h
  obtain ⟨d, hd, p, u, hrem, -, rfl⟩ := h
  rw [hr, ← entries_of_find hd] at hrem
  exact lfruRemove_left hnd hrem

end

/-- Both routines start with a clean `lfu` pointer and then only execute the macro. Whatever was
executed before, an execution in LFRU mode finds the pointer clean and leaves of its list what the
pass over a bucket with the same list leaves. -/
theorem lfru_executions_agree (c : Ctx) (now : Int) (amount : UInt64) (domid : Domid) :
    (∀ fair p q s t,
      Returns (weightPhases c now amount domid fair { toProgress := p, lfu := none }) s q t →
        ∃ l, AnyPasses c now (s, p.tot, none) l (t, q.held)) ∧
    (∀ hrDom p q q' s t u,
      Returns (adaptivePhase c now amount hrDom { toProgress := p, lfu := none }) s q t →
        Returns (adaptivePhase c now amount domid q) t q' u →
        ∃ l, AnyPasses c now (s, p.tot, none) l (u, q'.held)) ∧
    ∀ s n l u h, (∀ id, (s.entries (.dom id)).Nodup) → AnyPasses c now (s, n, none) l (u, h) →
      u.replacementMode = .lfru →
        h.2 = none ∧ ∀ id r q v, r.held = h → Returns (replaceModeSubroutine c now id r) u q v →
          ∀ (c' : Ctx) i w p p' w', w.shared i = u.entries (.dom id) →
            Returns (lfruBucket c' now i p) w p' w' →
            v.entries = Function.update u.entries (.dom id) (w'.shared i) := by
  refine ⟨fun fair p q s t h => weightPhases_passes h, ?_, ?_⟩
  · intro hrDom p q q' s t u h₁ h₂
    obtain ⟨l₁, p₁, -⟩ := adaptivePhase_passes h₁
    obtain ⟨l₂, p₂, -⟩ := adaptivePhase_passes h₂
    exact ⟨_, p₁.any.append p₂.any⟩
  · intro s n l u h hnd hp hm
    obtain ⟨hclean, k, hdraws⟩ := hp.draws
    refine ⟨hclean, ?_⟩
    intro id r q v hr hret c' i w p p' w' hsame hbucket
    have hlfu : r.lfu = none := (congrArg Prod.snd hr).trans hclean
    have hleft := congrFun (lfruBucket_left hbucket) (.bucket i)
    rw [Function.update_self, hsame] at hleft
    have hshared : w'.shared i = _ := hleft
    rw [hshared]
    have hlist := (hnd id).sublist (hdraws.entries_sublist (.dom id))
    exact replaceModeSubroutine_left hm hlfu hlist hret

/-- Two entries in the list of domain 1. -/
def System.twoPrivate : System := System.start.after [⟨.calm, .create 1⟩, ⟨.calm, .cacheMode 2 1⟩,
  ⟨.clock 1, .put 1 (.single 1) (.single 7)⟩, ⟨.clock 2, .put 1 (.single 9) (.single 8)⟩]

theorem lfru_executions_agree_twoPrivate :
    ∃ q v p w, Returns (replaceModeSubroutine (System.twoPrivate.ctx .calm) 10 1 ⟨⟨0, false⟩, none⟩)
        System.twoPrivate.mcd q v ∧
      Returns (lfruBucket (System.twoPrivate.ctx .calm) 10 0 ⟨0, false⟩)
        { System.twoPrivate.mcd with shared := fun _ => System.twoPrivate.mcd.entries (.dom 1) } p w ∧
      v.entries = Function.update System.twoPrivate.mcd.entries (.dom 1) (w.shared 0) := by
  obtain ⟨hpass, hbucket, hone, hlist, hmode⟩ :
      ((replaceModeSubroutine (System.twoPrivate.ctx .calm) 10 1 ⟨⟨0, false⟩, none⟩).run
        System.twoPrivate.mcd).toOption.map (fun _ => ()) = some () ∧
      ((lfruBucket (System.twoPrivate.ctx .calm) 10 0 ⟨0, false⟩).run
        { System.twoPrivate.mcd with
          shared := fun _ => System.twoPrivate.mcd.entries (.dom 1) }).toOption.map (fun _ => ()) =
        some () ∧
      System.twoPrivate.mcd.domids = [1] ∧ (System.twoPrivate.mcd.entries (.dom 1)).Nodup ∧
      System.twoPrivate.mcd.replacementMode = .lfru := by decide +kernel
  generalize System.twoPrivate = y at *
  obtain ⟨q, v, hq, -⟩ := returns_of_map hpass
  obtain ⟨p, w, hp, -⟩ := returns_of_map hbucket
  have hnd : ∀ id, (y.mcd.entries (.dom id)).Nodup := by
    intro id
    by_cases hid : id = 1
    · rw [hid]
      exact hlist
    · have hfind : findMcdDom id y.mcd = none := by
        rw [findMcdDom, List.find?_eq_none]
        intro d hd hdid
        have hmem : d.domid ∈ y.mcd.domids := List.mem_map_of_mem hd
        rw [hone, List.mem_singleton, of_decide_eq_true hdid] at hmem
        exact hid hmem
      simp [State.entries, hfind]
  obtain ⟨-, hagree⟩ := (lfru_executions_agree _ _ 0 0).2.2 y.mcd 0 [] y.mcd
    (0, none) hnd (.nil _) hmode
  exact ⟨q, v, p, w, hq, hp, hagree 1 _ q v rfl hq _ 0 _ _ p w rfl hp⟩

end UniCache.Mcd
