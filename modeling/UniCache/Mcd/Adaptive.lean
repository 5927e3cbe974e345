import UniCache.Mcd.Lfru
import UniCache.Mcd.WeightReclaim

/-! Which domain `partition_cf_adaptive_dynamic` takes its first entry from. -/
namespace UniCache.Mcd
open Base Base.Exec

/-! ### The entries an execution can take -/

/-- `REPLACE_MODE_SUBROUTINE` can choose the entry: in LFRU mode an entry put in the past or used
less than `minref` at the start of the scan, in SCORE mode an entry below that bound. -/
def State.Pickable (s : State) (now : Int) (mh : McdHashT) : Prop :=
  match s.replacementMode with
  | .lfru => mh.putTime < now ∨ mh.ref < maxRef
  | .fast => True
  | .score => score s.sd now mh < maxRef

instance (s : State) (now : Int) (mh : McdHashT) : Decidable (s.Pickable now mh) := by
  unfold State.Pickable
  cases s.replacementMode <;> infer_instance

/-- An execution takes something if there is something it can choose. -/
theorem picks_eq_nil_iff {s : State} {now : Int} {l : List McdHashT} :
    s.picks now l = [] ↔ ∀ m ∈ l, ¬ s.Pickable now m := by
  cases hm : s.replacementMode with
  | lfru =>
    have hboth : s.picks now l = [] ↔
        (lfruScan now none l).lru = none ∧ (lfruScan now none l).lfu = none := by
      simp only [State.picks, hm]
      split_ifs with hne
      · simp
      · rw [not_not.mp hne]
        simp
    rw [hboth, lfruScan_nothing_iff]
    simp only [State.Pickable, hm, not_or, Int.not_lt, UInt32.not_lt]
  | fast =>
    simp only [State.picks, State.Pickable, hm, not_true]
    exact List.eq_nil_iff_forall_not_mem
  | score =>
    simp only [State.picks, State.Pickable, hm, UInt32.not_lt]
    rcases minScore_cases s.sd now l with ⟨hnone, hall⟩ | ⟨m, hmem, hlt, hsome⟩
    · rw [hnone]
      exact ⟨fun _ => hall, fun _ => rfl⟩
    · rw [hsome]
      constructor
      · intro h
        cases h
      · intro h
        exact absurd hlt (UInt32.not_lt.mpr (h m hmem))

/-! ### What the executions remove -/

/-- All that was removed, in order. -/
def removed (l : List (Domid × List McdHashT)) : List (Domid × McdHashT) :=
  l.flatMap fun e => e.2.map (Prod.mk e.1)

section
variable {c : Ctx} {now : Int} {s t : State} {n : UInt64} {id : Domid}

/-- The bytes an execution frees are those of what it takes. -/
theorem replaceModeSubroutine_tot {r q : Reclaim}
    (h : Returns (replaceModeSubroutine c now id r) s q t) (hr : r.lfu = none) :
    q.tot = r.tot + ((s.picks now (s.entries (.dom id))).map fun mh => mh.bytes).sum := by
  simp only [replaceModeSubroutine, returns_bind, returns_domOf, returns_get, and_assoc,
    exists_and_left, exists_eq_left] at h
  obtain ⟨d, hd, h⟩ := h
  rw [entries_of_find hd]
  cases hm : s.replacementMode with
  | lfru =>
    rw [hm, hr] at h
    simp only [State.picks, hm]
    obtain ⟨p, s₂, h₁, h₂⟩ := returns_bind.mp h
    obtain ⟨rfl, rfl⟩ := returns_pure.mp h₂
    unfold lfruRemove at h₁
    by_cases hne : (lfruScan now none d.hashList).lru ≠ (lfruScan now none d.hashList).lfu
    · rw [if_pos hne] at h₁ ⊢
      obtain ⟨p₁, s₁, h₁, h₂⟩ := returns_bind.mp h₁
      have htot : p.tot = _ := premove_tot h₂
      rw [htot, premove_tot h₁, List.map_append, List.sum_append, UInt64.add_assoc]
    · rw [if_neg hne] at h₁ ⊢
      exact premove_tot h₁
  | fast =>
    rw [hm] at h
    simp only [State.picks, hm]
    obtain ⟨p, s₂, h₁, h₂⟩ := returns_bind.mp h
    obtain ⟨rfl, rfl⟩ := returns_pure.mp h₂
    have htot : p.tot = _ := walkRemove_tot h₁
    exact htot
  | score =>
    rw [hm] at h
    simp only [State.picks, hm]
    obtain ⟨p, s₂, h₁, h₂⟩ := returns_bind.mp h
    obtain ⟨rfl, rfl⟩ := returns_pure.mp h₂
    have htot : p.tot = _ := premove_tot h₁
    exact htot

/-- An execution that takes nothing changes nothing. -/
theorem Execution.idle {x y : State × UInt64} {e : Domid × List McdHashT}
    (h : Execution c now x e y) (hnone : x.1.picks now (x.1.entries (.dom e.1)) = []) :
    y = x ∧ e.2 = [] := by
  obtain ⟨⟨r, q, hr, hq, hret⟩, he, hdraws⟩ := h
  rw [hnone] at he
  rw [he] at hdraws
  have htot := replaceModeSubroutine_tot hret (congrArg Prod.snd hr)
  rw [hnone, List.map_nil, List.sum_nil, UInt64.add_zero] at htot
  have hx : r.tot = x.2 := congrArg Prod.fst hr
  have hy : q.tot = y.2 := congrArg Prod.fst hq
  exact ⟨Prod.ext hdraws.eq_of_nil.symm (by rw [← hy, htot, hx]), he⟩

theorem Executions.idle {x y : State × UInt64} {l : List (Domid × List McdHashT)}
    (h : Executions c now x l y) (hl : ∀ e ∈ l, e.1 = id)
    (hnone : x.1.picks now (x.1.entries (.dom id)) = []) : y = x ∧ removed l = [] := by
  induction h with
  | nil x => exact ⟨rfl, rfl⟩
  | @cons x y z e l head tail ih =>
    have hid : e.1 = id := hl e List.mem_cons_self
    obtain ⟨rfl, he⟩ := head.idle (by rw [hid]; exact hnone)
    obtain ⟨rfl, hrest⟩ := ih (fun e' he' => hl e' (List.mem_cons_of_mem _ he')) hnone
    refine ⟨rfl, ?_⟩
    rw [removed, List.flatMap_cons, he]
    exact hrest

/-- If the first execution takes something, the first entry removed is from its domain. -/
theorem Executions.head_removed {x y : State × UInt64} {l : List (Domid × List McdHashT)}
    (h : Executions c now x l y) (hl : l.head?.map Prod.fst = some id)
    (hsome : x.1.picks now (x.1.entries (.dom id)) ≠ []) :
    ∃ m, (removed l).head? = some (id, m) := by
  cases h with
  | nil => cases hl
  | @cons _ y _ e l head tail =>
    obtain ⟨-, he, -⟩ := head
    have hid : e.1 = id := Option.some.inj hl
    rw [hid] at he
    obtain ⟨m, ms, hms⟩ := List.exists_cons_of_ne_nil hsome
    refine ⟨m, ?_⟩
    rw [removed, List.flatMap_cons, he, hms, hid]
    rfl

omit c now s t n in
theorem head_label {l l' : List (Domid × List McdHashT)} (hne : l ≠ []) (hl : ∀ e ∈ l, e.1 = id) :
    (l ++ l').head?.map Prod.fst = some id := by
  cases l with
  | nil => exact absurd rfl hne
  | cons e l => exact congrArg some (hl e List.mem_cons_self)

/-- Executions for one domain remove something just when it has something to choose at first. -/
theorem Executions.first_removed_iff {x y : State × UInt64} {l : List (Domid × List McdHashT)}
    {P : Domid → Prop} (h : Executions c now x l y) (hne : l ≠ []) (hl : ∀ e ∈ l, e.1 = id) :
    (∃ i m, (removed l).head? = some (i, m) ∧ P i) ↔
      x.1.picks now (x.1.entries (.dom id)) ≠ [] ∧ P id := by
  by_cases hnone : x.1.picks now (x.1.entries (.dom id)) = []
  · simp [(h.idle hl hnone).2, hnone]
  · have hlabel : l.head?.map Prod.fst = some id := by
      rw [← List.append_nil l]
      exact head_label hne hl
    obtain ⟨m, hm⟩ := h.head_removed hlabel hnone
    rw [hm]
    constructor
    · rintro ⟨i, m', hhead, hi⟩
      obtain ⟨rfl, -⟩ := Prod.mk.inj (Option.some.inj hhead)
      exact ⟨hnone, hi⟩
    · rintro ⟨-, hid⟩
      exact ⟨id, m, rfl, hid⟩

end

/-! ### The domain of least cost -/

/-- The cost of a domain, computed exactly. -/
def McdDomain.exactCost (c : Ctx) (d : McdDomain) : Nat :=
  (100 - (c.hitrate d.domid).toNat) * d.recCostAvg.toNat

/-- The domain costs no more than any that holds an entry, after the scaling by the largest
average. -/
def State.Cheapest (c : Ctx) (s : State) (id : Domid) : Prop :=
  ∃ d ∈ s.domains, d.domid = id ∧ ∀ e ∈ s.domains, e.hashList ≠ [] →
    d.exactCost c / s.maxRecCost.toNat ≤ e.exactCost c / s.maxRecCost.toNat

section
variable {c : Ctx} {max : UInt32} {d : McdDomain} {s : State}

/-- If the product fits in 32 bits, `COST` is the exact cost, scaled. -/
theorem toNat_cost (hhit : c.hitrate d.domid ≤ 100) (hfit : d.exactCost c * 100 < 2 ^ 32) :
    (cost c max d).toNat = d.exactCost c / max.toNat := by
  have hmiss : (100 - c.hitrate d.domid).toNat = 100 - (c.hitrate d.domid).toNat :=
    UInt32.toNat_sub_of_le _ _ hhit
  have hprod : ((100 - c.hitrate d.domid) * (d.recCostAvg * 100)).toNat = d.exactCost c * 100 := by
    rw [UInt32.toNat_mul, UInt32.toNat_mul, hmiss, Nat.mul_mod_mod, ← Nat.mul_assoc]
    exact Nat.mod_eq_of_lt hfit
  calc (cost c max d).toNat = d.exactCost c * 100 / max.toNat / 100 := by
        rw [cost, UInt32.toNat_div, UInt32.toNat_div, hprod]
        rfl
    _ = d.exactCost c * 100 / (max.toNat * 100) := Nat.div_div_eq_div_mul _ _ _
    _ = d.exactCost c / max.toNat := Nat.mul_div_mul_right _ _ (by decide)

theorem cost_lt (c : Ctx) (max : UInt32) (d : McdDomain) : cost c max d < 0xffffffff := by
  rw [UInt32.lt_iff_toNat_lt, cost, UInt32.toNat_div, UInt32.toNat_div]
  have hlt := ((100 - c.hitrate d.domid) * (d.recCostAvg * 100)).toNat_lt
  have hle := Nat.div_le_self
    ((100 - c.hitrate d.domid) * (d.recCostAvg * 100)).toNat max.toNat
  show _ / 100 < 4294967295
  omega

/-- If any domain is listed, `hr_dom` is one of least `COST`, whether or not it holds anything. -/
theorem hrDom_spec (hne : s.domains ≠ []) :
    ∃ d ∈ s.domains, s.hrDom c = some d.domid ∧
      ∀ e ∈ s.domains, cost c s.maxRecCost d ≤ cost c s.maxRecCost e := by
  obtain ⟨-, hmin, hfound⟩ := leastStep_foldl (cost c s.maxRecCost) McdDomain.domid
    (0xffffffff, none) s.domains
  have hscan : s.hrDom c = (s.domains.foldl (leastStep (cost c s.maxRecCost) McdDomain.domid)
    (0xffffffff, none)).2 := rfl
  rcases hfound with hsame | ⟨d, hd, -, hfound⟩
  · obtain ⟨d, hd⟩ := List.exists_mem_of_ne_nil _ hne
    have hle := hmin d hd
    rw [hsame] at hle
    exact absurd (cost_lt c s.maxRecCost d) (UInt32.not_lt.mpr hle)
  · rw [hfound] at hmin hscan
    exact ⟨d, hd, hscan, hmin⟩

theorem hrDom_listed {hr : Domid} (h : s.hrDom c = some hr) : hr ∈ s.domids := by
  have hne : s.domains ≠ [] := by
    intro hnil
    rw [State.hrDom, hnil] at h
    cases h
  obtain ⟨d, hd, hfound, -⟩ := @hrDom_spec c s hne
  rw [h] at hfound
  rw [Option.some.inj hfound]
  exact List.mem_map_of_mem hd

theorem cheapest_hrDom (hne : s.domains ≠ []) (hhit : ∀ d ∈ s.domains, c.hitrate d.domid ≤ 100)
    (hfit : ∀ d ∈ s.domains, d.exactCost c * 100 < 2 ^ 32) :
    ∃ hr, s.hrDom c = some hr ∧ s.Cheapest c hr := by
  obtain ⟨d, hd, hhr, hmin⟩ := @hrDom_spec c s hne
  refine ⟨d.domid, hhr, d, hd, rfl, fun e he _ => ?_⟩
  have hle := UInt32.le_iff_toNat_le.mp (hmin e he)
  rwa [toNat_cost (hhit d hd) (hfit d hd), toNat_cost (hhit e he) (hfit e he)] at hle

end

/-! ### The whole reclaim -/

section
variable {c : Ctx} {amount : UInt64} {domid : Domid} {s : State}

theorem partitionCfAdaptiveDynamic_returns (h : s.Removable c .partition)
    (hne : s.domains ≠ []) (hid : domid ∈ s.domids) :
    ∃ rc t, Returns (partitionCfAdaptiveDynamic c amount domid) s rc t := by
  have hs : Draining c s.domids s.bump := ⟨h.bump, rfl⟩
  obtain ⟨d, -, hhr, -⟩ := @hrDom_spec c s hne
  have hlisted : d.domid ∈ s.domids := hrDom_listed hhr
  obtain ⟨q, t, h₁, hq, ht⟩ : ∃ q t, Returns (adaptivePhase c (c.now s.tick) amount d.domid
      { tot := 0, visited := false, lfu := none }) s.bump q t ∧ q.lfu = none ∧
      Draining c s.domids t := adaptivePhase_returns _ _ hs hlisted rfl
  obtain ⟨r, u, h₂, -, -⟩ := adaptivePhase_returns (c.now s.tick) amount ht hid hq
  refine ⟨_, u, returns_bind.mpr ⟨_, _, returns_reading.mpr ⟨rfl, rfl⟩, returns_get_bind.mpr
    (returns_bind.mpr ⟨q, t, ?_, returns_bind.mpr ⟨r, u, h₂, returns_pure.mpr ⟨rfl, rfl⟩⟩⟩)⟩⟩
  have hsame : s.bump.hrDom c = s.hrDom c := rfl
  rw [hsame, hhr]
  exact h₁

/-- A reclaim that returns has executed the macro for `hr_dom` and then for the requesting domain,
for the latter at least once if the former has nothing to choose. -/
theorem adaptive_executions {rc : Rc} {t : State} {hr : Domid} (hpos : 0 < amount)
    (hhr : s.hrDom c = some hr) (h : Returns (partitionCfAdaptiveDynamic c amount domid) s rc t) :
    ∃ l₁ l₂ n, Executions c (c.now s.tick) (s.bump, 0) (l₁ ++ l₂) (t, n) ∧
      (∀ e ∈ l₁, e.1 = hr) ∧ (∀ e ∈ l₂, e.1 = domid) ∧ l₁ ≠ [] ∧
      (s.picks (c.now s.tick) (s.entries (.dom hr)) = [] →
        removed l₁ = [] ∧ l₂ ≠ [] ∧ Executions c (c.now s.tick) (s.bump, 0) l₂ (t, n)) := by
  simp only [partitionCfAdaptiveDynamic, readNow, returns_bind, returns_reading, returns_get,
    returns_pure, and_assoc, exists_and_left, exists_eq_left] at h
  obtain ⟨q₁, s₁, h₁, q₂, s₂, h₂, rfl, rfl⟩ := h
  have hsame : s.bump.hrDom c = s.hrDom c := rfl
  rw [hsame, hhr] at h₁
  obtain ⟨i, hp₁, hsome₁⟩ := adaptivePhase_passes h₁
  obtain ⟨j, hp₂, hsome₂⟩ := adaptivePhase_passes h₂
  obtain ⟨hclean, l₁, rfl, ht₁⟩ := hp₁.executions rfl
  obtain ⟨-, l₂, rfl, ht₂⟩ := hp₂.executions hclean
  have hl₁ : Executions c (c.now s.tick) (s.bump, 0) l₁ (s₁, q₁.tot) := ht₁.mono And.right
  have hl₂ : Executions c (c.now s.tick) (s₁, q₁.tot) l₂ (t, q₂.tot) := ht₂.mono And.right
  have hid₁ : ∀ e ∈ l₁, e.1 = hr := fun e he => by
    obtain ⟨-, h⟩ := hp₁.labels e.1 (List.mem_map_of_mem he)
    exact h
  have hid₂ : ∀ e ∈ l₂, e.1 = domid := fun e he => by
    obtain ⟨-, h⟩ := hp₂.labels e.1 (List.mem_map_of_mem he)
    exact h
  refine ⟨l₁, l₂, q₂.tot, hl₁.append hl₂, hid₁, hid₂, ?_, fun hnone => ?_⟩
  · rintro rfl
    exact hsome₁ hpos rfl
  · obtain ⟨heq, hrem⟩ := hl₁.idle hid₁ hnone
    have hstart : (s₁, q₁.tot) = (s.bump, 0) := heq
    have htot : q₁.tot = 0 := congrArg Prod.snd hstart
    refine ⟨hrem, ?_, ?_⟩
    · rintro rfl
      exact hsome₂ (by rw [htot]; exact hpos) rfl
    · rw [← hstart]
      exact hl₂

end

/-- Domains 2 and 3 each put a key they had to look for, domain 3 after the longer time. -/
def twoPricedCalls : List Call := [⟨.calm, .create 2⟩, ⟨.calm, .create 3⟩, ⟨.calm, .cacheMode 2 2⟩,
  ⟨.calm, .check 2 (.single 1)⟩, ⟨.calm, .check 3 (.single 2)⟩,
  ⟨.clock 10000000, .put 2 (.single 1) (.single 7)⟩, ⟨.clock 40000000, .put 3 (.single 2) (.single 8)⟩]

def System.twoPriced : System := System.start.after twoPricedCalls

/-- An empty domain 1 is listed as well. -/
def System.threePriced : System := System.start.after (⟨.calm, .create 1⟩ :: twoPricedCalls)

/-- Domain 1 put its key after more than 21 minutes, domain 2 after 40 ms. -/
def longPricedCalls : List Call := [⟨.calm, .create 1⟩, ⟨.calm, .create 2⟩, ⟨.calm, .cacheMode 2 2⟩,
  ⟨.calm, .check 1 (.single 1)⟩, ⟨.calm, .check 2 (.single 2)⟩,
  ⟨.clock 1282081000000, .put 1 (.single 1) (.single 7)⟩,
  ⟨.clock 40000000, .put 2 (.single 2) (.single 8)⟩]

def System.longPriced : System := System.start.after longPricedCalls

/-- For each domain its entries and its exact cost, scaled. -/
def System.prices (y : System) : List (Domid × Nat × Nat) :=
  y.mcd.domains.map fun d =>
    (d.domid, d.hashList.length, d.exactCost (y.ctx .calm) / y.mcd.maxRecCost.toNat)

/-- The lengths of the lists after a reclaim of 80 bytes. -/
def System.leaves (y : System) (domid : Domid) : Option (List (Domid × Nat)) :=
  ((partitionCfAdaptiveDynamic (y.ctx .calm) 80 domid).run y.mcd).toOption.map fun r =>
    r.2.domains.map fun d => (d.domid, d.hashList.length)

end UniCache.Mcd
