import UniCache.Mcd.Passes
import UniCache.Mcd.WeightReclaim

/-! Whom the weight-based reclaim takes from while the requesting domain is above its own share. -/
namespace UniCache.Mcd
open Base Base.Exec

/-- What the reclaim compares of a domain. -/
def McdDomain.standing (d : McdDomain) : UInt32 × UInt32 := (d.ratio, d.curr)

def State.standing (s : State) (id : Domid) : Option (UInt32 × UInt32) :=
  (findMcdDom id s).map McdDomain.standing

/-- The domain uses more than its share. -/
def State.Over (s : State) (id : Domid) : Prop := ∃ d, findMcdDom id s = some d ∧ 100 < d.curr

theorem over_iff {s : State} {id : Domid} :
    s.Over id ↔ ∃ x, s.standing id = some x ∧ 100 < x.2 := by
  simp only [State.Over, State.standing, Option.map_eq_some_iff]
  constructor
  · rintro ⟨d, hd, hlt⟩
    exact ⟨_, ⟨d, hd, rfl⟩, hlt⟩
  · rintro ⟨x, ⟨d, hd, rfl⟩, hlt⟩
    exact ⟨d, hd, hlt⟩

/-! ### What a removal leaves of the shares -/

section
variable {c : Ctx} {s t : State}

theorem standing_modifyDom {f : McdDomain → McdDomain} (hf : ∀ d, (f d).domid = d.domid)
    (hkeep : ∀ d, (f d).standing = d.standing) (id : Domid) (s : State) :
    (s.modifyDom id f).standing = s.standing :=
  funext (map_find_modifyDom hf id s hkeep)

theorem standing_setEntries (s : State) (l : List McdHashT) (loc : Loc) :
    (s.setEntries l loc).standing = s.standing := by
  cases loc with
  | bucket i => rfl
  | dom d =>
    exact standing_modifyDom (f := fun d => { d with hashList := l }) (fun _ => rfl) (fun _ => rfl) d s

theorem aloof_standing : Aloof fun s t => t.standing = s.standing where
  refl _ := rfl
  trans h₁ h₂ := h₂.trans h₁
  bump _ := rfl
  pool _ _ := rfl
  store _ _ := rfl
  headers s l loc := by
    cases loc with
    | bucket i => rfl
    | dom d =>
      exact standing_modifyDom (f := fun d => { d with mcdctlList := l }) (fun _ => rfl)
        (fun _ => rfl) d s

/-- The update after a removal changes the standing of the domain it is for, and not its ratio. -/
theorem domUsageUpdate_standing {id : Domid} {u : Unit} (h : Returns (domUsageUpdate c id) s u t) :
    (∀ j ≠ id, t.standing j = s.standing j) ∧
      ∀ j, (t.standing j).map Prod.fst = (s.standing j).map Prod.fst := by
  obtain ⟨total, s₁, htotal, h⟩ := returns_bind.mp h
  have hsame : s₁.standing = s.standing := by
    have hw : Within (fun s t : State => t.standing = s.standing) (getTotMemSize c) :=
      aloof_standing.bind (aloof_standing.bind (within_reading aloof_standing.bump _)
        fun _ => aloof_standing.pure _) fun _ => aloof_standing.bind aloof_standing.get
          fun _ => aloof_standing.pure _
    exact hw _ _ _ htotal
  rw [returns_modify.mp h, ← hsame]
  constructor
  · intro j hj
    unfold State.standing
    rw [findMcdDom_modifyDom (f := (·.withUsage total)) (fun _ => rfl), if_neg hj]
  · intro j
    simp only [State.standing, Option.map_map]
    exact map_find_modifyDom (f := (·.withUsage total)) (g := Prod.fst ∘ McdDomain.standing)
      (fun _ => rfl) id s₁ (fun _ => rfl) j

theorem Draw.standing_of_ne {x : Domid × McdHashT} (h : Draw c s x t) :
    (∀ j ≠ x.1, t.standing j = s.standing j) ∧
      ∀ j, (t.standing j).map Prod.fst = (s.standing j).map Prod.fst := by
  have h := h.2
  simp only [pRemoveHashT, returns_bind, returns_modify, returns_domOf, returns_pure] at h
  obtain ⟨_, _, rfl, d, _, ⟨-, rfl⟩, _, _, rfl, _, s₁, hunlink, _, s₂, husage, -, rfl⟩ := h
  have hbefore : s₁.standing = s.standing :=
    (aloof_standing.unlinkHashT standing_setEntries _ _ _ hunlink).trans (standing_modifyDom (f := (·.discharge x.2))
      (fun _ => rfl) (fun _ => rfl) x.1 (s.dischargeData x.2 .partition))
  rw [← hbefore]
  exact domUsageUpdate_standing husage

end

section
variable {c : Ctx} {s t : State} {l : List (Domid × McdHashT)}

/-- Removals from other domains leave a domain's standing alone. -/
theorem Draws.standing_of_ne {id : Domid} (h : Draws c s l t) (hl : ∀ x ∈ l, x.1 ≠ id) :
    t.standing id = s.standing id := by
  induction h with
  | nil s => rfl
  | @cons s u t x l head tail ih =>
    have hne : id ≠ x.1 := fun heq => hl x List.mem_cons_self heq.symm
    exact (ih fun y hy => hl y (List.mem_cons_of_mem _ hy)).trans (head.standing_of_ne.1 id hne)

theorem Draws.ratio_eq (h : Draws c s l t) (id : Domid) :
    (t.standing id).map Prod.fst = (s.standing id).map Prod.fst := by
  refine Trace.invariant (I := fun u => (u.standing id).map Prod.fst = (s.standing id).map Prod.fst)
    ?_ h rfl
  intro u x v hu hstep
  exact (hstep.standing_of_ne.2 id).trans hu

theorem Draws.mode_eq (h : Draws c s l t) : t.replacementMode = s.replacementMode := by
  refine Trace.invariant (I := fun u => u.replacementMode = s.replacementMode) ?_ h rfl
  intro u x v hu hstep
  have hcfg : v.config = u.config := (pRemoveHashT_spec hstep.2 hstep.1).2.1.cfg_eq
  exact (congrArg Config.replacementMode hcfg).trans hu

end

/-! ### Fair removals -/

/-- The entry removed is the requesting domain's, or the requesting domain is within its share, or
the domain that loses the entry is above its own. -/
def FairDraw (c : Ctx) (domid : Domid) (s : State) (x : Domid × McdHashT) (t : State) : Prop :=
  Draw c s x t ∧ (x.1 ≠ domid → s.Over domid → s.Over x.1)

/-- An execution all of whose removals are fair. -/
def FairExecution (c : Ctx) (now : Int) (domid : Domid) (x : State × UInt64)
    (e : Domid × List McdHashT) (y : State × UInt64) : Prop :=
  Execution c now x e y ∧ Trace (FairDraw c domid) x.1 (e.2.map (Prod.mk e.1)) y.1

section
variable {c : Ctx} {now : Int} {domid id : Domid} {s t : State}

/-- Removals from one domain are fair if it is the requesting one, or that one is within its
share. -/
theorem Draws.fair {l : List McdHashT} (h : Draws c s (l.map (Prod.mk id)) t)
    (hid : id = domid ∨ ¬ s.Over domid) : Trace (FairDraw c domid) s (l.map (Prod.mk id)) t := by
  induction l generalizing s with
  | nil =>
    rw [h.eq_of_nil]
    exact .nil t
  | cons m l ih =>
    cases h with
    | @cons _ u _ _ _ head tail =>
      have hfair : id ≠ domid → s.Over domid → s.Over id := fun hne hover =>
        (hid.elim hne fun hnot => hnot hover).elim
      refine .cons ⟨head, hfair⟩ (ih tail ?_)
      by_cases hown : id = domid
      · exact .inl hown
      · refine .inr ?_
        rw [over_iff, head.standing_of_ne.1 domid fun heq => hown heq.symm, ← over_iff]
        exact hid.resolve_left hown

/-- An execution is fair as well if it begins with a domain above its share and takes one entry at
most. -/
theorem Execution.fair {x y : State × UInt64} {e : Domid × List McdHashT}
    (h : Execution c now x e y)
    (hjust : e.1 = domid ∨ ¬ x.1.Over domid ∨ x.1.Over e.1 ∧ e.2.length ≤ 1) :
    FairExecution c now domid x e y := by
  refine ⟨h, ?_⟩
  obtain ⟨-, -, hdraws⟩ := h
  rcases hjust with hown | hwithin | ⟨hover, hone⟩
  · exact hdraws.fair (.inl hown)
  · exact hdraws.fair (.inr hwithin)
  · match hlist : e.2, hone with
    | [], _ =>
      rw [hlist] at hdraws
      rw [hdraws.eq_of_nil]
      exact .nil _
    | [m], _ =>
      rw [hlist] at hdraws
      cases hdraws with
      | cons head tail =>
        cases tail
        exact .cons ⟨head, fun _ _ => hover⟩ (.nil _)

/-- A run of executions is fair if each is, by an invariant that they keep. -/
theorem Passes.fair {E : State → Domid → Prop} {I : State → Prop} {l : List Domid}
    {x y : State × UInt64 × Option McdHashT} (h : Passes c now E x l y) (hx : x.2.2 = none)
    (hI : I x.1)
    (hkeep : ∀ {u id v}, I u → E u id →
      Draws c u ((u.picks now (u.entries (.dom id))).map (Prod.mk id)) v → I v)
    (hjust : ∀ {u id}, I u → E u id → id = domid ∨ ¬ u.Over domid ∨
      u.Over id ∧ (u.picks now (u.entries (.dom id))).length ≤ 1) :
    y.2.2 = none ∧ I y.1 ∧ ∃ k, Trace (FairExecution c now domid) (x.1, x.2.1) k (y.1, y.2.1) := by
  obtain ⟨hy, k, -, hk⟩ := h.executions hx
  have hstep : ∀ {a e b}, I a.1 → E a.1 e.1 ∧ Execution c now a e b → I b.1 := by
    rintro a e b ha ⟨hE, -, he, hdraws⟩
    rw [he] at hdraws
    exact hkeep ha hE hdraws
  have hfair : ∀ {a e b}, I a.1 → E a.1 e.1 ∧ Execution c now a e b →
      FairExecution c now domid a e b := by
    rintro a e b ha ⟨hE, hexec⟩
    refine hexec.fair ?_
    rw [hexec.2.1]
    exact hjust ha hE
  have hI' : I (x.1, x.2.1).1 := hI
  exact ⟨hy, Trace.invariant (I := fun z => I z.1) hstep hk hI', k,
    Trace.strengthen (I := fun z => I z.1) hstep hfair hk hI'⟩

end

/-! ### When the phases are fair -/

/-- No other domain has a smaller share than the requesting one. -/
def State.Lowest (s : State) (domid : Domid) : Prop :=
  ∀ d, findMcdDom domid s = some d → ∀ id ≠ domid, ∀ e, findMcdDom id s = some e → d.ratio ≤ e.ratio

/-- No execution for another domain takes more than one entry: they are chosen by their score, or no
other domain holds more than one. -/
def State.Sparing (s : State) (domid : Domid) : Prop :=
  s.replacementMode = .score ∨ ∀ id ≠ domid, (s.entries (.dom id)).length ≤ 1

section
variable {c : Ctx} {now : Int} {amount : UInt64} {domid id : Domid} {s t u : State}

theorem picks_length_le (s : State) (now : Int) (l : List McdHashT) :
    (s.picks now l).length ≤ l.length := by
  cases hm : s.replacementMode with
  | lfru =>
    have hsub := (lfruScan_subperm now l).length_le
    rw [List.length_append] at hsub
    simp only [State.picks, hm]
    split_ifs
    · rw [List.length_append]
      exact hsub
    · omega
  | fast => simp [State.picks, hm]
  | score =>
    simp only [State.picks, hm]
    rcases minScore_cases s.sd now l with ⟨hnone, -⟩ | ⟨m, hmem, -, hsome⟩
    · simp [hnone]
    · rw [hsome]
      exact List.length_pos_of_mem hmem

theorem State.Sparing.picks (h : s.Sparing domid) (hne : id ≠ domid) :
    (s.picks now (s.entries (.dom id))).length ≤ 1 := by
  rcases h with hscore | hone
  · simp only [State.picks, hscore]
    cases minScore s.sd now (s.entries (.dom id)) <;> simp
  · exact (picks_length_le s now _).trans (hone id hne)

theorem State.Sparing.of_draws {l : List (Domid × McdHashT)} (h : s.Sparing domid)
    (hl : Draws c s l t) : t.Sparing domid := by
  rcases h with hscore | hone
  · exact .inl (hl.mode_eq.trans hscore)
  · exact .inr fun id hne => ((hl.entries_sublist (.dom id)).length_le).trans (hone id hne)

/-- A larger fair rate at a share that is not smaller means a larger usage. -/
theorem curr_lt_of_fairRate_lt {d e : McdDomain} (hratio : d.ratio ≤ e.ratio)
    (hrate : d.fairRate < e.fairRate) : d.curr < e.curr := by
  rw [UInt32.lt_iff_toNat_lt] at hrate ⊢
  rw [UInt32.le_iff_toNat_le] at hratio
  simp only [McdDomain.fairRate, UInt32.toNat_div, UInt32.toNat_add, UInt32.toNat_one] at hrate
  have he := e.ratio.toNat_lt
  -- a divisor that wraps to 0 makes the rate 0
  have hfit : e.ratio.toNat + 1 < 2 ^ 32 := by
    by_contra hwrap
    have hmax : e.ratio.toNat + 1 = 2 ^ 32 := by omega
    rw [hmax, Nat.mod_self, Nat.div_zero] at hrate
    exact Nat.not_lt_zero _ hrate
  rw [Nat.mod_eq_of_lt hfit, Nat.mod_eq_of_lt (by omega)] at hrate
  by_contra hle
  have hless := Nat.div_le_div_right (c := d.ratio.toNat + 1) (Nat.not_lt.mp hle)
  have hsmall : e.curr.toNat / (e.ratio.toNat + 1) ≤ e.curr.toNat / (d.ratio.toNat + 1) :=
    Nat.div_le_div_left (by omega) (by omega)
  omega

theorem foldl_fairRate_of_ne {l : List McdDomain} (hl : ∀ e ∈ l, e.domid ≠ domid) (r : UInt32) :
    l.foldl (fun r d => if d.domid = domid then d.fairRate else r) r = r := by
  induction l with
  | nil => rfl
  | cons e l ih =>
    rw [List.foldl_cons, if_neg (hl e List.mem_cons_self)]
    exact ih fun e' he' => hl e' (List.mem_cons_of_mem _ he')

theorem fairRateOf_eq {d : McdDomain} (hnd : s.domids.Nodup) (hd : findMcdDom domid s = some d) :
    s.fairRateOf domid = d.fairRate := by
  obtain ⟨hid, as, bs, hsplit, has⟩ := List.find?_eq_some_iff_append.mp hd
  have hid : d.domid = domid := of_decide_eq_true hid
  have hbs : ∀ e ∈ bs, e.domid ≠ domid := by
    rw [State.domids, hsplit, List.map_append, List.map_cons, List.nodup_append] at hnd
    have hnot := (List.nodup_cons.mp hnd.2.1).1
    rw [hid] at hnot
    intro e he heq
    exact hnot (heq ▸ List.mem_map_of_mem he)
  have has : ∀ e ∈ as, e.domid ≠ domid := fun e he => by simpa using has e he
  rw [State.fairRateOf, hsplit, List.foldl_append, List.foldl_cons, if_pos hid,
    foldl_fairRate_of_ne hbs]

/-- What the first phase takes from is above its share whenever the requesting domain is. -/
theorem over_of_fairRate {l : List (Domid × McdHashT)} (hnd : s.domids.Nodup)
    (hlow : s.Lowest domid) (hl : Draws c s l u) (hothers : ∀ x ∈ l, x.1 ≠ domid) (hne : id ≠ domid)
    {e : McdDomain} (he : findMcdDom id u = some e) (hrate : e.fairRate > s.fairRateOf domid)
    (hover : u.Over domid) : u.Over id := by
  rw [over_iff, hl.standing_of_ne hothers] at hover
  obtain ⟨x, hx, hgt⟩ := hover
  obtain ⟨d, hd, rfl⟩ := Option.map_eq_some_iff.mp hx
  rw [fairRateOf_eq hnd hd] at hrate
  -- the ratio is still that of the state the phase began in
  have hsame : ((findMcdDom id s).map McdDomain.standing).map Prod.fst = some e.ratio := by
    have h := hl.ratio_eq id
    rw [State.standing, he] at h
    exact h.symm
  obtain ⟨y, hy, hfst⟩ := Option.map_eq_some_iff.mp hsame
  obtain ⟨e₀, he₀, rfl⟩ := Option.map_eq_some_iff.mp hy
  have hratio : d.ratio ≤ e.ratio := by
    rw [← hfst]
    exact hlow d hd id hne e₀ he₀
  exact ⟨e, he, UInt32.lt_trans hgt (curr_lt_of_fairRate_lt hratio hrate)⟩

variable {x y : State × UInt64 × Option McdHashT} {l : List Domid} {eligible : McdDomain → Bool}

/-- A phase over the requesting domain itself is fair. -/
theorem ownPhase_fair (h : Passes c now (Eligible (· = domid) eligible) x l y) (hx : x.2.2 = none) :
    ∃ k, Trace (FairExecution c now domid) (x.1, x.2.1) k (y.1, y.2.1) := by
  obtain ⟨-, -, hfair⟩ : y.2.2 = none ∧ True ∧
      ∃ k, Trace (FairExecution c now domid) (x.1, x.2.1) k (y.1, y.2.1) :=
    Passes.fair (I := fun _ => True) h hx trivial (fun _ _ _ => trivial)
      (fun _ hE => .inl (of_decide_eq_true hE.1))
  exact hfair

/-- While the requesting domain is within its share, a phase over the others is fair, and leaves it
within its share. -/
theorem othersPhase_fair (h : Passes c now (Eligible (· ≠ domid) eligible) x l y)
    (hx : x.2.2 = none) (hwithin : ¬ x.1.Over domid) :
    y.2.2 = none ∧ ¬ y.1.Over domid ∧
      ∃ k, Trace (FairExecution c now domid) (x.1, x.2.1) k (y.1, y.2.1) := by
  refine Passes.fair (I := fun u => ¬ u.Over domid) h hx hwithin ?_ ?_
  · intro u id v hu hE hdraws
    have hne : id ≠ domid := of_decide_eq_true hE.1
    rw [over_iff, hdraws.standing_of_ne (by simpa using fun _ _ => hne), ← over_iff]
    exact hu
  · intro u id hu _
    exact .inr (.inl hu)

/-- The phase that takes from the requesting domain above its share does nothing below it. -/
theorem ownPhase_within (h : Passes c now (Eligible (· = domid) fun d => d.curr > 100) x l y)
    (hx : x.2.2 = none) (hwithin : ¬ x.1.Over domid) :
    y.2.2 = none ∧ ¬ y.1.Over domid ∧
      ∃ k, Trace (FairExecution c now domid) (x.1, x.2.1) k (y.1, y.2.1) := by
  refine Passes.fair (I := fun u => ¬ u.Over domid) h hx hwithin ?_ ?_
  · rintro u id v hu ⟨hown, d, hd, hcurr⟩ -
    have hown : id = domid := of_decide_eq_true hown
    rw [hown] at hd
    exact (hu ⟨d, hd, of_decide_eq_true hcurr⟩).elim
  · intro u id _ hE
    exact .inl (of_decide_eq_true hE.1)

/-- The phases are fair if the requesting domain is within its share. -/
theorem weightPhases_fair_of_within {fair : UInt32} {r q : Reclaim} (hr : r.lfu = none)
    (hwithin : ¬ s.Over domid) (h : Returns (weightPhases c now amount domid fair r) s q t) :
    ∃ k, Trace (FairExecution c now domid) (s, r.tot) k (t, q.tot) := by
  simp only [weightPhases, returns_bind] at h
  obtain ⟨r₁, s₁, h₁, r₂, s₂, h₂, r₃, s₃, h₃, h₄⟩ := h
  obtain ⟨_, p₁⟩ := weightPhase_passes h₁
  obtain ⟨_, p₂⟩ := weightPhase_passes h₂
  obtain ⟨_, p₃⟩ := weightPhase_passes h₃
  obtain ⟨_, p₄⟩ := weightPhase_passes h₄
  obtain ⟨hr₁, hs₁, k₁, f₁⟩ := othersPhase_fair p₁ hr hwithin
  obtain ⟨hr₂, hs₂, k₂, f₂⟩ := ownPhase_within p₂ hr₁ hs₁
  obtain ⟨hr₃, -, k₃, f₃⟩ := othersPhase_fair p₃ hr₂ hs₂
  obtain ⟨k₄, f₄⟩ := ownPhase_fair p₄ hr₃
  exact ⟨_, f₁.append (f₂.append (f₃.append f₄))⟩

/-- They are fair as well if its share is the lowest and no execution takes more than one entry of
another domain. -/
theorem weightPhases_fair_of_lowest {r q : Reclaim} (hnd : s.domids.Nodup) (hr : r.lfu = none)
    (hlow : s.Lowest domid) (hspare : s.Sparing domid)
    (h : Returns (weightPhases c now amount domid (s.fairRateOf domid) r) s q t) :
    ∃ k, Trace (FairExecution c now domid) (s, r.tot) k (t, q.tot) := by
  simp only [weightPhases, returns_bind] at h
  obtain ⟨r₁, s₁, h₁, r₂, s₂, h₂, r₃, s₃, h₃, h₄⟩ := h
  obtain ⟨_, p₁⟩ := weightPhase_passes h₁
  obtain ⟨_, p₂⟩ := weightPhase_passes h₂
  obtain ⟨_, p₃⟩ := weightPhase_passes h₃
  obtain ⟨_, p₄⟩ := weightPhase_passes h₄
  obtain ⟨hr₁, ⟨j₁, hj₁, -⟩, k₁, f₁⟩ : r₁.held.2 = none ∧
      (∃ j, Draws c s j s₁ ∧ ∀ x ∈ j, x.1 ≠ domid) ∧
      ∃ k, Trace (FairExecution c now domid) (s, r.held.1) k (s₁, r₁.held.1) := by
    refine Passes.fair (I := fun u => ∃ j, Draws c s j u ∧ ∀ x ∈ j, x.1 ≠ domid) p₁ hr
      ⟨[], .nil s, by simp⟩ ?_ ?_
    · rintro u id v ⟨j, hj, hothers⟩ hE hdraws
      have hne : id ≠ domid := of_decide_eq_true hE.1
      refine ⟨_, hj.append hdraws, fun x hx => ?_⟩
      rcases List.mem_append.mp hx with hx | hx
      · exact hothers x hx
      · obtain ⟨m, -, rfl⟩ := List.mem_map.mp hx
        exact hne
    · rintro u id ⟨j, hj, hothers⟩ ⟨hne, e, he, hrate⟩
      have hne : id ≠ domid := of_decide_eq_true hne
      by_cases hover : u.Over domid
      · exact .inr (.inr ⟨over_of_fairRate hnd hlow hj hothers hne he (of_decide_eq_true hrate) hover,
          (hspare.of_draws hj).picks hne⟩)
      · exact .inr (.inl hover)
  obtain ⟨hr₂, hs₂, k₂, f₂⟩ : r₂.held.2 = none ∧ s₂.Sparing domid ∧
      ∃ k, Trace (FairExecution c now domid) (s₁, r₁.held.1) k (s₂, r₂.held.1) :=
    Passes.fair (I := fun u => u.Sparing domid) p₂ hr₁ (hspare.of_draws hj₁)
      (fun hu _ hdraws => hu.of_draws hdraws) (fun _ hE => .inl (of_decide_eq_true hE.1))
  obtain ⟨hr₃, -, k₃, f₃⟩ : r₃.held.2 = none ∧ s₃.Sparing domid ∧
      ∃ k, Trace (FairExecution c now domid) (s₂, r₂.held.1) k (s₃, r₃.held.1) := by
    refine Passes.fair (I := fun u => u.Sparing domid) p₃ hr₂ hs₂
      (fun hu _ hdraws => hu.of_draws hdraws) ?_
    rintro u id hu ⟨hne, e, he, hcurr⟩
    exact .inr (.inr ⟨⟨e, he, of_decide_eq_true hcurr⟩, hu.picks (of_decide_eq_true hne)⟩)
  obtain ⟨k₄, f₄⟩ := ownPhase_fair p₄ hr₃
  exact ⟨_, f₁.append (f₂.append (f₃.append f₄))⟩

end

/-- Domain 1 has three fifths of the weight and two of three entries of the same size. -/
def threeWeighedCalls : List Call := [⟨.calm, .create 1⟩, ⟨.calm, .create 2⟩,
  ⟨.calm, .weight 1 60⟩, ⟨.calm, .weight 2 40⟩, ⟨.calm, .cacheMode 2 1⟩,
  ⟨.clock 1, .put 1 (.single 1) (.single 7)⟩, ⟨.clock 2, .put 1 (.single 2) (.single 7)⟩,
  ⟨.clock 3, .put 2 (.single 1) (.single 8)⟩]

def System.threeWeighed : System := System.start.after threeWeighedCalls

/-- No memory is free: the total is what the entries use. -/
def System.threeWeighedFull : Ctx := System.threeWeighed.ctx (.full .done)

/-- For each domain its usage and the number of its entries. -/
def State.usages (s : State) : List (Domid × UInt32 × Nat) :=
  s.domains.map fun d => (d.domid, d.curr, d.hashList.length)

end UniCache.Mcd
