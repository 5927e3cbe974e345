import UniCache.Base.Trace
import UniCache.Mcd.RefinePartition

/-! The reclaim in the domains' lists as a sequence of executions of `REPLACE_MODE_SUBROUTINE`, and
each execution as a sequence of removals, with the state each of them is made in. -/
namespace UniCache.Mcd
open Base Base.Exec

/-- `p_remove_hashT` takes an entry from the list of a domain. -/
def Draw (c : Ctx) (s : State) (x : Domid × McdHashT) (t : State) : Prop :=
  x.2 ∈ s.entries (.dom x.1) ∧ Returns (pRemoveHashT c x.1 x.2 .moveToSsd) s x.2.bytes t

abbrev Draws (c : Ctx) : State → List (Domid × McdHashT) → State → Prop := Trace (Draw c)

/-- What an execution of `REPLACE_MODE_SUBROUTINE` takes from a list, in this order. -/
def State.picks (s : State) (now : Int) (l : List McdHashT) : List McdHashT :=
  match s.replacementMode with
  | .lfru =>
    if (lfruScan now none l).lru ≠ (lfruScan now none l).lfu then
      (lfruScan now none l).lru.toList ++ (lfruScan now none l).lfu.toList
    else (lfruScan now none l).lfu.toList
  | .fast => l
  | .score => (minScore s.sd now l).toList

section
variable {c : Ctx} {s t : State}

theorem Draw.entries_eq {x : Domid × McdHashT} (h : Draw c s x t) :
    t.entries = Function.update s.entries (.dom x.1) ((s.entries (.dom x.1)).erase x.2) :=
  (pRemoveHashT_spec h.2 h.1).2.1.entries_eq

theorem Draws.entries_sublist {l : List (Domid × McdHashT)} (h : Draws c s l t) (loc : Loc) :
    (t.entries loc).Sublist (s.entries loc) := by
  refine Trace.invariant (I := fun u => (u.entries loc).Sublist (s.entries loc)) ?_ h (.refl _)
  intro u x v hu hstep
  rw [hstep.entries_eq]
  exact (update_erase_sublist u.entries (.dom x.1) x.2 loc).trans hu

end

section
variable {c : Ctx} {now : Int} {amount : UInt64} {id : Domid} {s t : State}

theorem premove_draws {mh : Option McdHashT} {p q : Progress}
    (h : Returns (premove c id mh p) s q t) (hm : ∀ m, mh = some m → m ∈ s.entries (.dom id)) :
    Draws c s (mh.toList.map (Prod.mk id)) t := by
  cases mh with
  | none =>
    obtain ⟨rfl, rfl⟩ := returns_pure.mp h
    exact .nil t
  | some m =>
    obtain ⟨b, s₁, hr, h⟩ := returns_bind.mp h
    obtain ⟨rfl, rfl⟩ := returns_pure.mp h
    obtain ⟨rfl, -⟩ := pRemoveHashT_unlinks hr
    exact .cons ⟨hm m rfl, hr⟩ (.nil _)

/-- A walk takes the nodes it passes, all of them if nothing stops it. -/
theorem walkRemove_draws {stop : UInt64 → Bool} {rest : List McdHashT} {latedel : Option McdHashT}
    {p q : Progress} (h : Returns (walkRemove c id stop rest latedel p) s q t)
    (hs : s.entries (.dom id) = latedel.toList ++ rest) :
    ∃ l, Draws c s (l.map (Prod.mk id)) t ∧
      ((∀ n, stop n = false) → l = latedel.toList ++ rest) := by
  induction rest generalizing latedel p s with
  | nil =>
    refine ⟨latedel.toList, premove_draws h fun m hm => ?_, fun _ => (List.append_nil _).symm⟩
    simp [hs, hm]
  | cons curr rest ih =>
    obtain ⟨p₁, s₁, h₁, h₂⟩ := returns_bind.mp h
    have hdraw := premove_draws h₁ fun m hm => by simp [hs, hm]
    obtain ⟨-, -, -, hent⟩ := premove_latedel h₁ hs
    by_cases hstop : latedel.isSome = true ∧ stop p₁.tot = true
    · rw [if_pos hstop] at h₂
      obtain ⟨rfl, rfl⟩ := returns_pure.mp h₂
      refine ⟨latedel.toList, hdraw, fun hnever => ?_⟩
      rw [hnever] at hstop
      exact absurd hstop.2 Bool.false_ne_true
    · rw [if_neg hstop] at h₂
      obtain ⟨l, hl, hall⟩ := ih h₂ (by rw [hent, Function.update_self]; rfl)
      refine ⟨latedel.toList ++ l, ?_, fun hnever => by rw [hall hnever]; rfl⟩
      rw [List.map_append]
      exact hdraw.append hl

theorem lfruRemove_draws {p q : Progress}
    (h : Returns (lfruRemove c id (lfruScan now none (s.entries (.dom id))) p) s q t)
    (hm : s.replacementMode = .lfru) :
    Draws c s ((s.picks now (s.entries (.dom id))).map (Prod.mk id)) t := by
  have hmem := @lfruRemove_mem now id s
  obtain ⟨hlru, hlfu, hleft⟩ := hmem
  unfold lfruRemove at h
  simp only [State.picks, hm]
  by_cases hne : (lfruScan now none (s.entries (.dom id))).lru ≠
      (lfruScan now none (s.entries (.dom id))).lfu
  · rw [if_pos hne] at h ⊢
    obtain ⟨p₁, s₁, h₁, h₂⟩ := returns_bind.mp h
    obtain ⟨-, -, -, hent⟩ := premove_spec h₁ hlru
    rw [List.map_append]
    exact (premove_draws h₁ hlru).append (premove_draws h₂ (hleft hne hent))
  · rw [if_neg hne] at h ⊢
    exact premove_draws h hlfu

/-- One execution with a clean `lfu` pointer takes what it picks and leaves the pointer clean. -/
theorem replaceModeSubroutine_draws {r q : Reclaim}
    (h : Returns (replaceModeSubroutine c now id r) s q t) (hr : r.lfu = none) :
    q.lfu = none ∧ s.Has (.dom id) ∧
      Draws c s ((s.picks now (s.entries (.dom id))).map (Prod.mk id)) t := by
  refine ⟨(replaceModeSubroutine_spec h hr).1, ?_⟩
  simp only [replaceModeSubroutine, returns_bind, returns_domOf, returns_get, and_assoc,
    exists_and_left, exists_eq_left] at h
  obtain ⟨d, hd, h⟩ := h
  have hent := entries_of_find hd
  have hhas : s.Has (.dom id) := by
    show (findMcdDom id s).isSome
    rw [hd]
    rfl
  refine ⟨hhas, ?_⟩
  cases hm : s.replacementMode with
  | lfru =>
    rw [hm] at h
    obtain ⟨p, s₂, h₁, h₂⟩ := returns_bind.mp h
    obtain ⟨rfl, rfl⟩ := returns_pure.mp h₂
    rw [hr, ← hent] at h₁
    exact lfruRemove_draws h₁ hm
  | fast =>
    rw [hm] at h
    obtain ⟨p, s₂, h₁, h₂⟩ := returns_bind.mp h
    obtain ⟨rfl, rfl⟩ := returns_pure.mp h₂
    obtain ⟨l, hl, hall⟩ := walkRemove_draws h₁ (by simpa using hent)
    have hwhole : l = s.picks now (s.entries (.dom id)) := by
      simp only [State.picks, hm, hent]
      exact hall fun _ => rfl
    rw [← hwhole]
    exact hl
  | score =>
    rw [hm] at h
    obtain ⟨p, s₂, h₁, h₂⟩ := returns_bind.mp h
    obtain ⟨rfl, rfl⟩ := returns_pure.mp h₂
    simp only [State.picks, hm, hent]
    apply premove_draws h₁
    intro m hpick
    rw [hent]
    exact minScore_mem hpick

end

/-! ### The last loop -/

section
variable {c : Ctx} {amount : UInt64} {id : Domid} {s t : State} {p q : Progress}

/-- The last loop of the weight-based reclaim takes from the requesting domain only. -/
theorem selfBrutalRound_draws {ids : List Domid}
    (h : Returns (selfBrutalRound c amount id ids p) s q t) :
    ∃ l : List McdHashT, Draws c s (l.map (Prod.mk id)) t := by
  induction ids generalizing p s with
  | nil =>
    rw [(returns_pure.mp h).2]
    exact ⟨[], .nil s⟩
  | cons j ids ih =>
    unfold selfBrutalRound at h
    by_cases hne : j ≠ id
    · rw [if_pos hne] at h
      exact ih h
    · rw [if_neg hne, not_not.mp hne] at h
      simp only [returns_bind, returns_domOf, and_assoc, exists_and_left, exists_eq_left] at h
      obtain ⟨d, hd, h⟩ := h
      by_cases hcurr : d.curr ≤ 0
      · rw [if_pos hcurr] at h
        rw [(returns_pure.mp h).2]
        exact ⟨[], .nil s⟩
      · rw [if_neg hcurr] at h
        obtain ⟨p₁, s₁, h₁, h₂⟩ := returns_bind.mp h
        obtain ⟨l, hl, -⟩ := walkRemove_draws h₁ (by simpa using entries_of_find hd)
        by_cases hstop : p₁.tot > amount
        · rw [if_pos hstop] at h₂
          rw [(returns_pure.mp h₂).2]
          exact ⟨l, hl⟩
        · rw [if_neg hstop] at h₂
          obtain ⟨k, hk⟩ := ih h₂
          refine ⟨l ++ k, ?_⟩
          rw [List.map_append]
          exact hl.append hk

theorem selfBrutalLoop_draws {turns : Nat}
    (h : Returns (selfBrutalLoop c amount id turns p) s q t) :
    ∃ l : List McdHashT, Draws c s (l.map (Prod.mk id)) t := by
  induction turns generalizing p s with
  | zero => exact (returns_throw.mp h).elim
  | succ turns ih =>
    unfold selfBrutalLoop at h
    by_cases hlt : p.tot < amount
    · rw [if_pos hlt] at h
      obtain ⟨p₁, s₁, h₁, h₂⟩ := returns_bind.mp (returns_get_bind.mp h)
      obtain ⟨l, hl⟩ := selfBrutalRound_draws h₁
      obtain ⟨k, hk⟩ := ih h₂
      refine ⟨l ++ k, ?_⟩
      rw [List.map_append]
      exact hl.append hk
    · rw [if_neg hlt] at h
      rw [(returns_pure.mp h).2]
      exact ⟨[], .nil s⟩

theorem selfBrutalPhase_draws (h : Returns (selfBrutalPhase c amount id p) s q t) :
    ∃ l : List McdHashT, Draws c s (l.map (Prod.mk id)) t := by
  have h := returns_get_bind.mp h
  by_cases hcond : p.tot < amount ∧ s.replacementMode = .lfru
  · rw [if_pos hcond] at h
    exact selfBrutalLoop_draws h
  · rw [if_neg hcond] at h
    rw [(returns_pure.mp h).2]
    exact ⟨[], .nil s⟩

end

/-! ### The executions of a run -/

/-- What a reclaim carries from one execution to the next; `visited` is reset in between. -/
def Reclaim.held (r : Reclaim) : UInt64 × Option McdHashT := (r.tot, r.lfu)

/-- One execution, for a domain and in a state that `E` allows. -/
def Pass (c : Ctx) (now : Int) (E : State → Domid → Prop) (x : State × UInt64 × Option McdHashT)
    (id : Domid) (y : State × UInt64 × Option McdHashT) : Prop :=
  E x.1 id ∧ ∃ r q : Reclaim, r.held = x.2 ∧ q.held = y.2 ∧
    Returns (replaceModeSubroutine c now id r) x.1 q y.1

abbrev Passes (c : Ctx) (now : Int) (E : State → Domid → Prop) :=
  Trace (Pass c now E)

/-- An execution that starts with a clean `lfu` pointer leaves it clean, and takes entries only. -/
theorem Pass.clean {c : Ctx} {now : Int} {E : State → Domid → Prop} {id : Domid}
    {x y : State × UInt64 × Option McdHashT} (h : Pass c now E x id y) (hx : x.2.2 = none) :
    y.2.2 = none ∧ Draws c x.1 ((x.1.picks now (x.1.entries (.dom id))).map (Prod.mk id)) y.1 := by
  obtain ⟨-, r, q, hr, hq, hret⟩ := h
  have hlfu : r.lfu = none := (congrArg Prod.snd hr).trans hx
  obtain ⟨hclean, -, hdraws⟩ := replaceModeSubroutine_draws hret hlfu
  exact ⟨(congrArg Prod.snd hq).symm.trans hclean, hdraws⟩

/-- The guard of a phase's loop body. -/
def Eligible (considered : Domid → Bool) (eligible : McdDomain → Bool) (s : State) (id : Domid) :
    Prop :=
  considered id = true ∧ ∃ d, findMcdDom id s = some d ∧ eligible d = true

section
variable {c : Ctx} {now : Int} {amount : UInt64} {considered : Domid → Bool}
  {eligible : McdDomain → Bool} {r q : Reclaim} {s t : State}

theorem phaseRound_passes {ids : List Domid}
    (h : Returns (phaseRound c now amount considered eligible ids r) s q t) :
    ∃ l, Passes c now (Eligible considered eligible) (s, r.held) l (t, q.held) := by
  induction ids generalizing r s with
  | nil =>
    obtain ⟨rfl, rfl⟩ := returns_pure.mp h
    exact ⟨[], .nil _⟩
  | cons id ids ih =>
    unfold phaseRound at h
    by_cases hc : ¬ considered id = true
    · rw [if_pos hc] at h
      exact ih h
    · rw [if_neg hc] at h
      obtain ⟨r₁, s₁, h₁, h₂⟩ := returns_bind.mp h
      have hstep : ∃ l, Passes c now (Eligible considered eligible) (s, r.held) l (s₁, r₁.held) := by
        simp only [phaseStep, returns_bind, returns_domOf, and_assoc, exists_and_left,
          exists_eq_left] at h₁
        obtain ⟨d, hd, h₁⟩ := h₁
        by_cases he : eligible d = true
        · rw [if_pos he] at h₁
          have hone : Pass c now (Eligible considered eligible) (s, r.held) id (s₁, r₁.held) :=
            ⟨⟨not_not.mp hc, d, hd, he⟩, r, r₁, rfl, rfl, h₁⟩
          exact ⟨[id], .cons hone (.nil _)⟩
        · rw [if_neg he] at h₁
          obtain ⟨rfl, rfl⟩ := returns_pure.mp h₁
          exact ⟨[], .nil _⟩
      obtain ⟨l₁, hl₁⟩ := hstep
      by_cases hstop : r₁.tot > amount
      · rw [if_pos hstop] at h₂
        obtain ⟨rfl, rfl⟩ := returns_pure.mp h₂
        exact ⟨l₁, hl₁⟩
      · rw [if_neg hstop] at h₂
        obtain ⟨l₂, hl₂⟩ := ih h₂
        exact ⟨l₁ ++ l₂, hl₁.append hl₂⟩

theorem phaseLoop_passes {turns : Nat}
    (h : Returns (phaseLoop c now amount considered eligible turns r) s q t) :
    ∃ l, Passes c now (Eligible considered eligible) (s, r.held) l (t, q.held) := by
  refine phaseLoop_rule (R := fun r s q t =>
    ∃ l, Passes c now (Eligible considered eligible) (s, r.held) l (t, q.held))
    (fun r s => ⟨[], .nil _⟩) ?_ ?_ h
  · intro r s q t hret
    have hround := phaseRound_passes hret
    exact hround
  · rintro r s r₁ s₁ q t ⟨l₁, hl₁⟩ ⟨l₂, hl₂⟩
    exact ⟨l₁ ++ l₂, hl₁.append hl₂⟩

theorem weightPhase_passes (h : Returns (weightPhase c now amount considered eligible r) s q t) :
    ∃ l, Passes c now (Eligible considered eligible) (s, r.held) l (t, q.held) := by
  simp only [weightPhase, returns_bind, returns_get, and_assoc, exists_and_left,
    exists_eq_left] at h
  exact phaseLoop_passes h

/-- The loop over one domain executes the macro at least once if anything is asked for. -/
theorem adaptiveLoop_passes {id : Domid} {turns : Nat}
    (h : Returns (adaptiveLoop c now amount id turns r) s q t) :
    ∃ l, Passes c now (fun _ e => e = id) (s, r.held) l (t, q.held) ∧
      (r.tot < amount → l ≠ []) := by
  refine reclaimLoop_rule (R := fun r s q t => ∃ l, Passes c now (fun _ e => e = id)
    (s, r.held) l (t, q.held) ∧ (r.tot < amount → l ≠ [])) amount
    (replaceModeSubroutine c now id) (fun q => q) (fun _ => rfl) (fun _ _ => rfl)
    (fun r s hdone => ⟨[], .nil _, fun hlt => absurd hlt hdone⟩) ?_ ?_ h
  · intro r s q t hret
    have hone : Pass c now (fun _ e => e = id) (s, r.held) id (t, q.held) :=
      ⟨rfl, { r with visited := false }, q, rfl, rfl, hret⟩
    exact ⟨[id], .cons hone (.nil _), fun _ => List.cons_ne_nil _ _⟩
  · rintro r s r₁ s₁ q t ⟨l₁, hl₁, hne⟩ ⟨l₂, hl₂, -⟩
    exact ⟨l₁ ++ l₂, hl₁.append hl₂, fun hlt => List.append_ne_nil_of_left_ne_nil (hne hlt) l₂⟩

theorem adaptivePhase_passes {id : Domid} (h : Returns (adaptivePhase c now amount id r) s q t) :
    ∃ l, Passes c now (fun _ e => e = id) (s, r.held) l (t, q.held) ∧
      (r.tot < amount → l ≠ []) := by
  simp only [adaptivePhase, returns_bind, returns_get, and_assoc, exists_and_left,
    exists_eq_left] at h
  exact adaptiveLoop_passes h

end

/-- Executions for any domains, in any states. -/
abbrev AnyPasses (c : Ctx) (now : Int) := Passes c now fun _ _ => True

section
variable {c : Ctx} {now : Int} {amount : UInt64} {domid : Domid}

theorem Passes.any {E : State → Domid → Prop} {l : List Domid}
    {x y : State × UInt64 × Option McdHashT} (h : Passes c now E x l y) : AnyPasses c now x l y :=
  h.mono fun hstep => ⟨trivial, hstep.2⟩

theorem weightPhases_passes {fair : UInt32} {r q : Reclaim} {s t : State}
    (h : Returns (weightPhases c now amount domid fair r) s q t) :
    ∃ l, AnyPasses c now (s, r.held) l (t, q.held) := by
  simp only [weightPhases, returns_bind] at h
  obtain ⟨r₁, s₁, h₁, r₂, s₂, h₂, r₃, s₃, h₃, h₄⟩ := h
  obtain ⟨l₁, p₁⟩ := weightPhase_passes h₁
  obtain ⟨l₂, p₂⟩ := weightPhase_passes h₂
  obtain ⟨l₃, p₃⟩ := weightPhase_passes h₃
  obtain ⟨l₄, p₄⟩ := weightPhase_passes h₄
  exact ⟨_, p₁.any.append (p₂.any.append (p₃.any.append p₄.any))⟩

/-- After any executions that began with a clean `lfu` pointer it is clean again, and entries were
taken from the lists. -/
theorem AnyPasses.draws {s u : State} {n : UInt64} {l : List Domid} {h : UInt64 × Option McdHashT}
    (hp : AnyPasses c now (s, n, none) l (u, h)) : h.2 = none ∧ ∃ k, Draws c s k u := by
  refine Trace.invariant (I := fun x : State × UInt64 × Option McdHashT =>
    x.2.2 = none ∧ ∃ k, Draws c s k x.1) ?_ hp ⟨rfl, [], .nil s⟩
  intro x id y ⟨hx, k, hk⟩ hstep
  obtain ⟨hy, hdraws⟩ := hstep.clean hx
  exact ⟨hy, _, hk.append hdraws⟩

end

/-! ### Executions with what each of them takes -/

/-- One execution with a clean `lfu` pointer, the domain it is for and the entries it takes. -/
def Execution (c : Ctx) (now : Int) (x : State × UInt64) (e : Domid × List McdHashT)
    (y : State × UInt64) : Prop :=
  (∃ r q : Reclaim, r.held = (x.2, none) ∧ q.held = (y.2, none) ∧
    Returns (replaceModeSubroutine c now e.1 r) x.1 q y.1) ∧
  e.2 = x.1.picks now (x.1.entries (.dom e.1)) ∧ Draws c x.1 (e.2.map (Prod.mk e.1)) y.1

abbrev Executions (c : Ctx) (now : Int) := Trace (Execution c now)

section
variable {c : Ctx} {now : Int}

/-- Executions that begin with a clean `lfu` pointer, each with what allowed it. -/
theorem Passes.executions {E : State → Domid → Prop} {l : List Domid}
    {x y : State × UInt64 × Option McdHashT} (h : Passes c now E x l y) (hx : x.2.2 = none) :
    y.2.2 = none ∧ ∃ k, k.map Prod.fst = l ∧
      Trace (fun a e b => E a.1 e.1 ∧ Execution c now a e b) (x.1, x.2.1) k (y.1, y.2.1) := by
  induction h with
  | nil x => exact ⟨hx, [], rfl, .nil _⟩
  | @cons x y z id l head tail ih =>
    obtain ⟨hy, hdraws⟩ := head.clean hx
    obtain ⟨hz, k, hk, htail⟩ := ih hy
    obtain ⟨hE, r, q, hr, hq, hret⟩ := head
    have hr' : r.held = (x.2.1, none) := by rw [hr, ← hx]
    have hq' : q.held = (y.2.1, none) := by rw [hq, ← hy]
    exact ⟨hz, (id, _) :: k, by rw [List.map_cons, hk],
      .cons ⟨hE, ⟨r, q, hr', hq', hret⟩, rfl, hdraws⟩ htail⟩

theorem Passes.labels {E : State → Domid → Prop} {l : List Domid}
    {x y : State × UInt64 × Option McdHashT} (h : Passes c now E x l y) : ∀ e ∈ l, ∃ u, E u e := by
  induction h with
  | nil x => simp
  | @cons x y z id l head tail ih =>
    intro e he
    rcases List.mem_cons.mp he with rfl | he
    · exact ⟨x.1, head.1⟩
    · exact ih e he

end

end UniCache.Mcd
