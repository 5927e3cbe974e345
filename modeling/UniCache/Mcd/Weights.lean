import UniCache.Mcd.Bookings

/-! The weights of the domains: what creation, destruction and `set_weight` make of them, and when the
ratios are their shares. -/
namespace UniCache.Mcd
open Base Base.Exec

/-- The computation leaves weights and ratios alone. -/
abbrev KeepsShares {α : Type} (x : M α) : Prop := Within (fun s t => t.shares = s.shares) x

/-! ### What leaves the weights alone -/

theorem KeepsBooks.shares {α : Type} {x : M α} (h : KeepsBooks x) : KeepsShares x :=
  fun s a t hret => congrArg (·.aside.shares) (h s a t hret)

theorem shares_of_plain {e : Booking} (he : e.Plain) (b : Books) :
    (b.book e).aside.shares = b.aside.shares := by
  cases e with
  | strike | enter | touch | chart | tune => rfl
  | record | weigh | enrol | retire => exact he.elim

theorem Plainly.shares {P : Prop} {s t : State} (h : Plainly P s t) : t.shares = s.shares := by
  obtain ⟨l, hl, hb⟩ := h
  exact Booked.keeps (f := (·.aside.shares)) (fun b e he => shares_of_plain he b) hb
    fun e he => (hl e he).1

theorem Strikes.shares {s t : State} (h : Strikes s t) : t.shares = s.shares :=
  (h.plainly (P := True)).shares

theorem put_keepsShares {c : Ctx} {id : Domid} {k : GuestKey} {v : GuestVal} :
    KeepsShares (mcdOp c (.put id k v)) := by
  intro s r t h
  rcases put_booked (P := True) h with ⟨-, hp⟩ | ⟨-, u, mh, hp, -, -, -, -, ht⟩
  · exact hp.shares
  · have hrecord : t.shares = u.shares := congrArg (·.aside.shares) ht
    rw [hrecord]
    exact hp.shares

/-! ### What changes them -/

section
variable {c : Ctx} {id : Domid} {w : UInt32} {s t : State} {r : Reply} {d : McdDomain}

theorem shares_domWeightUpdate (s : State) : s.domWeightUpdate.shares = s.shares.update := by
  unfold State.domWeightUpdate Shares.update
  by_cases hz : s.totalWeight ≤ 0
  · rw [if_pos hz, if_pos (show s.shares.total ≤ 0 from hz)]
    rfl
  · rw [if_neg hz, if_neg (show ¬ s.shares.total ≤ 0 from hz)]
    simp only [State.shares, List.map_map]
    rfl

theorem find_shares (h : findMcdDom id s = some d) :
    s.shares.list.find? (·.id = d.share.id) = some d.share := by
  have hid : d.domid = id := by simpa using List.find?_some h
  have hfind : s.domains.find? ((fun x : Share Domid => decide (x.id = id)) ∘ McdDomain.share) = some d := h
  show (s.domains.map (·.share)).find? (fun x => decide (x.id = d.domid)) = _
  rw [hid, List.find?_map, hfind]
  rfl

theorem list_modifyDom (id : Domid) (w : UInt32) (s : State) :
    (s.modifyDom id fun d => { d with weight := w }).shares.list =
      Shares.reweigh id w s.shares.list := by
  have hl : ∀ l : List McdDomain,
      (modifyFirst id (fun d => { d with weight := w }) l).map (·.share) =
        Shares.reweigh id w (l.map (·.share)) := by
    intro l
    induction l with
    | nil => rfl
    | cons d l ih =>
      have hshare : d.share.id = d.domid := rfl
      by_cases hd : d.domid = id
      · rw [List.map_cons, modifyFirst, if_pos hd, Shares.reweigh, hshare, if_pos hd]
        rfl
      · rw [List.map_cons, modifyFirst, if_neg hd, Shares.reweigh, hshare, if_neg hd, List.map_cons,
          ih]
  exact hl s.domains

theorem weight_shares (h : Returns (mcdOp c (.weight id w)) s r t) :
    ∃ d, findMcdDom id s = some d ∧ t.shares = (s.shares.setWeight d.share w).update := by
  simp only [mcdOp, setWeight, returns_bind, returns_domOf, returns_modify, returns_pure, and_assoc,
    exists_and_left, exists_eq_left, exists_const] at h
  obtain ⟨d, hd, -, rfl⟩ := h
  refine ⟨d, hd, ?_⟩
  have hid : d.domid = id := by simpa using List.find?_some hd
  rw [shares_domWeightUpdate]
  congr 1
  show Shares.mk _ _ = Shares.mk _ _
  congr 1
  rw [← hid]
  exact list_modifyDom _ w _

/-- A creation fails, or adds a member; dom0 is added without a pass. -/
theorem create_shares (h : Returns (mcdOp c (.create id)) s r t) :
    t.shares = s.shares ∨ t.shares = (if id > 0 then (s.shares.enrol (freshDomain id).share).update
      else s.shares.enrol (freshDomain id).share) := by
  obtain ⟨o, s₁, hmalloc, h⟩ := returns_bind.mp h
  have hsame : s₁.shares = s.shares := (mcdMalloc_stripped _ _ _ _ _ hmalloc).strikes.shares
  cases o with
  | none =>
    rw [(returns_pure.mp h).2]
    exact .inl hsame
  | some addr =>
    simp only [returns_bind, returns_modify, returns_pure, exists_eq_left, exists_const] at h
    obtain ⟨_, s₂, hreq, -, rfl⟩ := h
    right
    rw [(KeepsBooks.minfRequest _).shares _ _ _ hreq, ← hsame]
    by_cases hpos : id > 0
    · rw [if_pos hpos, if_pos hpos, if_pos hpos, shares_domWeightUpdate]
      simp only [State.shares, Shares.enrol, List.map_append, freshDomain, McdDomain.share, if_pos hpos]
      rfl
    · rw [if_neg hpos, if_neg hpos, if_neg hpos]
      simp only [State.shares, Shares.enrol, List.map_append, freshDomain, McdDomain.share, if_neg hpos,
        UInt32.add_zero]
      rfl

theorem destroy_shares (h : Returns (mcdOp c (.destroy id)) s r t) :
    ∃ d, s.shares.list.find? (·.id = d.id) = some d ∧ t.shares = (s.shares.retire d).update := by
  obtain ⟨_, s₁, hreq, h⟩ := returns_bind.mp h
  have hsame : s₁.shares = s.shares := (KeepsBooks.minfRequest _).shares _ _ _ hreq
  simp only [returns_bind, returns_domOf, returns_modify, returns_pure, and_assoc, exists_and_left,
    exists_eq_left, exists_const] at h
  obtain ⟨d, hd, _, s₂, hflush, -, rfl⟩ := h
  have hkept : s₂.shares = ⟨s₁.totalWeight - d.weight, s₁.shares.list⟩ :=
    (pMcdFlush_strikes _ _ _ hflush).shares
  have hid : d.domid = id := by simpa using List.find?_some hd
  refine ⟨d.share, by rw [← hsame]; exact find_shares hd, ?_⟩
  rw [shares_domWeightUpdate, ← hsame]
  congr 1
  have htotal : s₂.totalWeight = s₁.totalWeight - d.weight := congrArg Shares.total hkept
  have hlist : s₂.shares.list = s₁.shares.list := congrArg (·.list) hkept
  show Shares.mk _ _ = Shares.mk _ _
  rw [htotal]
  congr 1
  rw [← hlist]
  show (s₂.domains.eraseP (fun d => decide (d.domid = id))).map (·.share) =
    (s₂.domains.map (·.share)).eraseP (fun x => decide (x.id = d.domid))
  rw [hid, List.eraseP_map]
  rfl

end

/-- The command gives no weight that total or ratios cannot take. -/
def Cmd.Weighs (a : Shares Domid) : Cmd → Prop
  | .weight id w => a.Allows id w
  | .create id => id > 0 → a.sum + domWeightDefault.toNat < 2 ^ 32
  | _ => True

instance (a : Shares Domid) : (cmd : Cmd) → Decidable (cmd.Weighs a)
  | .weight id w => inferInstanceAs (Decidable (a.Allows id w))
  | .create id => inferInstanceAs (Decidable (id > 0 → _))
  | .get .. | .put .. | .remove .. | .check .. | .getsize .. | .flush _ | .memsize _ | .cacheMode ..
  | .param .. | .destroy _ | .enable | .disable => .isTrue trivial

def Call.Weighs (y : System) (a : Call) : Prop := a.cmd.Weighs y.mcd.shares

instance (y : System) (a : Call) : Decidable (Call.Weighs y a) :=
  inferInstanceAs (Decidable (a.cmd.Weighs y.mcd.shares))

section
variable {c : Ctx} {s t : State} {r : Reply} {cmd : Cmd}

/-- A condition that decides whether the new shares are fair may add that nothing changed. -/
theorem fair_iff_or {a b : Shares Domid} {P : Prop} (hfair : a.Fair) (hiff : b.Fair ↔ P) :
    b.Fair ↔ P ∨ b = a := by
  constructor
  · intro hnew
    exact .inl (hiff.mp hnew)
  · rintro (hp | heq)
    · exact hiff.mpr hp
    · rw [heq]
      exact hfair

theorem weight_fair {id : Domid} {w : UInt32} (hfair : s.shares.Fair) (hfits : s.shares.Fits)
    (h : Returns (mcdOp c (.weight id w)) s r t) :
    (t.shares.Fair ↔ s.shares.Allows id w) ∧ (s.shares.Allows id w → t.shares.Fits) := by
  obtain ⟨d, hd, ht⟩ := weight_shares h
  have hfound : d.domid = id := by simpa using List.find?_some hd
  have hid : d.share.id = id := hfound
  constructor
  · have hiff := Shares.setWeight_fair_iff (w := w) hfair hfits (find_shares hd)
    rw [hid, ← ht] at hiff
    exact hiff
  · intro hallows
    rw [ht]
    exact Shares.fits_update (Shares.fits_setWeight hfits hallows.2.1)

/-- A guest joins with the default weight, and the ratios are computed anew; domain 0 joins with
weight 0, and they are not. -/
theorem create_fair {id : Domid} (hfair : s.shares.Fair) (hfits : s.shares.Fits)
    (h : Returns (mcdOp c (.create id)) s r t) (hnew : t.shares ≠ s.shares) :
    (t.shares.Fair ↔ (id > 0 → s.shares.sum + domWeightDefault.toNat < 2 ^ 32)) ∧
      t.shares.Fits := by
  have ht := (create_shares h).resolve_left hnew
  by_cases hpos : id > 0
  · rw [if_pos hpos] at ht
    have hw : (freshDomain id).share.weight = domWeightDefault := if_pos hpos
    have hsmall : 100 * (freshDomain id).share.weight.toNat < 2 ^ 32 := by
      rw [hw]
      decide
    have hiff := Shares.enrol_fair_iff hfair hfits hsmall rfl
    rw [hw, ← ht] at hiff
    constructor
    · rw [hiff]
      exact ⟨fun hsum _ => hsum, fun hsum => hsum hpos⟩
    · rw [ht]
      exact Shares.fits_update (Shares.fits_enrol hfits hsmall)
  · rw [if_neg hpos] at ht
    have hw : (freshDomain id).share.weight = 0 := if_neg hpos
    rw [ht]
    constructor
    · exact ⟨fun _ hid => absurd hid hpos, fun _ => Shares.enrol_fair hfair hw rfl⟩
    · exact Shares.fits_enrol hfits (by rw [hw]; decide)

/-- Shares that were fair stay fair exactly when the command allows it, or changes nothing. -/
theorem mcdOp_fair (hfair : s.shares.Fair) (hfits : s.shares.Fits) (h : Returns (mcdOp c cmd) s r t) :
    (t.shares.Fair ↔ cmd.Weighs s.shares ∨ t.shares = s.shares) ∧
      (cmd.Weighs s.shares → t.shares.Fits) := by
  have hkeep : t.shares = s.shares → (t.shares.Fair ↔ cmd.Weighs s.shares ∨ t.shares = s.shares) ∧
      (cmd.Weighs s.shares → t.shares.Fits) := by
    intro heq
    rw [heq]
    exact ⟨⟨fun _ => .inr rfl, fun _ => hfair⟩, fun _ => hfits⟩
  cases cmd with
  | weight id w =>
    obtain ⟨hiff, hnew⟩ := weight_fair hfair hfits h
    exact ⟨fair_iff_or hfair hiff, hnew⟩
  | create id =>
    by_cases heq : t.shares = s.shares
    · exact hkeep heq
    · obtain ⟨hiff, hnew⟩ := create_fair hfair hfits h heq
      exact ⟨fair_iff_or hfair hiff, fun _ => hnew⟩
  | destroy id =>
    obtain ⟨d, hd, ht⟩ := destroy_shares h
    rw [ht]
    exact ⟨⟨fun _ => .inl trivial, fun _ => Shares.retire_fair hfair hfits hd⟩,
      fun _ => Shares.fits_update (Shares.fits_retire hfits)⟩
  | get d k cap => exact hkeep (get_plainly h).shares
  | put d k v => exact hkeep (put_keepsShares _ _ _ h)
  | remove d k => exact hkeep (remove_strikes _ _ _ h).shares
  | check d k => exact hkeep (check_plainly (P := True) h).shares
  | getsize d k =>
    have hcheck : Returns (mcdOp c (.check d k)) s r t := h
    exact hkeep (check_plainly (P := True) hcheck).shares
  | flush d => exact hkeep (flush_strikes h).shares
  | memsize m => exact hkeep (memsize_strikes h).shares
  | cacheMode which mode => exact hkeep (cacheMode_strikes h).shares
  | param which mode p => exact hkeep (param_plainly (P := True) h).shares
  | enable => exact hkeep (KeepsBooks.enable.shares _ _ _ h)
  | disable => exact hkeep (disable_books.shares _ _ _ h)

end

section
variable {y z : System} {a : Call} {r : Reply} {l : List (Call × Reply)}

theorem call_shares (h : y.call a = .ok (r, z)) :
    ∃ t, Returns (mcdOp (y.ctx a.env) a.cmd) y.mcd r t ∧ z.mcd.shares = t.shares := by
  obtain ⟨t, hop, hz⟩ := call_books h
  exact ⟨t, hop, congrArg (·.aside.shares) hz⟩

theorem run_fits (h : Run Call.Weighs .start l y) : y.mcd.shares.Fair ∧ y.mcd.shares.Fits := by
  refine Trace.invariant (I := fun y : System => y.mcd.shares.Fair ∧ y.mcd.shares.Fits) ?_ h ?_
  · rintro y ⟨a, r⟩ z ⟨hfair, hfits⟩ ⟨hweighs, hcall⟩
    obtain ⟨t, hop, hz⟩ := call_shares hcall
    obtain ⟨hiff, hkept⟩ := mcdOp_fair hfair hfits hop
    rw [hz]
    exact ⟨hiff.mpr (.inl hweighs), hkept hweighs⟩
  · constructor
    · constructor
      · rfl
      · intro x hx
        cases hx
    · intro x hx
      cases hx

/-- In a run whose commands bring no weight that does not fit, the total is the sum of the weights,
every ratio is the share of its weight, rounded down, and the ratios make up at most 100. Of the next
command the same is true exactly if its weight fits, or it changes nothing. -/
theorem run_shares_fair (h : Run Call.Weighs .start l y) :
    y.mcd.shares.Fair ∧ (y.mcd.domains.map (·.ratio.toNat)).sum ≤ 100 ∧
      ∀ a r z, y.call a = .ok (r, z) →
        (z.mcd.shares.Fair ↔ a.Weighs y ∨ z.mcd.shares = y.mcd.shares) := by
  obtain ⟨hfair, hfits⟩ := run_fits h
  refine ⟨hfair, ?_, fun a r z hcall => ?_⟩
  · have hle := hfair.sum_ratio_le
    simp only [State.shares, List.map_map] at hle
    exact hle
  · obtain ⟨t, hop, hz⟩ := call_shares hcall
    rw [hz]
    exact (mcdOp_fair hfair hfits hop).1

end

/-- Two domains, one with three times the weight of the other. -/
def System.twoWeighted : System :=
  System.start.after [⟨.calm, .create 1⟩, ⟨.calm, .create 2⟩, ⟨.calm, .weight 2 300⟩]

theorem run_shares_fair_two :
    System.twoWeighted.mcd.shares = ⟨400, [⟨1, 100, 25⟩, ⟨2, 300, 75⟩]⟩ ∧
      System.twoWeighted.mcd.shares.Fair := by
  have hshares : System.twoWeighted.mcd.shares = ⟨400, [⟨1, 100, 25⟩, ⟨2, 300, 75⟩]⟩ := by
    decide +kernel
  have hruns : System.start.runs Call.Weighs [⟨.calm, .create 1⟩, ⟨.calm, .create 2⟩,
      ⟨.calm, .weight 2 300⟩] := by decide +kernel
  have hrun : ∃ l, l.map (·.1) = _ ∧ Run Call.Weighs .start l System.twoWeighted := run_of_runs hruns
  generalize System.twoWeighted = y at *
  obtain ⟨l, -, hrun⟩ := hrun
  exact ⟨hshares, (run_shares_fair hrun).1⟩

/-- The only domain is given the weight 0. -/
def System.unweighted : System := System.start.after [⟨.calm, .create 1⟩, ⟨.calm, .weight 1 0⟩]

/-- The only domain is given a weight of which a hundredfold wraps. -/
def System.overweight : System :=
  System.start.after [⟨.calm, .create 1⟩, ⟨.calm, .weight 1 42949673⟩]

/-- The weights of two domains add up to 2 ^ 32. -/
def System.wrapped : System := System.start.after
  [⟨.calm, .create 1⟩, ⟨.calm, .create 2⟩, ⟨.calm, .weight 1 0xffffff9c⟩]

/-- A ratio of 100 outlives its weight, a domain alone has a ratio of 0, and a total is 0 while the
weights are not. -/
theorem shares_go_wrong :
    ((∃ l, Run Call.Fresh .start l System.unweighted) ∧
      System.unweighted.mcd.shares = ⟨0, [⟨1, 0, 100⟩]⟩ ∧ ¬ System.unweighted.mcd.shares.Fair) ∧
    ((∃ l, Run Call.Fresh .start l System.overweight) ∧
      System.overweight.mcd.shares = ⟨42949673, [⟨1, 42949673, 0⟩]⟩ ∧
      ¬ System.overweight.mcd.shares.Fair) ∧
    (∃ l, Run Call.Fresh .start l System.wrapped) ∧
      System.wrapped.mcd.shares = ⟨0, [⟨1, 0xffffff9c, 50⟩, ⟨2, 100, 50⟩]⟩ ∧
      ¬ System.wrapped.mcd.shares.Fair := by
  have hzero : System.start.runs Call.Fresh [⟨.calm, .create 1⟩, ⟨.calm, .weight 1 0⟩] := by
    decide +kernel
  have hover : System.start.runs Call.Fresh [⟨.calm, .create 1⟩, ⟨.calm, .weight 1 42949673⟩] := by
    decide +kernel
  have hwrap : System.start.runs Call.Fresh [⟨.calm, .create 1⟩, ⟨.calm, .create 2⟩,
      ⟨.calm, .weight 1 0xffffff9c⟩] := by decide +kernel
  obtain ⟨l₁, -, hrun₁⟩ := run_of_runs hzero
  obtain ⟨l₂, -, hrun₂⟩ := run_of_runs hover
  obtain ⟨l₃, -, hrun₃⟩ := run_of_runs hwrap
  refine ⟨⟨⟨l₁, hrun₁⟩, ?_⟩, ⟨⟨l₂, hrun₂⟩, ?_⟩, ⟨l₃, hrun₃⟩, ?_⟩ <;> decide +kernel

end UniCache.Mcd
