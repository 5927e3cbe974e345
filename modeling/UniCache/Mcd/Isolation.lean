import UniCache.Mcd.ExactRuns

/-! Partition mode keeps the domains apart: what one of them is told does not depend on what the
others do. -/
namespace UniCache.Mcd
open Base Base.Exec

/-- The domain whose operation a command is; the others are the administrator's. -/
def Cmd.caller : Cmd → Option Domid
  | .get d _ _ | .put d _ _ | .remove d _ | .check d _ | .getsize d _ | .flush d => some d
  | _ => none

/-- The commands that a domain may notice: its own, and the administrator's. -/
def Cmd.concerns (d : Domid) (cmd : Cmd) : Bool := cmd.caller = none ∨ cmd.caller = some d

/-- Partition mode is not left. -/
def Cmd.StaysPartition : Cmd → Prop
  | .cacheMode which mode => CacheMode.partition.switched which mode = .partition
  | _ => True

namespace Ideal

/-- What a domain sees of the map in partition mode. -/
def view (d : Domid) (i : Ideal) : Bool × (UInt32 → Option (List UInt8)) :=
  (i.attached, i.held (.dom d))

section
variable {i j : Ideal} {d e : Domid} {k : GuestKey} {cmd : Cmd}

theorem home_dom (hi : i.mode = .partition) : i.home e k = .dom e := by
  rw [home, hi]
  rfl

theorem held_assign (hi : i.mode = .partition) (x : Option (List UInt8)) :
    (i.assign e k x).held (.dom d) =
      if d = e then Function.update (i.held (.dom d)) (getHash k.bytes) x else i.held (.dom d) := by
  simp only [assign, set, home_dom hi]
  by_cases hd : d = e
  · rw [if_pos hd, hd, Function.update_self]
  · rw [if_neg hd, Function.update_of_ne fun h => hd (Loc.dom.inj h)]

theorem find_of_view (hi : i.mode = .partition) : i.find d k = (i.view d).2 (getHash k.bytes) := by
  rw [find, home_dom hi]
  rfl

theorem view_assign (hi : i.mode = .partition) (x : Option (List UInt8)) :
    (i.assign e k x).view d = ((i.view d).1,
      if d = e then Function.update (i.view d).2 (getHash k.bytes) x else (i.view d).2) := by
  simp only [view, held_assign hi]
  rfl

theorem view_measure (hi : i.mode = .partition) : (i.measure e k).view d = ((i.view d).1,
    if d = e ∧ ((i.view d).2 (getHash k.bytes)).isSome = false
    then Function.update (i.view d).2 (getHash k.bytes) (some []) else (i.view d).2) := by
  unfold measure
  by_cases hd : d = e
  · rw [← hd, find_of_view hi]
    by_cases hsome : ((i.view d).2 (getHash k.bytes)).isSome = true
    · rw [if_pos hsome, if_neg (by simp [hsome])]
    · rw [if_neg hsome, view_assign hi, if_pos rfl, if_pos ⟨rfl, by simpa using hsome⟩]
  · have hno : ¬ (d = e ∧ ((i.view d).2 (getHash k.bytes)).isSome = false) := fun h => hd h.1
    rw [if_neg hno]
    split_ifs
    · rfl
    · rw [view_assign hi, if_neg hd]

theorem view_keep (P : Loc → Prop) [DecidablePred P] :
    (i.keep P).view d = ((i.view d).1, if P (.dom d) then (i.view d).2 else fun _ => none) := rfl

end

/-- Partition mode satisfies the unwinding conditions for every domain. -/
theorem unwinds (d : Domid) :
    Unwinds step (Cmd.concerns d) (view d) (fun i => i.mode = .partition) Cmd.StaysPartition where
  keeps := by
    intro i cmd hi hstay
    cases cmd with
    | cacheMode which mode =>
      have hsame : i.mode.switched which mode = i.mode := by
        rw [hi]
        exact hstay
      simp only [step, hsame, switch]
      exact hi
    | check | getsize =>
      simp only [step, measure]
      split_ifs <;> exact hi
    | param =>
      simp only [step]
      split_ifs <;> exact hi
    | _ => exact hi
  respects := by
    intro i cmd hi hstay hunseen
    have hother : ∀ {e}, cmd.caller = some e → d ≠ e := by
      rintro e he rfl
      simp [Cmd.concerns, he] at hunseen
    cases cmd with
    | get e k cap => rfl
    | put e k v => exact (view_assign hi _).trans (by rw [if_neg (hother rfl)])
    | remove e k => exact (view_assign hi _).trans (by rw [if_neg (hother rfl)])
    | check e k => exact (view_measure hi).trans (by rw [if_neg fun h => hother rfl h.1])
    | getsize e k => exact (view_measure hi).trans (by rw [if_neg fun h => hother rfl h.1])
    | flush e =>
      have hkept : Untouched e i.mode (.dom d) :=
        .inr ⟨hi, fun h => hother rfl (Loc.dom.inj h)⟩
      exact (view_keep _).trans (by rw [if_pos hkept])
    | _ => simp [Cmd.concerns, Cmd.caller] at hunseen
  consistent := by
    intro i j cmd hi hj hview hstay hseen
    have hown : ∀ {e}, cmd.caller = some e → e = d := by
      intro e he
      simpa [Cmd.concerns, he] using hseen
    cases cmd with
    | get e k cap =>
      rw [hown rfl]
      refine ⟨?_, hview⟩
      simp only [step, find_of_view hi, find_of_view hj, hview]
    | put e k v => exact ⟨rfl, by simp only [step, view_assign hi, view_assign hj, hview]⟩
    | remove e k => exact ⟨rfl, by simp only [step, view_assign hi, view_assign hj, hview]⟩
    | check e k | getsize e k =>
      rw [hown rfl]
      simp only [step, find_of_view hi, find_of_view hj, view_measure hi, view_measure hj, hview, hi,
        hj, and_self]
    | flush e =>
      simp only [step, view_keep, hi, hj, hview, and_self]
    | cacheMode which mode =>
      have hi' : i.mode.switched which mode = i.mode := by
        rw [hi]
        exact hstay
      have hj' : j.mode.switched which mode = j.mode := by
        rw [hj]
        exact hstay
      simp only [step, switch, hi', hj', if_true, hview, and_self]
    | param which mode p =>
      refine ⟨rfl, ?_⟩
      simp only [step]
      split_ifs
      · simp only [view_keep, hi, hj, hview]
      · exact hview
    | destroy e =>
      have hkeep : (i.keep (· ≠ .dom e)).view d = (j.keep (· ≠ .dom e)).view d := by
        simp only [view_keep, hview]
      exact ⟨rfl, hkeep⟩
    | enable =>
      have hatt : i.attached = j.attached := congrArg Prod.fst hview
      have hheld : i.held (.dom d) = j.held (.dom d) := congrArg Prod.snd hview
      simp only [step, hatt, view, hheld, and_self]
    | disable =>
      have hheld : i.held (.dom d) = j.held (.dom d) := congrArg Prod.snd hview
      simp only [step, view, hheld, and_self]
    | _ => exact ⟨rfl, hview⟩

end Ideal

/-! ### Runs of the cache -/

section
variable {P : System → Call → Prop} {y : System} {pre l : List Call}

theorem System.Along.left (h : y.Along P (pre ++ l)) : y.Along P pre := by
  induction pre generalizing y with
  | nil => trivial
  | cons a pre ih => exact ⟨h.1, fun r z hcall => ih (h.2 r z hcall)⟩

theorem System.Along.right (h : y.Along P (pre ++ l)) (hret : (y.replies pre).isSome) :
    (y.after pre).Along P l := by
  induction pre generalizing y with
  | nil => exact h
  | cons a pre ih =>
    cases hcall : y.call a with
    | error e => simp [System.replies, hcall] at hret
    | ok p =>
      simp only [System.replies, hcall, Option.isSome_map] at hret
      simp only [System.after, hcall]
      exact ih (h.2 _ _ hcall) hret

end

theorem vacated_cfg (t : Tiers) (d : Domid) (k : GuestKey) : (t.vacated d k).cfg = t.cfg := by
  unfold Tiers.vacated
  cases t.present d k <;> rfl

/-- In best effort a `put` needs memory from the hypervisor and nothing else, as long as no daemon is
attached. -/
theorem unhindered_put_best {y : System} {env : Env} {d : Domid} {k : GuestKey} {v : GuestVal}
    (h : d ∈ y.mcd.domids ∧ y.mcd.cacheMode = .partition ∧ y.mcd.partitionMode = .be ∧
      y.mcd.mcdctlEnabled = false) (hk : k.Stable) (hmem : ∀ n, env.xmalloc n = true) :
    Call.Unhindered y ⟨env, .put d k v⟩ := by
  obtain ⟨hd, hmode, hbest, hoff⟩ := h
  refine ⟨hd, hk, fun hdis => ?_, hmem, .inl ⟨?_, ?_⟩⟩
  · have hon : (y.mcd.mcdctlEnabled && y.mcd.mcdctlUserEnabled) = true := hdis.2.1
    rw [hoff] at hon
    cases hon
  · rw [vacated_cfg]
    exact hmode
  · rw [vacated_cfg]
    exact hbest

end UniCache.Mcd
