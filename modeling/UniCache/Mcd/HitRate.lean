import UniCache.Mcd.Destroy

/-! The hit rate of a domain over runs of any length, against the true numbers of hits and misses. -/
namespace UniCache.Mcd
open Base Base.Exec

/-- The hits and misses of a domain, counted without bound from the values of its creation or of the
last reset. `rated` is false from its creation to the first of them. -/
structure HitCount where
  succ : Nat
  fail : Nat
  rated : Bool
  deriving DecidableEq

def HitCount.count (g : HitCount) (rc : Rc) : HitCount :=
  if rc = .retGetMem ∨ rc = .retGetSsd then ⟨g.succ + 1, g.fail, true⟩ else ⟨g.succ, g.fail + 1, true⟩

/-- The numbers for domain `d` after a call. -/
def Call.hitCount (d : Domid) (y : System) (a : Call) (r : Reply) (g : HitCount) : HitCount :=
  match a.cmd with
  | .create e => if e = d ∧ r.rc = .errNo then ⟨1, 1, false⟩ else g
  | .param 25 _ 1 => if d = 0 ∨ d ∉ y.mcd.domids then g else ⟨0, 0, true⟩
  | cmd => if cmd.countsFor = some d then g.count r.rc else g

/-- The numbers for domain `d` after a run from `y`. -/
def hitCount (d : Domid) (g : HitCount) (y : System) : List (Call × Reply) → HitCount
  | [] => g
  | x :: l => hitCount d (x.1.hitCount d y x.2 g) (y.after [x.1]) l

/-- The counters show the numbers in 32 bits, and the rate is the one computed from them. -/
structure HitCount.Shown (g : HitCount) (h : HitStat) : Prop where
  getSucc : h.getSucc = UInt32.ofNat g.succ
  getFail : h.getFail = UInt32.ofNat g.fail
  hitrate : h.hitrate = if g.rated then h.getSucc * 100 / (h.getSucc + h.getFail) else 0

section
variable {g : HitCount} {h : HitStat} {rc : Rc}

theorem HitCount.Shown.count (hg : g.Shown h) (rc : Rc) : (g.count rc).Shown (h.count rc) := by
  unfold HitCount.count HitStat.count
  by_cases hit : rc = .retGetMem ∨ rc = .retGetSsd
  · simp only [if_pos hit]
    refine ⟨?_, hg.getFail, rfl⟩
    rw [UInt32.ofNat_add, hg.getSucc]
    rfl
  · simp only [if_neg hit]
    refine ⟨hg.getSucc, ?_, rfl⟩
    rw [UInt32.ofNat_add, hg.getFail]
    rfl

theorem shown_zero : (⟨0, 0, true⟩ : HitCount).Shown ⟨0, 0, 0⟩ := ⟨rfl, rfl, rfl⟩

theorem hitsAfter_of_ne {y : System} {cmd : Cmd} {r : Reply} (hcreate : ∀ e, cmd ≠ .create e)
    (hparam : ∀ mode, cmd ≠ .param 25 mode 1) :
    y.hitsAfter cmd r = match cmd.countsFor with
      | some domid => Function.update y.hits domid ((y.hits domid).count r.rc)
      | none => y.hits := by
  unfold System.hitsAfter
  split
  case h_1 e => exact (hcreate e rfl).elim
  case h_2 mode => exact (hparam mode rfl).elim
  case h_3 => rfl

/-- Every command moves the counters as it moves the numbers. -/
theorem HitCount.Shown.call {y : System} {a : Call} {d : Domid} (hg : g.Shown (y.hits d))
    (r : Reply) : (a.hitCount d y r g).Shown (y.hitsAfter a.cmd r d) := by
  unfold Call.hitCount
  split
  case h_1 e hcmd =>
    rw [hcmd]
    show HitCount.Shown _ ((if r.rc = .errNo then Function.update y.hits e ⟨1, 1, 0⟩ else y.hits) d)
    by_cases hr : r.rc = .errNo
    · by_cases he : e = d
      · rw [if_pos ⟨he, hr⟩, if_pos hr, he, Function.update_self]
        exact ⟨rfl, rfl, rfl⟩
      · rw [if_neg fun h => he h.1, if_pos hr, Function.update_of_ne (Ne.symm he)]
        exact hg
    · rw [if_neg fun h => hr h.2, if_neg hr]
      exact hg
  case h_2 mode hcmd =>
    rw [hcmd]
    show HitCount.Shown _ (if d = 0 ∨ d ∉ y.mcd.domids then y.hits d else ⟨0, 0, 0⟩)
    by_cases hd : d = 0 ∨ d ∉ y.mcd.domids
    · rw [if_pos hd, if_pos hd]
      exact hg
    · rw [if_neg hd, if_neg hd]
      exact shown_zero
  case h_3 hcreate hparam =>
    rw [hitsAfter_of_ne hcreate hparam]
    cases hcmd : a.cmd.countsFor with
    | none => exact hg
    | some e =>
      show HitCount.Shown _ (Function.update y.hits e ((y.hits e).count r.rc) d)
      by_cases he : e = d
      · rw [if_pos (by rw [he]), he, Function.update_self]
        exact hg.count r.rc
      · rw [if_neg fun h => he (Option.some.inj h), Function.update_of_ne (Ne.symm he)]
        exact hg

end

section
variable {P : System → Call → Prop} {y z : System} {l : List (Call × Reply)} {g : HitCount} {d : Domid}

theorem run_shown_of (h : Run P y l z) (hy : g.Shown (y.hits d)) :
    (hitCount d g y l).Shown (z.hits d) := by
  induction h generalizing g with
  | nil => exact hy
  | @cons y y' z x l hstep _ ih =>
    have hhits : y'.hits = y.hitsAfter x.1.cmd x.2 := by
      obtain ⟨_, _, _, -, -, -, hy'⟩ := call_returns hstep.2
      rw [hy']
    rw [hitCount, after_of_call hstep.2]
    apply ih
    rw [hhits]
    exact hy.call x.2

theorem run_shown (h : Run P .start l y) (d : Domid) :
    (hitCount d ⟨0, 0, true⟩ .start l).Shown (y.hits d) :=
  run_shown_of h shown_zero

/-- The rate computed in 32 bits. -/
theorem HitCount.Shown.toNat_hitrate {h : HitStat} (hg : g.Shown h) (hr : g.rated) :
    h.hitrate.toNat = g.succ * 100 % 2 ^ 32 / ((g.succ + g.fail) % 2 ^ 32) := by
  have hhundred : UInt32.toNat 100 = 100 := rfl
  rw [hg.hitrate, if_pos hr, hg.getSucc, hg.getFail, UInt32.toNat_div, UInt32.toNat_mul,
    UInt32.toNat_add, UInt32.toNat_ofNat', UInt32.toNat_ofNat', hhundred, Nat.mod_mul_mod,
    ← Nat.add_mod]

/-- A product that wraps makes the rate too small. -/
theorem rate_eq_iff {s f : Nat} (hsum : s + f < 2 ^ 32) :
    s * 100 % 2 ^ 32 / ((s + f) % 2 ^ 32) = 100 * s / (s + f) ↔ 100 * s < 2 ^ 32 := by
  rw [Nat.mod_eq_of_lt hsum, Nat.mul_comm s]
  constructor
  · intro heq
    by_contra hge
    rw [Nat.not_lt] at hge
    have hpos : 0 < s + f := by omega
    have hwrap : 100 * s % 2 ^ 32 + (s + f) ≤ 100 * s := by
      have hle := Nat.mod_le (100 * s) (2 ^ 32)
      omega
    have hlt : 100 * s % 2 ^ 32 / (s + f) + 1 ≤ 100 * s / (s + f) := by
      rw [← Nat.add_div_right _ hpos]
      exact Nat.div_le_div_right hwrap
    omega
  · intro hlt
    rw [Nat.mod_eq_of_lt hlt]

theorem rate_le {s f : Nat} : 100 * s / (s + f) ≤ 100 := by
  apply Nat.div_le_of_le_mul
  rw [Nat.mul_comm]
  exact Nat.mul_le_mul_right 100 (Nat.le_add_right s f)

theorem HitCount.Shown.hitrate_le {h : HitStat} (hg : g.Shown h) (hprod : 100 * g.succ < 2 ^ 32)
    (hsum : g.succ + g.fail < 2 ^ 32) : h.hitrate ≤ 100 := by
  rw [UInt32.le_iff_toNat_le]
  cases hr : g.rated with
  | false =>
    rw [hg.hitrate, hr]
    exact Nat.zero_le _
  | true =>
    rw [hg.toNat_hitrate hr, (rate_eq_iff hsum).mpr hprod]
    exact rate_le

/-- The divisor of `SET_HITRATE`. -/
theorem HitCount.Shown.divisor_iff {h : HitStat} (hg : g.Shown h) :
    h.getSucc + h.getFail ≠ 0 ↔ ¬ 2 ^ 32 ∣ g.succ + g.fail := by
  rw [Ne, not_iff_not, ← UInt32.toNat_inj, hg.getSucc, hg.getFail, ← UInt32.ofNat_add,
    UInt32.toNat_ofNat', Nat.dvd_iff_mod_eq_zero]
  rfl

/-- In any run, as long as hits and misses together are below 2 ^ 32, the hit rate of a domain is that
of the true numbers exactly if a hundred times the hits are below 2 ^ 32, from the first `get` or
`check` after its creation on; it is at most 100 then, and the miss rate does not wrap. A `get` or
`check` divides by 0 exactly if the two together are a multiple of 2 ^ 32. -/
theorem hitrate_exact_iff (h : Run P .start l y) (d : Domid)
    (hg : g = hitCount d ⟨0, 0, true⟩ .start l) :
    (g.rated → g.succ + g.fail < 2 ^ 32 →
      ((y.hits d).hitrate.toNat = 100 * g.succ / (g.succ + g.fail) ↔ 100 * g.succ < 2 ^ 32)) ∧
    (100 * g.succ < 2 ^ 32 → g.succ + g.fail < 2 ^ 32 →
      (y.hits d).hitrate ≤ 100 ∧
        (100 - (y.hits d).hitrate).toNat = 100 - (y.hits d).hitrate.toNat) ∧
    ∀ a r z, a.cmd.countsFor = some d → y.call a = .ok (r, z) →
      ((z.hits d).getSucc + (z.hits d).getFail ≠ 0 ↔
        ¬ 2 ^ 32 ∣ (g.count r.rc).succ + (g.count r.rc).fail) := by
  have hshown : g.Shown (y.hits d) := by
    rw [hg]
    exact run_shown h d
  refine ⟨fun hr hsum => ?_, fun hprod hsum => ?_, fun a r z hcmd hcall => ?_⟩
  · rw [hshown.toNat_hitrate hr]
    exact rate_eq_iff hsum
  · have hle := hshown.hitrate_le hprod hsum
    exact ⟨hle, UInt32.toNat_sub_of_le _ _ hle⟩
  · have hz : z.hits = y.hitsAfter a.cmd r := by
      obtain ⟨_, _, _, -, -, -, hz⟩ := call_returns hcall
      rw [hz]
    have hcreate : ∀ e, a.cmd ≠ .create e := by
      intro e he
      rw [he] at hcmd
      cases hcmd
    have hparam : ∀ mode, a.cmd ≠ .param 25 mode 1 := by
      intro mode he
      rw [he] at hcmd
      cases hcmd
    have hcounted : (z.hits d) = (y.hits d).count r.rc := by
      rw [hz, hitsAfter_of_ne hcreate hparam, hcmd]
      exact Function.update_self ..
    rw [hcounted]
    exact (hshown.count r.rc).divisor_iff

theorem hitCount_append {l' : List (Call × Reply)} (h : Run P y l z) :
    hitCount d g y (l ++ l') = hitCount d (hitCount d g y l) z l' := by
  induction h generalizing g with
  | nil => rfl
  | cons hstep _ ih =>
    rw [List.cons_append, hitCount, hitCount, after_of_call hstep.2]
    exact ih

/-- A `check` that finds its key in the domain's list only counts. -/
theorem check_private {env : Env} {k : GuestKey} {x : McdDomain} {mh : McdHashT}
    (htick : y.mcd.tick = 0) (hm : y.mcd.cacheMode = .partition)
    (hx : findMcdDom d y.mcd = some x)
    (hmh : findMcdHashT (getHash k.bytes) x.hashList = some mh) :
    y.call ⟨env, .check d k⟩ =
      .ok (⟨.retGetMem, some (checkSize (some mh) none), none⟩,
        { y with hits := Function.update y.hits d ((y.hits d).count .retGetMem) }) := by
  have hcheck : Returns (mcdOp (y.ctx env) (.check d k)) y.mcd
      ⟨.retGetMem, some (checkSize (some mh) none), none⟩ y.mcd := by
    simp [mcdOp, mcdSubCall, hm, pMcdCheck, hx, hmh]
  have hdo : Returns (doMcdOp (y.ctx env) (.check d k)) y.mcd
      ⟨.retGetMem, some (checkSize (some mh) none), none⟩ y.mcd := by
    refine returns_bind.mpr ⟨_, _, hcheck, ?_⟩
    simp [updateUsage, findCaller, Cmd.updatesUsage, Cmd.countsFor, hx]
  have hrun : (doMcdOp (y.ctx env) (.check d k)).run y.mcd = .ok (_, y.mcd) := hdo
  have hsame : ({ y.mcd with tick := 0 } : State) = y.mcd := by rw [← htick]
  unfold System.call
  rw [hrun]
  simp only [hsame]
  rfl

/-- Any number of hits can follow one another, if one can. -/
theorem run_hits {a : Call} {r : Reply} (hP : ∀ z, P z a) (hhit : r.rc = .retGetMem)
    (hcmd : a.cmd.countsFor = some d)
    (hcall : ∀ z : System, z.mcd = y.mcd → ∃ hits, z.call a = .ok (r, ⟨y.mcd, hits⟩)) (n : Nat) :
    ∃ z, Run P y (List.replicate n (a, r)) z ∧ ∀ g, hitCount d g y (List.replicate n (a, r)) =
      ⟨g.succ + n, g.fail, g.rated || decide (0 < n)⟩ := by
  have hone : ∀ (z : System) g, a.hitCount d z r g = ⟨g.succ + 1, g.fail, true⟩ := by
    intro z g
    unfold Call.hitCount
    split
    case h_1 e h =>
      rw [h] at hcmd
      cases hcmd
    case h_2 mode h =>
      rw [h] at hcmd
      cases hcmd
    case h_3 =>
      rw [if_pos hcmd, HitCount.count, hhit]
      rfl
  suffices hall : ∀ x : System, x.mcd = y.mcd → ∃ z, Run P x (List.replicate n (a, r)) z ∧
      ∀ g, hitCount d g x (List.replicate n (a, r)) =
        ⟨g.succ + n, g.fail, g.rated || decide (0 < n)⟩ from hall y rfl
  induction n with
  | zero =>
    intro x _
    exact ⟨x, .nil x, fun g => by simp [hitCount]⟩
  | succ n ih =>
    intro x hx
    obtain ⟨hits, hx'⟩ := hcall x hx
    obtain ⟨z, hrun, hcount⟩ := ih ⟨y.mcd, hits⟩ rfl
    refine ⟨z, .cons ⟨hP x, hx'⟩ hrun, fun g => ?_⟩
    rw [List.replicate_succ, hitCount, after_of_call hx', hcount, hone]
    simp only [Bool.true_or, HitCount.mk.injEq, true_and]
    exact ⟨by omega, by simp⟩

end

/-- Domain 1 checks its key again and again. -/
theorem onePrivate_hits (n : Nat) :
    ∃ l y, Run Call.Keeps .start l y ∧
      hitCount 1 ⟨0, 0, true⟩ .start l = ⟨1 + n, 1, decide (0 < n)⟩ := by
  have hruns : System.start.runs Call.Keeps [⟨.calm, .create 1⟩, ⟨.calm, .cacheMode 0 1⟩,
      ⟨.calm, .put 1 (.single 1) (.single 7)⟩] := by decide +kernel
  have hreplies : System.start.replies [⟨.calm, .create 1⟩, ⟨.calm, .cacheMode 0 1⟩,
      ⟨.calm, .put 1 (.single 1) (.single 7)⟩] = some [.code .errNo, .code .errNo,
        ⟨.errNo, some 1, none⟩] := by decide +kernel
  have hcount : hitCount 1 ⟨0, 0, true⟩ .start ([⟨.calm, .create 1⟩, ⟨.calm, .cacheMode 0 1⟩,
      ⟨.calm, .put 1 (.single 1) (.single 7)⟩].zip [.code .errNo, .code .errNo,
        ⟨.errNo, some 1, none⟩]) = ⟨1, 1, false⟩ := by decide +kernel
  have hrun : Run Call.Keeps .start _ System.onePrivate := run_zip_of_runs hruns hreplies
  have htick := run_tick hrun
  have hmode : System.onePrivate.mcd.cacheMode = .partition := by decide +kernel
  have hfind : ((findMcdDom 1 System.onePrivate.mcd).bind fun x =>
      findMcdHashT (getHash (GuestKey.single 1).bytes) x.hashList).isSome := by decide +kernel
  generalize System.onePrivate = y at *
  obtain ⟨mh, hmh⟩ := Option.isSome_iff_exists.mp hfind
  obtain ⟨x, hx, hmh⟩ := Option.bind_eq_some_iff.mp hmh
  have hkeeps : ∀ z, Call.Keeps z ⟨.calm, .check 1 (.single 1)⟩ := fun z => ⟨trivial, not_false⟩
  have hcalls : ∀ z : System, z.mcd = y.mcd → ∃ hits, z.call ⟨.calm, .check 1 (.single 1)⟩ =
      .ok (⟨.retGetMem, some (checkSize (some mh) none), none⟩, ⟨y.mcd, hits⟩) := by
    intro z hz
    rw [← hz] at htick hmode hx ⊢
    exact ⟨_, check_private htick hmode hx hmh⟩
  obtain ⟨z, hhits, hn⟩ := run_hits hkeeps rfl rfl hcalls n
  refine ⟨_, z, hrun.append hhits, ?_⟩
  rw [hitCount_append hrun, hcount, hn]
  simp

/-- With 42949673 hits and one miss the rate is 0 and should be 99; with 2 ^ 32 - 1 hits it is
computed by a division by 0; and the rate of a domain just created, with one hit and one miss, is 0. -/
theorem hitrate_goes_wrong :
    (∃ l y, Run Call.Keeps .start l y ∧
      hitCount 1 ⟨0, 0, true⟩ .start l = ⟨42949673, 1, true⟩ ∧ (y.hits 1).hitrate = 0 ∧
        100 * 42949673 / (42949673 + 1) = 99) ∧
    (∃ l y, Run Call.Keeps .start l y ∧
      hitCount 1 ⟨0, 0, true⟩ .start l = ⟨2 ^ 32 - 1, 1, true⟩ ∧
        (y.hits 1).getSucc + (y.hits 1).getFail = 0) ∧
    ∃ l y, Run Call.Keeps .start l y ∧ hitCount 1 ⟨0, 0, true⟩ .start l = ⟨1, 1, false⟩ ∧
      (y.hits 1).hitrate = 0 ∧ 100 * 1 / (1 + 1) = 50 := by
  refine ⟨?_, ?_, ?_⟩
  · obtain ⟨l, y, hrun, hcount⟩ := onePrivate_hits 42949672
    have hshown := run_shown hrun 1
    have hcount' : hitCount 1 ⟨0, 0, true⟩ .start l = ⟨42949673, 1, true⟩ := hcount
    rw [hcount'] at hshown
    refine ⟨l, y, hrun, hcount', ?_, rfl⟩
    rw [hshown.hitrate, hshown.getSucc, hshown.getFail]
    decide
  · obtain ⟨l, y, hrun, hcount⟩ := onePrivate_hits (2 ^ 32 - 2)
    have hshown := run_shown hrun 1
    have hcount' : hitCount 1 ⟨0, 0, true⟩ .start l = ⟨2 ^ 32 - 1, 1, true⟩ := hcount
    rw [hcount'] at hshown
    refine ⟨l, y, hrun, hcount', ?_⟩
    rw [hshown.getSucc, hshown.getFail]
    decide
  · obtain ⟨l, y, hrun, hcount⟩ := onePrivate_hits 0
    have hshown := run_shown hrun 1
    rw [hcount] at hshown
    exact ⟨l, y, hrun, hcount, hshown.hitrate, rfl⟩

/-- After three hits the rate is 80. -/
theorem hitrate_exact_three :
    ∃ l y, Run Call.Keeps .start l y ∧
      hitCount 1 ⟨0, 0, true⟩ .start l = ⟨4, 1, true⟩ ∧ (y.hits 1).hitrate.toNat = 80 := by
  obtain ⟨l, y, hrun, hcount⟩ := onePrivate_hits 3
  have hcount' : (⟨4, 1, true⟩ : HitCount) = hitCount 1 ⟨0, 0, true⟩ .start l := hcount.symm
  obtain ⟨hexact, -, -⟩ := hitrate_exact_iff hrun 1 hcount'
  exact ⟨l, y, hrun, hcount, (hexact rfl (by decide)).mpr (by decide)⟩

end UniCache.Mcd
