import UniCache.Mcd.Bookings

/-! The average recovery cost of a domain, against the query times that its `put`s record. -/
namespace UniCache.Mcd
open Base Base.Exec

/-- Between the smallest and the largest of a list. -/
def Between (x : UInt32) (l : List UInt32) : Prop := (∃ a ∈ l, a ≤ x) ∧ ∃ b ∈ l, x ≤ b

instance (x : UInt32) (l : List UInt32) : Decidable (Between x l) :=
  inferInstanceAs (Decidable (_ ∧ _))

namespace KeyStat

/-- Wrapping only lowers the average. -/
theorem noteCost_le {k : KeyStat} {ms m : UInt32} (havg : k.recCostAvg ≤ m) (hms : ms ≤ m) :
    (k.noteCost ms).recCostAvg ≤ m := by
  simp only [noteCost, UInt32.le_iff_toNat_le, UInt32.toNat_div, UInt32.toNat_add,
    UInt32.toNat_mul] at *
  generalize k.recCostAvg.toNat = avg at *
  have hn := k.nrKeys.toNat_lt
  generalize k.nrKeys.toNat = n at *
  generalize ms.toNat = q at *
  have hone : UInt32.toNat 1 = 1 := rfl
  rw [hone]
  have hprod : avg * n ≤ m.toNat * n := Nat.mul_le_mul_right n havg
  have hsum : (avg * n % 2 ^ 32 + q) % 2 ^ 32 ≤ m.toNat * n + m.toNat :=
    calc (avg * n % 2 ^ 32 + q) % 2 ^ 32 ≤ avg * n % 2 ^ 32 + q := Nat.mod_le _ _
      _ ≤ avg * n + q := Nat.add_le_add_right (Nat.mod_le _ _) q
      _ ≤ m.toNat * n + m.toNat := Nat.add_le_add hprod hms
  by_cases hfit : n + 1 < 2 ^ 32
  · rw [Nat.mod_eq_of_lt hfit]
    apply Nat.div_le_of_le_mul
    rw [Nat.add_mul, Nat.mul_comm n, Nat.one_mul]
    exact hsum
  · have hwrap : (n + 1) % 2 ^ 32 = 0 := by omega
    rw [hwrap, Nat.div_zero]
    exact Nat.zero_le _

/-- The first time recorded is divided by two or more. -/
theorem noteCost_first {k : KeyStat} {ms : UInt32} (havg : k.recCostAvg = 0)
    (hn : 2 ≤ (k.noteCost ms).nrKeys) : ms ≤ (k.noteCost ms).recCostAvg ↔ ms = 0 := by
  have hval : (k.noteCost ms).recCostAvg = ms / (k.noteCost ms).nrKeys := by
    simp [noteCost, havg]
  rw [hval, UInt32.le_iff_toNat_le, UInt32.toNat_div, ← UInt32.toNat_inj]
  rw [UInt32.le_iff_toNat_le] at hn
  have hzero : UInt32.toNat 0 = 0 := rfl
  rw [hzero]
  constructor
  · intro hle
    by_contra hne
    have hlt := Nat.div_lt_self (Nat.pos_of_ne_zero hne) hn
    omega
  · intro hz
    rw [hz]
    exact Nat.zero_le _

end KeyStat

/-! ### Bookings -/

/-- A domain that has recorded nothing has the average 0; otherwise the average is not above all of
what it has recorded. -/
def Books.Costed (R : Domid → List UInt32) (b : Books) : Prop :=
  ∀ d k, b.aside.stats d = some k →
    (R d = [] → k.recCostAvg = 0) ∧ (R d ≠ [] → ∃ q ∈ R d, k.recCostAvg ≤ q)

section
variable {b : Books} {R : Domid → List UInt32} {d : Domid}

/-- Plain bookings leave averages alone. -/
theorem Books.Costed.plain {e : Booking} (hb : b.Costed R) (he : e.Plain) : (b.book e).Costed R := by
  have hstat : ∀ {x : Domid} {f : KeyStat → KeyStat}, (∀ k, (f k).recCostAvg = k.recCostAvg) →
      ∀ {b' : Books}, b'.aside.stats = (b.aside.setStat x f).stats → b'.Costed R := by
    intro x f hf b' heq d k hk
    rw [heq] at hk
    obtain ⟨k₀, hk₀, rfl⟩ := stats_setStat hk
    have hsame : (if d = x then f k₀ else k₀).recCostAvg = k₀.recCostAvg := by
      by_cases hd : d = x
      · rw [if_pos hd, hf]
      · rw [if_neg hd]
    rw [hsame]
    exact hb d k₀ hk₀
  cases e with
  | strike loc mh => exact hstat (f := .lose) (fun _ => rfl) rfl
  | enter loc mh => exact hstat (f := .gain) (fun _ => rfl) rfl
  | touch | chart | tune => exact hb
  | record | weigh | enrol | retire => exact he.elim

theorem Plainly.costed {P : Prop} {s t : State} (h : Plainly P s t) (hs : s.books.Costed R) :
    t.books.Costed R :=
  h.invariant (fun hplain _ _ hb => hb.plain hplain) hs

/-- The record of the domain that makes a `put`, before and after. -/
theorem stats_record {loc : Loc} {mh : McdHashT} {k : KeyStat}
    (h : (b.book (.record loc mh)).aside.stats d = some k) :
    ∃ k₀, b.aside.stats d = some k₀ ∧
      k = if d = mh.domain then k₀.gain.noteCost mh.queryTimeMs else k₀ := by
  have hstat := congrArg Aside.stats
    (setStat_setStat b.aside mh.domain .gain (.noteCost mh.queryTimeMs))
  have hk : (b.aside.setStat mh.domain (KeyStat.noteCost mh.queryTimeMs ∘ KeyStat.gain)).stats d =
      some k := by
    rw [← hstat]
    exact h
  exact stats_setStat hk

/-- What a domain has recorded bounds its average, and the next time recorded bounds the next. -/
theorem Books.Costed.exists_le {ms : UInt32} {k : KeyStat} (hb : b.Costed R)
    (hk : b.aside.stats d = some k) :
    ∃ q ∈ R d ++ [ms], (k.gain.noteCost ms).recCostAvg ≤ q := by
  obtain ⟨hnone, hsome⟩ := hb d k hk
  by_cases hR : R d = []
  · refine ⟨ms, by simp, KeyStat.noteCost_le ?_ UInt32.le_rfl⟩
    show k.recCostAvg ≤ ms
    rw [hnone hR]
    exact UInt32.zero_le
  · obtain ⟨q, hq, hle⟩ := hsome hR
    rcases UInt32.le_total ms q with hms | hms
    · exact ⟨q, List.mem_append_left _ hq, KeyStat.noteCost_le hle hms⟩
    · refine ⟨ms, by simp, KeyStat.noteCost_le ?_ UInt32.le_rfl⟩
      exact UInt32.le_trans hle hms

theorem Books.Costed.record {loc : Loc} {mh : McdHashT} (hb : b.Costed R)
    {R' : Domid → List UInt32} (hself : R' mh.domain = R mh.domain ++ [mh.queryTimeMs])
    (hother : ∀ d, d ≠ mh.domain → R' d = R d) : (b.book (.record loc mh)).Costed R' := by
  intro d k hk
  obtain ⟨k₀, hk₀, rfl⟩ := stats_record hk
  by_cases hd : d = mh.domain
  · subst hd
    rw [if_pos rfl, hself]
    exact ⟨fun hnil => by simp at hnil, fun _ => hb.exists_le hk₀⟩
  · rw [if_neg hd, hother d hd]
    exact hb d k₀ hk₀

theorem Books.Costed.enrol {R' : Domid → List UInt32} (hb : b.Costed R) (hself : R' d = [])
    (hother : ∀ e, e ≠ d → R' e = R e) (shares : Shares Domid) :
    (b.book (.enrol d shares)).Costed R' := by
  intro e k hk
  by_cases he : e = d
  · subst he
    have hnew : (b.book (.enrol e shares)).aside.stats e = some ⟨0, 0⟩ := Function.update_self ..
    rw [hnew] at hk
    cases hk
    exact ⟨fun _ => rfl, fun hne => absurd hself hne⟩
  · have hold : (b.book (.enrol d shares)).aside.stats e = b.aside.stats e :=
      Function.update_of_ne he ..
    rw [hold] at hk
    rw [hother e he]
    exact hb e k hk

theorem Books.Costed.retire (hb : b.Costed R) (shares : Shares Domid) :
    (b.book (.retire d shares)).Costed R := by
  intro e k hk
  by_cases he : e = d
  · subst he
    have hnone : (b.book (.retire e shares)).aside.stats e = none := Function.update_self ..
    rw [hnone] at hk
    cases hk
  · have hold : (b.book (.retire d shares)).aside.stats e = b.aside.stats e :=
      Function.update_of_ne he ..
    rw [hold] at hk
    exact hb e k hk

end

/-! ### Runs -/

/-- What domain `d` has recorded after a call; a domain just created has recorded nothing. -/
def Call.records (d : Domid) (y : System) (a : Call) (r : Reply) (R : List UInt32) : List UInt32 :=
  match a.cmd with
  | .put e k _ => if e = d ∧ r.rc = .errNo then R ++ [y.mcd.queryTime (y.ctx a.env) e k] else R
  | .create e => if e = d ∧ r.rc = .errNo then [] else R
  | _ => R

/-- The query times that domain `d` records in a run from `y`, after those of `R`. -/
def recorded (d : Domid) (R : List UInt32) (y : System) : List (Call × Reply) → List UInt32
  | [] => R
  | x :: l => recorded d (x.1.records d y x.2 R) (y.after [x.1]) l

section
variable {y z : System} {a : Call} {r : Reply} {l : List (Call × Reply)} {R : Domid → List UInt32}

theorem records_of_not_closing {R : List UInt32} (h : ¬ a.cmd.Closing r) (d : Domid) :
    a.records d y r R = R := by
  unfold Call.records
  cases hcmd : a.cmd with
  | put e k v =>
    rw [hcmd] at h
    exact if_neg fun hput => h hput.2
  | create e =>
    rw [hcmd] at h
    exact if_neg fun hcreate => h hcreate.2
  | _ => rfl

theorem call_costed (hc : y.mcd.tiers.Counted) (hy : y.mcd.books.Costed R)
    (hfresh : a.cmd.Fresh y.mcd) (h : y.call a = .ok (r, z)) :
    z.mcd.books.Costed fun d => a.records d y r (R d) := by
  rcases call_booked hc.live hfresh h with ⟨hnot, hp⟩ | ⟨u, e, hp, hallow, hclose, hz⟩
  · simp only [records_of_not_closing hnot]
    exact hp.costed hy
  · have hu := hp.costed hy
    rw [hz]
    generalize hcmd : a.cmd = cmd at hclose
    cases hclose with
    | @put id k v mh stored domain queryTimeMs valSize =>
      have hself : a.records id y r (R id) = R id ++ [mh.queryTimeMs] := by
        simp [Call.records, hcmd, stored, queryTimeMs]
      refine hu.record (by rw [domain]; exact hself) fun d hd => ?_
      have hne : ¬ id = d := fun h => hd (by rw [domain, h])
      simp [Call.records, hcmd, hne]
    | weight shares =>
      have hsame : ∀ d, a.records d y r (R d) = R d := by simp [Call.records, hcmd]
      simp only [hsame]
      exact hu
    | @create id created shares =>
      refine hu.enrol (by simp [Call.records, hcmd, created]) (fun d hd => ?_) shares
      have hne : ¬ id = d := fun h => hd h.symm
      simp [Call.records, hcmd, hne]
    | destroy shares =>
      have hsame : ∀ d, a.records d y r (R d) = R d := by simp [Call.records, hcmd]
      simp only [hsame]
      exact hu.retire shares

theorem run_costed_of (h : Run Call.Fresh y l z) (hc : y.mcd.tiers.Counted)
    (hy : y.mcd.books.Costed R) : z.mcd.books.Costed fun d => recorded d (R d) y l := by
  induction h generalizing R with
  | nil => exact hy
  | @cons y y' z x l hstep _ ih =>
    have hafter := after_of_call hstep.2
    simp only [recorded, hafter]
    exact ih (call_counted hc hstep.1 hstep.2) (call_costed hc hy hstep.1 hstep.2)

theorem costed_start : System.start.mcd.books.Costed fun _ => [] := by
  intro d k hk
  simp [State.books, State.aside, findMcdDom, System.start, mcdStart] at hk

theorem run_costed (h : Run Call.Fresh .start l y) :
    y.mcd.books.Costed fun d => recorded d [] .start l :=
  run_costed_of h counted_start costed_start

/-- A `put` that succeeds counts its key and then notes its query time. -/
theorem put_keyStat {env : Env} {d : Domid} {k : GuestKey} {v : GuestVal}
    (hc : y.mcd.tiers.Counted) (hy : y.mcd.books.Costed R)
    (hput : y.call ⟨env, .put d k v⟩ = .ok (r, z)) (hstored : r.rc = .errNo) :
    ∃ (b : Books) (x : McdDomain) (k₀ : KeyStat), b.Costed R ∧ b.aside.stats d = some k₀ ∧
      findMcdDom d z.mcd = some x ∧
      x.keyStat = k₀.gain.noteCost (y.mcd.queryTime (y.ctx env) d k) := by
  have hfresh : (Cmd.put d k v).Fresh y.mcd := trivial
  rcases call_booked hc.live hfresh hput with ⟨hnot, -⟩ | ⟨u, e, hp, hallow, hclose, hz⟩
  · exact absurd hstored hnot
  · cases hclose with
    | @put _ _ _ mh stored domain queryTimeMs valSize =>
      obtain ⟨x, hx⟩ : ∃ x, findMcdDom d z.mcd = some x := by
        rw [← Option.isSome_iff_exists, ← isSome_stats]
        have haside : z.mcd.aside = (u.books.book (.record (y.mcd.home d k) mh)).aside :=
          congrArg Books.aside hz
        rw [haside]
        show (((u.books.aside.setStat _ _).setStat _ _).stats d).isSome
        rw [isSome_setStat, isSome_setStat, ← domain]
        exact hallow.2
      have hstat : (u.books.book (.record (y.mcd.home d k) mh)).aside.stats d = some x.keyStat := by
        rw [← hz]
        show (findMcdDom d z.mcd).map _ = _
        rw [hx]
        rfl
      obtain ⟨k₀, hk₀, hk⟩ := stats_record hstat
      rw [if_pos domain.symm, queryTimeMs] at hk
      exact ⟨u.books, x, k₀, hp.costed hy, hk₀, hx, hk⟩

/-- After a `put` in any run, the average of the domain is not above all of the query times that it has
recorded; it lies between them if one of them is 0. After the first `put` of a domain it lies between
them only then, as long as its key count has not wrapped. -/
theorem recCostAvg_between_iff {env : Env} {d : Domid} {k : GuestKey} {v : GuestVal}
    {R : List UInt32} (h : Run Call.Fresh .start l y) (hput : y.call ⟨env, .put d k v⟩ = .ok (r, z))
    (hstored : r.rc = .errNo)
    (hR : R = recorded d [] .start l ++ [y.mcd.queryTime (y.ctx env) d k]) :
    ∃ x, findMcdDom d z.mcd = some x ∧ (∃ q ∈ R, x.recCostAvg ≤ q) ∧
      (0 ∈ R → Between x.recCostAvg R) ∧
      (R.length = 1 → 2 ≤ x.nrKeys → (Between x.recCostAvg R ↔ 0 ∈ R)) := by
  obtain ⟨b, x, k₀, hb, hk₀, hx, hk⟩ := put_keyStat (run_counted h) (run_costed h) hput hstored
  have havg : x.recCostAvg = (k₀.gain.noteCost (y.mcd.queryTime (y.ctx env) d k)).recCostAvg :=
    congrArg KeyStat.recCostAvg hk
  have hkeys : x.nrKeys = (k₀.gain.noteCost (y.mcd.queryTime (y.ctx env) d k)).nrKeys :=
    congrArg KeyStat.nrKeys hk
  have hupper : ∃ q ∈ R, x.recCostAvg ≤ q := by
    rw [havg, hR]
    exact hb.exists_le hk₀
  refine ⟨x, hx, hupper, fun hzero => ⟨⟨0, hzero, UInt32.zero_le⟩, hupper⟩, ?_⟩
  intro hone hn
  have hnil : recorded d [] .start l = [] := by
    rw [hR, List.length_append, List.length_singleton] at hone
    exact List.length_eq_zero_iff.mp (by omega)
  rw [hnil, List.nil_append] at hR
  rw [hkeys] at hn
  have hfirst := KeyStat.noteCost_first (k := k₀.gain) ((hb d k₀ hk₀).1 hnil) hn
  rw [hR, List.mem_singleton, eq_comm, ← hfirst, ← havg]
  constructor
  · rintro ⟨⟨q, hq, hle⟩, -⟩
    rw [List.mem_singleton.mp hq] at hle
    exact hle
  · intro hle
    rw [hR] at hupper
    exact ⟨⟨_, List.mem_singleton_self _, hle⟩, hupper⟩

end

/-- Two domains in shared mode; the first has put a key. -/
def twoSharingCalls : List Call :=
  [⟨.calm, .create 1⟩, ⟨.calm, .create 2⟩, ⟨.clock 0, .put 1 (.single 1) (.single 7)⟩]

def twoSharingReplies : List Reply :=
  [.code .errNo, .code .errNo, { rc := .errNo, rValSize := some 1, val := none }]

def System.twoSharing : System := System.start.after twoSharingCalls

theorem twoSharing_run :
    Run Call.Fresh .start (twoSharingCalls.zip twoSharingReplies) System.twoSharing := by
  obtain ⟨hreplies, hruns⟩ : System.start.replies twoSharingCalls = some twoSharingReplies ∧
      System.start.runs Call.Fresh twoSharingCalls := by decide +kernel
  exact run_zip_of_runs hruns hreplies

/-- Domain 1 puts its key again after 10 ms: it has recorded 0 and 10, and its average is 3. -/
theorem recCostAvg_between_twoSharing :
    (∃ l r z, Run Call.Fresh .start l System.twoSharing ∧
      System.twoSharing.call ⟨.clock 10000000, .put 1 (.single 1) (.single 8)⟩ = .ok (r, z) ∧
      ∃ x, findMcdDom 1 z.mcd = some x ∧ Between x.recCostAvg [0, 10]) ∧
    (System.twoSharing.after [⟨.clock 10000000, .put 1 (.single 1) (.single 8)⟩]).mcd.domains.map
      (fun x => (x.domid, x.recCostAvg)) = [(1, 3), (2, 0)] := by
  have hrun := twoSharing_run
  obtain ⟨hrecorded, hms, hreply, havgs⟩ :
      recorded 1 [] .start (twoSharingCalls.zip twoSharingReplies) = [0] ∧
      System.twoSharing.mcd.queryTime (System.twoSharing.ctx (.clock 10000000)) 1 (.single 1) = 10 ∧
      System.twoSharing.replies [⟨.clock 10000000, .put 1 (.single 1) (.single 8)⟩] =
        some [{ rc := .errNo, rValSize := some 1, val := none }] ∧
      (System.twoSharing.after
        [⟨.clock 10000000, .put 1 (.single 1) (.single 8)⟩]).mcd.domains.map
        (fun x => (x.domid, x.recCostAvg)) = [(1, 3), (2, 0)] := by decide +kernel
  generalize System.twoSharing = y at *
  have hcall := call_reply hreply
  have hR : [0, 10] = recorded 1 [] .start (twoSharingCalls.zip twoSharingReplies) ++
      [y.mcd.queryTime (y.ctx (.clock 10000000)) 1 (.single 1)] := by
    rw [hrecorded, hms]
    rfl
  obtain ⟨x, hx, -, hbetween, -⟩ := recCostAvg_between_iff hrun hcall rfl hR
  exact ⟨⟨_, _, _, hrun, hcall, x, hx, hbetween (by decide)⟩, havgs⟩

/-- Domain 2 puts the key that domain 1 has put 10 ms before. It has recorded the time 10, and its
average is 5. -/
theorem first_put_halves_its_cost :
    ∃ l r z, Run Call.Keeps .start l System.twoSharing ∧ recorded 2 [] .start l = [] ∧
      System.twoSharing.call ⟨.clock 10000000, .put 2 (.single 1) (.single 8)⟩ = .ok (r, z) ∧
      r.rc = .errNo ∧ z.mcd.domains.map (fun x => (x.domid, x.recCostAvg)) = [(1, 0), (2, 5)] ∧
      System.twoSharing.mcd.queryTime (System.twoSharing.ctx (.clock 10000000)) 2 (.single 1) = 10 ∧
      ¬ Between 5 [10] := by
  obtain ⟨hreplies, hruns, hnone⟩ : System.start.replies twoSharingCalls = some twoSharingReplies ∧
      System.start.runs Call.Keeps twoSharingCalls ∧
      recorded 2 [] .start (twoSharingCalls.zip twoSharingReplies) = [] := by decide +kernel
  have hrun : Run Call.Keeps .start _ System.twoSharing := run_zip_of_runs hruns hreplies
  have hreply : System.twoSharing.replies [⟨.clock 10000000, .put 2 (.single 1) (.single 8)⟩] =
      some [{ rc := .errNo, rValSize := some 1, val := none }] := by decide +kernel
  exact ⟨_, _, _, hrun, hnone, call_reply hreply, rfl, by decide +kernel⟩

end UniCache.Mcd
