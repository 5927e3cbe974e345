import UniCache.Mcd.Bookings

/-! The access histograms: the cell that an operation counts in, and when it lies in its array. -/
namespace UniCache.Mcd
open Base Base.Exec

inductive Histogram
  | queryTime | reaccessTimeMs | reaccessTime
  deriving DecidableEq

/-- `MAX_QUERY_TIME`, `MAX_REACCESS_TIME_MS` and `MAX_REACCESS_TIME`. -/
def Histogram.length : Histogram → Nat
  | .queryTime => 1000
  | .reaccessTimeMs => 1000
  | .reaccessTime => 600

structure Cell where
  array : Histogram
  index : Nat
  deriving DecidableEq

def Cell.InBounds (x : Cell) : Prop := x.index < x.array.length

instance (x : Cell) : Decidable x.InBounds := inferInstanceAs (Decidable (_ < _))

namespace Histograms

def cell (h : Histograms) (x : Cell) : UInt32 :=
  match x.array with
  | .queryTime => h.queryTime x.index
  | .reaccessTimeMs => h.reaccessTimeMs x.index
  | .reaccessTime => h.reaccessTime x.index

/-- From `h` to `h'` the one cell is incremented, and no other changes. -/
def Counts (h : Histograms) (x : Cell) (h' : Histograms) : Prop :=
  ∀ y, h'.cell y = if y = x then h.cell y + 1 else h.cell y

end Histograms

/-- The cell in which a time difference is counted. -/
def Chart.cell : Chart → Cell
  | .query ns => ⟨.queryTime, if nsToMs ns ≥ 1000 then 999 else (nsToMs ns).toNat⟩
  | .reaccess ns =>
    if nsToSec ns = 0 then
      if nsToMs ns ≥ 1000 then ⟨.reaccessTimeMs, 999⟩ else ⟨.reaccessTime, (nsToMs ns).toNat⟩
    else
      if nsToSec ns ≥ 600 then ⟨.reaccessTime, 599⟩ else ⟨.reaccessTime, (nsToSec ns).toNat⟩

/-- Gaps from 600 ms to a second, also behind full turns of the seconds in 32 bits. -/
def Overruns (gap : Int) : Prop :=
  600000000 ≤ gap % (2 ^ 32 * 1000000000) ∧ gap % (2 ^ 32 * 1000000000) < 1000000000

instance (gap : Int) : Decidable (Overruns gap) := inferInstanceAs (Decidable (_ ∧ _))

theorem countCell_apply (f : Nat → UInt32) (i j : Nat) :
    countCell f i j = if j = i then f j + 1 else f j := by
  unfold countCell
  rw [Function.update_apply]
  by_cases hj : j = i
  · rw [if_pos hj, if_pos hj, hj]
  · rw [if_neg hj, if_neg hj]

/-- An update counts in one cell. -/
theorem counts_note (h : Histograms) (x : Chart) : h.Counts x.cell (h.note x) := by
  rintro ⟨array, j⟩
  cases x with
  | query ns =>
    simp only [Chart.cell, Histograms.note, Histograms.noteQuery]
    split_ifs <;> cases array <;> simp_all [Histograms.cell, countCell_apply]
  | reaccess ns =>
    simp only [Chart.cell, Histograms.note, Histograms.noteReaccess]
    split_ifs <;> cases array <;> simp_all [Histograms.cell, countCell_apply]

theorem query_inBounds (ns : Int) : (Chart.query ns).cell.InBounds := by
  simp only [Chart.cell, Cell.InBounds, Histogram.length, ge_iff_le, UInt32.le_iff_toNat_le]
  split_ifs with hms
  · decide
  · exact Nat.not_le.mp hms

section
variable {gap : Int} (h₀ : 0 ≤ gap) (h₁ : gap < 2 ^ 64)
include h₀ h₁

theorem toNat_ofInt_gap : (UInt64.ofInt gap).toNat = gap.toNat := by
  unfold UInt64.ofInt
  rw [Int.emod_eq_of_lt h₀ h₁, UInt64.toNat_ofNat']
  omega

theorem toNat_nsToMs : (nsToMs gap).toNat = gap.toNat / 1000000 % 2 ^ 32 := by
  rw [nsToMs, UInt64.toNat_toUInt32, UInt64.toNat_div, toNat_ofInt_gap h₀ h₁]
  rfl

theorem toNat_nsToSec : (nsToSec gap).toNat = gap.toNat / 1000000000 % 2 ^ 32 := by
  rw [nsToSec, UInt64.toNat_toUInt32, UInt64.toNat_div, toNat_ofInt_gap h₀ h₁]
  rfl

/-- Where a gap below a second is counted by its milliseconds, the array has 600 cells. -/
theorem reaccess_inBounds_iff : (Chart.reaccess gap).cell.InBounds ↔ ¬ Overruns gap := by
  have hms := toNat_nsToMs h₀ h₁
  have hsec := toNat_nsToSec h₀ h₁
  have hgap : (gap.toNat : Int) = gap := Int.toNat_of_nonneg h₀
  simp only [Chart.cell, Cell.InBounds, Overruns, ge_iff_le, UInt32.le_iff_toNat_le,
    ← UInt32.toNat_inj]
  have hms' : UInt32.toNat 1000 = 1000 := rfl
  have hsec' : UInt32.toNat 600 = 600 := rfl
  have hzero : UInt32.toNat 0 = 0 := rfl
  rw [hms', hsec', hzero]
  split_ifs with hs hm hb
  all_goals simp only [Histogram.length]
  all_goals omega

end

/-! ### The operations -/

section
variable {c : Ctx} {id : Domid} {k : GuestKey} {r : Reply} {s t : State}

theorem Strikes.hist (h : Strikes s t) : t.hist = s.hist := by
  have hkept := h.keeps (f := (·.aside.hist)) fun _ _ _ => rfl
  exact hkept

/-- A `put` that replaces a shared entry counts the entry's age. -/
theorem put_hist {v : GuestVal} {mh : McdHashT} (hm : s.cacheMode = .shared)
    (hf : findMcdHashT (getHash k.bytes) (s.shared (bucketOf (getHash k.bytes))) = some mh)
    (h : Returns (mcdOp c (.put id k v)) s r t) :
    t.hist = s.hist.note (.query (c.now s.tick - mh.putTime)) := by
  rcases mcdSubCall_spec h with ⟨-, h⟩ | ⟨hm', -⟩
  · obtain ⟨ms, u, hrep, hput⟩ := returns_bind.mp h
    have hmode : u.tiers.cfg.cacheMode = .shared :=
      (congrArg (·.cacheMode) (sMcdReplace_spec hrep).1.cfg_eq).trans hm
    have hu : u.hist = s.hist.note (.query (c.now s.tick - mh.putTime)) := by
      rcases sMcdReplace_books hrep with ⟨mh', hf', -, hbooks⟩ | ⟨hf', -, -⟩
      · rw [hf] at hf'
        cases hf'
        exact congrArg (·.aside.hist) hbooks
      · rw [hf] at hf'
        cases hf'
    rcases putEntry_booked (for_bucket hmode _ id) hput with ⟨-, hst⟩ | ⟨-, w, mh', hst, -, -, -, -, ht⟩
    · rw [hst.hist, hu]
    · have hrecord : t.hist = w.hist := congrArg (·.aside.hist) ht
      rw [hrecord, hst.hist, hu]
  · rw [hm] at hm'
    cases hm'

/-- The gap that a `get` in shared mode measures: of an entry in memory, or of one that it loads. -/
inductive Finds (c : Ctx) (s : State) (k : GuestKey) : Int → Prop
  | inMemory {mh : McdHashT}
      (found : findMcdHashT (getHash k.bytes) (s.shared (bucketOf (getHash k.bytes))) = some mh) :
      Finds c s k (c.now s.tick - mh.putTime)
  | onSsd {mch : McdctlHashT} {mh : McdHashT} {u : State}
      (missed : findMcdHashT (getHash k.bytes) (s.shared (bucketOf (getHash k.bytes))) = none)
      (header : (s.headers (.bucket (bucketOf (getHash k.bytes)))).find? (·.hash = getHash k.bytes) =
        some mch)
      (loaded : Returns (mcdPageIn c (.bucket (bucketOf (getHash k.bytes))) mch) s (some mh) u) :
      Finds c s k (c.now u.tick - mh.putTime)

theorem deliver_hist {i : Bucket} {mh : McdHashT} {cap : UInt32} {rc : Rc}
    (h : Returns (do noteAccess c mh; deliver c (.bucket i) mh cap rc) s r t) :
    t.hist = s.hist.note (.reaccess (c.now s.tick - mh.putTime)) := by
  obtain ⟨_, u, hacc, h⟩ := returns_bind.mp h
  have hu : u.Has (.bucket i) := trivial
  have htouch : t.hist = u.hist := congrArg (·.aside.hist) (deliver_books hu h)
  rw [htouch]
  exact congrArg (·.aside.hist) (noteAccess_books hacc)

theorem get_hist {cap : UInt32} {gap : Int} (hm : s.cacheMode = .shared) (hf : Finds c s k gap)
    (h : Returns (mcdOp c (.get id k cap)) s r t) : t.hist = s.hist.note (.reaccess gap) := by
  rcases mcdSubCall_spec h with ⟨-, h⟩ | ⟨hm', -⟩
  · simp only [sMcdGet, returns_bind, returns_get, and_assoc, exists_and_left, exists_eq_left] at h
    cases hf with
    | inMemory found =>
      have hfound : findMcdHashT (getHash k.bytes)
        (s.entries (.bucket (bucketOf (getHash k.bytes)))) = some _ := found
      rw [hfound] at h
      exact deliver_hist h
    | @onSsd mch mh u missed header loaded =>
      have hmissed : findMcdHashT (getHash k.bytes)
        (s.entries (.bucket (bucketOf (getHash k.bytes)))) = none := missed
      rw [hmissed] at h
      simp only [returns_bind, returns_findMcdctlHashT, and_assoc, exists_and_left,
        exists_eq_left] at h
      obtain ⟨-, h⟩ := h
      rw [header] at h
      obtain ⟨o, s₁, hpage, h⟩ := returns_bind.mp h
      obtain ⟨rfl, rfl⟩ := returns_unique hpage loaded
      have hu : s₁.hist = s.hist := by
        rcases mcdPageIn_booked hpage with ⟨ho, -⟩ | ⟨_, w, -, hst, -, -, -, hbooks⟩
        · cases ho
        · have hcharge : s₁.hist = w.hist := congrArg (·.aside.hist) hbooks
          rw [hcharge, hst.hist]
      obtain ⟨_, s₂, hlink, h⟩ := returns_bind.mp h
      rw [returns_modify.mp hlink] at h
      have hdeliver := deliver_hist h
      rw [← hu]
      exact hdeliver
  · rw [hm] at hm'
    cases hm'

/-- In shared mode a `put` that replaces an entry counts in one cell, of `query_time`, and a `get` that
finds one counts in one cell. The first lies in its array; the second does unless the gap is a part
of a second from 600 ms on. -/
theorem histogram_in_bounds_iff (hm : s.cacheMode = .shared) :
    (∀ v mh, findMcdHashT (getHash k.bytes) (s.shared (bucketOf (getHash k.bytes))) = some mh →
      Returns (mcdOp c (.put id k v)) s r t →
      ∃ x, s.hist.Counts x t.hist ∧ x.array = .queryTime ∧ x.InBounds) ∧
    ∀ cap gap, Finds c s k gap → 0 ≤ gap → gap < 2 ^ 64 → Returns (mcdOp c (.get id k cap)) s r t →
      ∃ x, s.hist.Counts x t.hist ∧ (x.InBounds ↔ ¬ Overruns gap) := by
  constructor
  · intro v mh hf h
    refine ⟨(Chart.query (c.now s.tick - mh.putTime)).cell, ?_, rfl, query_inBounds _⟩
    rw [put_hist hm hf h]
    exact counts_note s.hist _
  · intro cap gap hf h₀ h₁ h
    refine ⟨(Chart.reaccess gap).cell, ?_, reaccess_inBounds_iff h₀ h₁⟩
    rw [get_hist hm hf h]
    exact counts_note s.hist _

end

/-- One shared entry, put when the clock is at 0. -/
def System.oneTimed : System :=
  System.start.after [⟨.calm, .create 1⟩, ⟨.clock 0, .put 1 (.single 1) (.single 7)⟩]

theorem oneTimed_entry : System.oneTimed.mcd.cacheMode = .shared ∧
    ∃ mh, findMcdHashT (getHash (GuestKey.single 1).bytes) (System.oneTimed.mcd.shared
      (bucketOf (getHash (GuestKey.single 1).bytes))) = some mh ∧ mh.putTime = 0 := by
  obtain ⟨hmode, hfind⟩ : System.oneTimed.mcd.cacheMode = .shared ∧
      (findMcdHashT (getHash (GuestKey.single 1).bytes) (System.oneTimed.mcd.shared
        (bucketOf (getHash (GuestKey.single 1).bytes)))).map (·.putTime) = some 0 := by
    decide +kernel
  exact ⟨hmode, Option.map_eq_some_iff.mp hfind⟩

/-- After 300 ms the entry is read, then replaced. -/
theorem histogram_in_bounds_oneTimed :
    (∃ r t x, Returns (mcdOp (System.oneTimed.ctx (.clock 300000000)) (.get 1 (.single 1) 1))
      System.oneTimed.mcd r t ∧ System.oneTimed.mcd.hist.Counts x t.hist ∧ x.InBounds) ∧
    ∃ r t x, Returns (mcdOp (System.oneTimed.ctx (.clock 300000000)) (.put 1 (.single 1) (.single 8)))
      System.oneTimed.mcd r t ∧ System.oneTimed.mcd.hist.Counts x t.hist ∧ x.InBounds := by
  obtain ⟨hget, hput⟩ :
      (System.oneTimed.replies [⟨.clock 300000000, .get 1 (.single 1) 1⟩]).isSome ∧
      (System.oneTimed.replies [⟨.clock 300000000, .put 1 (.single 1) (.single 8)⟩]).isSome := by
    decide +kernel
  obtain ⟨hmode, mh, hf, htime⟩ := oneTimed_entry
  generalize System.oneTimed = y at *
  constructor
  · obtain ⟨r, hcall⟩ := call_after hget
    obtain ⟨t, hop, -⟩ := call_books hcall
    have hgap : Finds (y.ctx (.clock 300000000)) y.mcd (.single 1) 300000000 := by
      have hfinds := Finds.inMemory (c := y.ctx (.clock 300000000)) hf
      rw [htime] at hfinds
      exact hfinds
    obtain ⟨x, hcount, hin⟩ :=
      (histogram_in_bounds_iff hmode).2 1 300000000 hgap (by decide) (by decide) hop
    exact ⟨r, t, x, hop, hcount, hin.mpr (by decide)⟩
  · obtain ⟨r, hcall⟩ := call_after hput
    obtain ⟨t, hop, -⟩ := call_books hcall
    obtain ⟨x, hcount, -, hin⟩ := (histogram_in_bounds_iff hmode).1 (.single 8) mh hf hop
    exact ⟨r, t, x, hop, hcount, hin⟩

/-- An entry read after 700 ms is counted 100 cells behind the end of `reaccess_time`. -/
theorem get_counts_past_the_end :
    (∃ l, Run Call.Keeps .start l System.oneTimed) ∧
      ∃ r z, System.oneTimed.call ⟨.clock 700000000, .get 1 (.single 1) 1⟩ = .ok (r, z) ∧
        System.oneTimed.mcd.hist.Counts ⟨.reaccessTime, 700⟩ z.mcd.hist ∧
        ¬ (⟨.reaccessTime, 700⟩ : Cell).InBounds := by
  have hruns : System.start.runs Call.Keeps
      [⟨.calm, .create 1⟩, ⟨.clock 0, .put 1 (.single 1) (.single 7)⟩] := by decide +kernel
  obtain ⟨l, -, hrun⟩ := run_of_runs hruns
  refine ⟨⟨l, hrun⟩, ?_⟩
  have hget : (System.oneTimed.replies [⟨.clock 700000000, .get 1 (.single 1) 1⟩]).isSome := by
    decide +kernel
  obtain ⟨hmode, mh, hf, htime⟩ := oneTimed_entry
  generalize System.oneTimed = y at *
  obtain ⟨r, hcall⟩ := call_after hget
  obtain ⟨t, hop, hz⟩ := call_books hcall
  refine ⟨r, _, hcall, ?_, by decide⟩
  have hhist : (y.after [⟨.clock 700000000, .get 1 (.single 1) 1⟩]).mcd.hist = t.hist :=
    congrArg (·.aside.hist) hz
  rw [hhist, get_hist hmode (.inMemory hf) hop, htime]
  have hcount := counts_note y.mcd.hist (.reaccess 700000000)
  exact hcount

end UniCache.Mcd
