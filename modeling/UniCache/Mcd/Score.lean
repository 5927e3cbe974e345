import UniCache.Mcd.Bookings

/-! The score of an entry: its normalised factors, and when they are normalised. -/
namespace UniCache.Mcd
open Base Base.Exec

/-- `put_time*10/now` in signed 64 bits. -/
def locFactor (now : Int) (mh : McdHashT) : Int := ((mh.putTime * 10).bmod (2 ^ 64)).tdiv now

def qurFactor (sd : ScoreParam) (mh : McdHashT) : UInt32 := 10 - mh.queryTimeMs * 10 / sd.queryMax

def valFactor (sd : ScoreParam) (mh : McdHashT) : UInt32 := mh.valSize * 10 / sd.valMax

/-- No product and no difference wraps, the factors lie between 0 and 10, and the score is 0 or 1. -/
structure Normalised (sd : ScoreParam) (now : Int) (mh : McdHashT) : Prop where
  putTime : (mh.putTime * 10).bmod (2 ^ 64) = mh.putTime * 10
  loc : 0 ≤ locFactor now mh ∧ locFactor now mh ≤ 10
  queryTimeMs : (mh.queryTimeMs * 10).toNat = mh.queryTimeMs.toNat * 10
  quotient : mh.queryTimeMs * 10 / sd.queryMax ≤ 10
  qur : qurFactor sd mh ≤ 10
  valSize : (mh.valSize * 10).toNat = mh.valSize.toNat * 10
  val : valFactor sd mh ≤ 10
  weights : sd.alpha.toNat + sd.beta.toNat + (100 - sd.alpha - sd.beta).toNat = 100
  qurTerm : (sd.beta * qurFactor sd mh).toNat = sd.beta.toNat * (qurFactor sd mh).toNat
  valTerm : ((100 - sd.alpha - sd.beta) * valFactor sd mh).toNat =
    (100 - sd.alpha - sd.beta).toNat * (valFactor sd mh).toNat
  score : score sd now mh ≤ 1

section
variable {sd : ScoreParam} {now : Int} {mh : McdHashT}

/-- The score by its factors. -/
theorem score_eq (h : (mh.putTime * 10).bmod (2 ^ 64) = mh.putTime * 10) :
    score sd now mh = UInt32.ofInt ((sd.alpha.toNat * locFactor now mh +
      (sd.beta * qurFactor sd mh).toNat +
      ((100 - sd.alpha - sd.beta) * valFactor sd mh).toNat).tdiv 1000) := by
  unfold locFactor
  rw [h]
  rfl

theorem bmod_eq_iff (h : 0 < mh.putTime) :
    (mh.putTime * 10).bmod (2 ^ 64) = mh.putTime * 10 ↔ mh.putTime * 10 < 2 ^ 63 := by
  rw [Int.bmod_def]
  split_ifs <;> omega

theorem locFactor_le (h₀ : 0 < mh.putTime) (hnow : mh.putTime ≤ now)
    (h : (mh.putTime * 10).bmod (2 ^ 64) = mh.putTime * 10) :
    0 ≤ locFactor now mh ∧ locFactor now mh ≤ 10 := by
  have hpos : 0 < now := by omega
  unfold locFactor
  rw [h, Int.tdiv_eq_ediv_of_nonneg (by omega)]
  constructor
  · exact Int.ediv_nonneg (by omega) (by omega)
  · apply Int.ediv_le_of_le_mul hpos
    omega

theorem toNat_mul_ten (x : UInt32) : (x * 10).toNat = x.toNat * 10 ↔ x.toNat * 10 < 2 ^ 32 := by
  have hten : UInt32.toNat 10 = 10 := rfl
  rw [UInt32.toNat_mul, hten]
  omega

/-- A product that wraps only lowers the quotient. -/
theorem quotient_le (h : mh.queryTimeMs ≤ sd.queryMax) : mh.queryTimeMs * 10 / sd.queryMax ≤ 10 := by
  have hten : UInt32.toNat 10 = 10 := rfl
  simp only [UInt32.le_iff_toNat_le, UInt32.toNat_div, UInt32.toNat_mul, hten] at *
  apply Nat.div_le_of_le_mul
  have hle : mh.queryTimeMs.toNat * 10 % 2 ^ 32 ≤ mh.queryTimeMs.toNat * 10 := Nat.mod_le _ _
  omega

theorem qurFactor_le (h : mh.queryTimeMs ≤ sd.queryMax) : qurFactor sd mh ≤ 10 := by
  have hq := quotient_le h
  unfold qurFactor
  rw [UInt32.le_iff_toNat_le, UInt32.toNat_sub_of_le _ _ hq]
  exact Nat.sub_le _ _

theorem toNat_weights (h : sd.alpha.toNat + sd.beta.toNat ≤ 100) :
    sd.alpha.toNat + sd.beta.toNat + (100 - sd.alpha - sd.beta).toNat = 100 := by
  have hhundred : UInt32.toNat 100 = 100 := rfl
  have ha : sd.alpha ≤ 100 := by
    rw [UInt32.le_iff_toNat_le, hhundred]
    omega
  have hsub : (100 - sd.alpha).toNat = 100 - sd.alpha.toNat := UInt32.toNat_sub_of_le _ _ ha
  have hb : sd.beta ≤ 100 - sd.alpha := by
    rw [UInt32.le_iff_toNat_le, hsub]
    omega
  rw [UInt32.toNat_sub_of_le _ _ hb, hsub]
  omega

theorem toNat_mul_of_le {a f : UInt32} (ha : a.toNat ≤ 100) (hf : f ≤ 10) :
    (a * f).toNat = a.toNat * f.toNat ∧ a.toNat * f.toNat ≤ a.toNat * 10 := by
  rw [UInt32.le_iff_toNat_le] at hf
  have hten : UInt32.toNat 10 = 10 := rfl
  rw [hten] at hf
  have hle : a.toNat * f.toNat ≤ a.toNat * 10 := Nat.mul_le_mul_left _ hf
  refine ⟨?_, hle⟩
  rw [UInt32.toNat_mul, Nat.mod_eq_of_lt (by omega)]

/-- With a `val_max` of 1 the size itself is scaled. -/
theorem valFactor_le_iff (hv : sd.valMax = 1) :
    (mh.valSize * 10).toNat = mh.valSize.toNat * 10 ∧ valFactor sd mh ≤ 10 ↔ mh.valSize ≤ 1 := by
  have hten : UInt32.toNat 10 = 10 := rfl
  have hone : UInt32.toNat 1 = 1 := rfl
  have hlt := mh.valSize.toNat_lt
  unfold valFactor
  rw [hv, UInt32.le_iff_toNat_le, UInt32.le_iff_toNat_le, UInt32.toNat_div, hone, Nat.div_one,
    UInt32.toNat_mul, hten]
  generalize mh.valSize.toNat = n at *
  constructor
  · rintro ⟨hprod, hle⟩
    omega
  · intro hle
    have hmod : n * 10 % 2 ^ 32 = n * 10 := Nat.mod_eq_of_lt (by omega)
    rw [hmod]
    omega

theorem ofInt_le_one {n : Int} (h₀ : 0 ≤ n) (h₁ : n ≤ 1000) : UInt32.ofInt (n.tdiv 1000) ≤ 1 := by
  rw [Int.tdiv_eq_ediv_of_nonneg h₀]
  have hcases : n / 1000 = 0 ∨ n / 1000 = 1 := by omega
  rcases hcases with h | h
  · rw [h]
    decide
  · rw [h]
    decide

theorem normalised_iff (hw : sd.alpha.toNat + sd.beta.toNat ≤ 100)
    (hq : mh.queryTimeMs ≤ sd.queryMax) (hv : sd.valMax = 1) (h₀ : 0 < mh.putTime)
    (hnow : mh.putTime ≤ now) :
    Normalised sd now mh ↔
      mh.valSize ≤ 1 ∧ mh.queryTimeMs.toNat * 10 < 2 ^ 32 ∧ mh.putTime * 10 < 2 ^ 63 := by
  constructor
  · intro h
    exact ⟨(valFactor_le_iff hv).mp ⟨h.valSize, h.val⟩, (toNat_mul_ten _).mp h.queryTimeMs,
      (bmod_eq_iff h₀).mp h.putTime⟩
  · rintro ⟨hsize, hms, htime⟩
    have hput := (bmod_eq_iff h₀).mpr htime
    have hloc := locFactor_le h₀ hnow hput
    have hqur := qurFactor_le hq
    obtain ⟨hprod, hval⟩ := (valFactor_le_iff hv).mpr hsize
    have hweights := toNat_weights hw
    obtain ⟨hqurTerm, hqurLe⟩ := toNat_mul_of_le (a := sd.beta) (by omega) hqur
    obtain ⟨hvalTerm, hvalLe⟩ := toNat_mul_of_le (a := 100 - sd.alpha - sd.beta) (by omega) hval
    refine ⟨hput, hloc, (toNat_mul_ten _).mpr hms, quotient_le hq, hqur, hprod, hval, hweights,
      hqurTerm, hvalTerm, ?_⟩
    rw [score_eq hput, hqurTerm, hvalTerm]
    have hlocLe : (sd.alpha.toNat : Int) * locFactor now mh ≤ sd.alpha.toNat * 10 :=
      Int.mul_le_mul_of_nonneg_left hloc.2 (Int.natCast_nonneg _)
    have hlocNonneg : 0 ≤ (sd.alpha.toNat : Int) * locFactor now mh :=
      Int.mul_nonneg (Int.natCast_nonneg _) hloc.1
    apply ofInt_le_one <;> omega

end

/-! ### Bookings and runs -/

/-- `query_max` is at least every query time stored, and `val_max` is what `mcd_start` made it. -/
structure Books.Scaled (b : Books) : Prop where
  valMax : b.aside.sd.valMax = 1
  queryMax : b.aside.sd.queryMax ≠ 0
  queryTimeMs : ∀ loc, ∀ mh ∈ b.entries loc, mh.queryTimeMs ≤ b.aside.sd.queryMax

section
variable {b : Books} {sd : ScoreParam} {v : UInt32} {loc : Loc} {mh : McdHashT}

theorem queryMax_noteVal : sd.queryMax ≤ (sd.noteVal v).queryMax ∧ v ≤ (sd.noteVal v).queryMax := by
  unfold ScoreParam.noteVal
  by_cases h : v > sd.queryMax
  · rw [if_pos h]
    exact ⟨UInt32.le_of_lt h, UInt32.le_rfl⟩
  · rw [if_neg h]
    exact ⟨UInt32.le_rfl, UInt32.not_lt.mp h⟩

theorem valMax_noteVal : (sd.noteVal v).valMax = sd.valMax := by
  unfold ScoreParam.noteVal
  split_ifs <;> rfl

/-- A raised maximum still bounds what it bounded. -/
theorem Books.Scaled.raise (hb : b.Scaled) {b' : Books} (hval : b'.aside.sd.valMax = b.aside.sd.valMax)
    (hle : b.aside.sd.queryMax ≤ b'.aside.sd.queryMax)
    (hnew : ∀ l, ∀ x ∈ b'.entries l,
      (∃ y ∈ b.entries l, y.queryTimeMs = x.queryTimeMs) ∨ x.queryTimeMs ≤ b'.aside.sd.queryMax) :
    b'.Scaled where
  valMax := hval.trans hb.valMax
  queryMax hzero := by
    rw [hzero] at hle
    exact hb.queryMax (UInt32.le_antisymm hle UInt32.zero_le)
  queryTimeMs l x hx := by
    rcases hnew l x hx with ⟨y, hy, hxy⟩ | hx
    · rw [← hxy]
      exact UInt32.le_trans (hb.queryTimeMs l y hy) hle
    · exact hx

theorem Books.Scaled.add (hb : b.Scaled) {b' : Books}
    (hent : b'.entries = Function.update b.entries loc (b.entries loc ++ [mh]))
    (hval : b'.aside.sd.valMax = b.aside.sd.valMax)
    (hle : b.aside.sd.queryMax ≤ b'.aside.sd.queryMax)
    (hnew : mh.queryTimeMs ≤ b'.aside.sd.queryMax) : b'.Scaled := by
  refine hb.raise hval hle fun l x hx => ?_
  rw [hent] at hx
  rcases mem_of_update_append hx with hx | ⟨-, rfl⟩
  · exact .inl ⟨x, hx, rfl⟩
  · exact .inr hnew

theorem Books.Scaled.book {e : Booking} (hb : b.Scaled) (ha : e.Allowed b) : (b.book e).Scaled := by
  cases e with
  | strike loc mh =>
    refine hb.raise rfl UInt32.le_rfl fun l x hx => .inl ⟨x, ?_, rfl⟩
    exact (update_erase_sublist b.entries loc mh l).subset hx
  | enter loc mh =>
    refine hb.add rfl valMax_noteVal queryMax_noteVal.1 ?_
    rw [ha.2]
    exact UInt32.zero_le
  | record loc mh =>
    refine hb.add rfl ?_ ?_ queryMax_noteVal.2
    · exact valMax_noteVal.trans valMax_noteVal
    · exact UInt32.le_trans queryMax_noteVal.1 queryMax_noteVal.1
  | touch loc mh now =>
    refine hb.raise rfl UInt32.le_rfl fun l x hx => .inl ?_
    have hx' := List.mem_map_of_mem (f := (·.queryTimeMs)) hx
    rw [map_entries_touch_books rfl b loc l] at hx'
    exact List.mem_map.mp hx'
  | chart | tune | weigh | enrol | retire =>
    exact hb.raise rfl UInt32.le_rfl fun l x hx => .inl ⟨x, hx, rfl⟩

theorem scaled_start : System.start.mcd.books.Scaled where
  valMax := rfl
  queryMax := by decide
  queryTimeMs loc _ h := by
    cases loc <;> simp [State.books, State.entries, findMcdDom, System.start, mcdStart] at h

end

/-- In every run the query times stored are at most `query_max`. A size stored is at most `val_max`
only if it is at most 1, and for any weights and clock the score of an entry is normalised exactly if
that is so and its times are small enough to be scaled. -/
theorem score_normalised_iff {y : System} {l : List (Call × Reply)} (h : Run Call.Fresh .start l y)
    {loc : Loc} {mh : McdHashT} (hmh : mh ∈ y.mcd.entries loc) :
    mh.queryTimeMs ≤ y.mcd.sd.queryMax ∧ y.mcd.sd.queryMax ≠ 0 ∧
      (mh.valSize ≤ y.mcd.sd.valMax ↔ mh.valSize ≤ 1) ∧
      ∀ alpha beta now, alpha.toNat + beta.toNat ≤ 100 → 0 < mh.putTime → mh.putTime ≤ now →
        (Normalised { y.mcd.sd with alpha := alpha, beta := beta } now mh ↔
          mh.valSize ≤ 1 ∧ mh.queryTimeMs.toNat * 10 < 2 ^ 32 ∧ mh.putTime * 10 < 2 ^ 63) := by
  have hscaled : y.mcd.books.Scaled := run_books (fun ha hb => hb.book ha) scaled_start h
  have hq : mh.queryTimeMs ≤ y.mcd.sd.queryMax := hscaled.queryTimeMs loc mh hmh
  have hv : y.mcd.sd.valMax = 1 := hscaled.valMax
  refine ⟨hq, hscaled.queryMax, by rw [hv], ?_⟩
  intro alpha beta now hw h₀ hnow
  exact normalised_iff hw hq hv h₀ hnow

/-- One shared entry, with a value of one byte. -/
def System.oneScored : System :=
  System.start.after [⟨.calm, .create 1⟩, ⟨.clock 5, .put 1 (.single 1) (.single 7)⟩]

theorem score_normalised_oneScored :
    ∃ mh ∈ System.oneScored.mcd.entries (.bucket 49), Normalised System.oneScored.mcd.sd 5 mh := by
  have hruns : System.start.runs Call.Fresh
      [⟨.calm, .create 1⟩, ⟨.clock 5, .put 1 (.single 1) (.single 7)⟩] := by decide +kernel
  have hrun : ∃ l, l.map (·.1) = _ ∧ Run Call.Fresh .start l System.oneScored := run_of_runs hruns
  have hentry : ∃ mh ∈ System.oneScored.mcd.entries (.bucket 49),
      mh.putTime = 5 ∧ mh.valSize = 1 ∧ mh.queryTimeMs = 0 := by decide +kernel
  have hweights : System.oneScored.mcd.sd.alpha.toNat + System.oneScored.mcd.sd.beta.toNat ≤ 100 := by
    decide +kernel
  generalize System.oneScored = y at *
  obtain ⟨l, -, hrun⟩ := hrun
  obtain ⟨mh, hmh, htime, hsize, hms⟩ := hentry
  obtain ⟨-, -, -, hiff⟩ := score_normalised_iff hrun hmh
  refine ⟨mh, hmh, (hiff _ _ 5 hweights (by omega) (by omega)).mpr ?_⟩
  rw [hsize, hms, htime]
  decide

/-- One shared entry, with a value of eleven bytes. -/
def System.oneWide : System := System.start.after
  [⟨.calm, .create 1⟩, ⟨.clock 5, .put 1 (.single 1) ⟨11, List.replicate 11 7, rfl⟩⟩]

/-- The only entry was put in place of one that was 429496730 ms old. -/
def System.oneLate : System := System.start.after
  [⟨.calm, .create 1⟩, ⟨.clock 5, .put 1 (.single 1) (.single 7)⟩,
    ⟨.clock 429496730000005, .put 1 (.single 1) (.single 8)⟩]

/-- `val_max` stays at 1, so the value of eleven bytes has the factor 110 and its entry the score 2; the
old entry's query time wraps when it is scaled. -/
theorem score_not_normalised :
    ((∃ l, Run Call.Keeps .start l System.oneWide) ∧ System.oneWide.mcd.sd.valMax = 1 ∧
      ∃ mh ∈ System.oneWide.mcd.entries (.bucket 49), mh.putTime = 5 ∧ mh.valSize = 11 ∧
        valFactor System.oneWide.mcd.sd mh = 110 ∧ score System.oneWide.mcd.sd 5 mh = 2) ∧
    (∃ l, Run Call.Keeps .start l System.oneLate) ∧
      ∃ mh ∈ System.oneLate.mcd.entries (.bucket 49), mh.queryTimeMs = 429496730 ∧
        mh.queryTimeMs * 10 = 4 := by
  have hwide : System.start.runs Call.Keeps [⟨.calm, .create 1⟩,
      ⟨.clock 5, .put 1 (.single 1) ⟨11, List.replicate 11 7, rfl⟩⟩] := by decide +kernel
  have hlate : System.start.runs Call.Keeps [⟨.calm, .create 1⟩,
      ⟨.clock 5, .put 1 (.single 1) (.single 7)⟩,
      ⟨.clock 429496730000005, .put 1 (.single 1) (.single 8)⟩] := by decide +kernel
  obtain ⟨l, -, hrun⟩ := run_of_runs hwide
  obtain ⟨l', -, hrun'⟩ := run_of_runs hlate
  refine ⟨⟨⟨l, hrun⟩, ?_, ?_⟩, ⟨l', hrun'⟩, ?_⟩ <;> decide +kernel

end UniCache.Mcd
