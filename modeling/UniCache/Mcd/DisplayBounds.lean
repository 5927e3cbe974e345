import UniCache.Mcd.Display
import UniCache.Mcd.Filling

/-! Where the text of `display_stats` goes: inside the guest's buffer as long as no text begins at
offset `2 ^ 31` or later. -/
namespace UniCache.Mcd
open Base Base.Exec Base.Printer

/-- The copy of a text to its place. -/
def Copy.place (x : Nat × List UInt8) : Copy := ⟨Int32.ofNat x.1, x.2 ++ [0]⟩

/-- All bytes of the copy have an offset in `[0, len)`. -/
def Copy.Inside (len : UInt32) (x : Copy) : Prop :=
  0 ≤ x.off.toInt ∧ x.off.toInt + x.bytes.length ≤ len.toNat

/-- The guest's memory after the copies, with offset 0 at the start of the buffer. -/
def guestMem (copies : List Copy) (mem : Int → UInt8) : Int → UInt8 :=
  overlays (copies.map fun x => (x.off.toInt, x.bytes)) mem

/-- Formatters called in turn from offset `o` on take `k` readings and show the texts: those that fit
are copied one behind the other, and each formatter is told the room that is left. -/
structure Shows (len : UInt32) (k : Nat) (ts : List (List UInt8)) (o : Nat) (y : Console)
    (off : Int32) (z : Console) : Prop where
  lengths : ∀ t ∈ ts, t.length < bsize
  mcd : z.mcd = y.mcd.ticked k
  stack : ∀ p, bsize ≤ p → z.stack p = y.stack p
  calls : ∃ l, z.calls = y.calls ++ l ∧
    ∀ x ∈ l, x.1.toUInt32.toNat + x.2.toNat = len.toNat
  copies : z.copies = y.copies ++ (fitted len.toNat o ts).map Copy.place
  off : off = Int32.ofNat (reached len.toNat o ts)

/-- Run on any offset inside the buffer, the loop or formatter shows the texts. -/
def Displays (len : UInt32) (f : Int32 → D Int32) (y : Console) (k : Nat) (ts : List (List UInt8)) :
    Prop :=
  ∀ o ≤ len.toNat, ∃ off z, Returns (f (Int32.ofNat o)) y off z ∧ Shows len k ts o y off z

section
variable {len : UInt32} {y : Console} {k l : Nat} {ts us : List (List UInt8)}

theorem displays_pure (len : UInt32) (y : Console) : Displays len pure y 0 [] := by
  intro o _
  refine ⟨_, y, returns_pure.mpr ⟨rfl, rfl⟩, ?_⟩
  exact {
    lengths := by simp
    mcd := rfl
    stack := fun _ _ => rfl
    calls := ⟨[], by simp⟩
    copies := by simp [fitted]
    off := rfl }

theorem displays_get {g : Console → Int32 → D Int32} (hg : Displays len (g y) y k ts) :
    Displays len (fun off => get >>= fun x => g x off) y k ts := by
  intro o ho
  obtain ⟨off, z, hrun, hz⟩ := hg o ho
  exact ⟨off, z, returns_get_bind.mpr hrun, hz⟩

theorem Displays.bind {f g : Int32 → D Int32} (hf : Displays len f y k ts)
    (hg : ∀ z, z.mcd = y.mcd.ticked k → Displays len g z l us) :
    Displays len (fun off => f off >>= g) y (k + l) (ts ++ us) := by
  intro o ho
  obtain ⟨off, z, hrunf, hz⟩ := hf o ho
  obtain ⟨off', w, hrung, hw⟩ := hg z hz.mcd _ (reached_le ho)
  rw [← hz.off] at hrung
  refine ⟨off', w, returns_bind.mpr ⟨off, z, hrunf, hrung⟩, ?_⟩
  obtain ⟨lz, hlz, hroomz⟩ := hz.calls
  obtain ⟨lw, hlw, hroomw⟩ := hw.calls
  exact {
    lengths := List.forall_mem_append.mpr ⟨hz.lengths, hw.lengths⟩
    mcd := by rw [hw.mcd, hz.mcd, ticked_ticked]
    stack := fun p hp => (hw.stack p hp).trans (hz.stack p hp)
    calls := ⟨lz ++ lw, by rw [hlw, hlz, List.append_assoc],
      List.forall_mem_append.mpr ⟨hroomz, hroomw⟩⟩
    copies := by rw [hw.copies, hz.copies, fitted_append, List.map_append, List.append_assoc]
    off := by rw [hw.off, reached_append] }

/-- One formatter. -/
theorem advance_displays (len : UInt32) {f : Int32 → UInt32 → D Int32} {text : List UInt8}
    (hf : ∀ off rest, ∃ n z, Returns (f off rest) y n z ∧ Shown k text off rest y n z) :
    Displays len (advance len f) y k [text] := by
  intro o ho
  have ho32 : o < 2 ^ 32 := Nat.lt_of_le_of_lt ho len.toNat_lt
  have hoff : ((Int32.ofNat o).toUInt32).toNat = o := UInt32.toNat_ofNat_of_lt' ho32
  have hrest : (len - (Int32.ofNat o).toUInt32).toNat = len.toNat - o := by
    rw [UInt32.toNat_sub_of_le _ _ (UInt32.le_iff_toNat_le.mpr (by omega)), hoff]
  have hroom : text.length < len.toNat - o ↔ o + text.length < len.toNat := by omega
  obtain ⟨n, z, hrun, hz⟩ := hf (Int32.ofNat o) (len - (Int32.ofNat o).toUInt32)
  refine ⟨_, z, returns_bind.mpr ⟨n, z, hrun, returns_pure.mpr ⟨rfl, rfl⟩⟩, ?_⟩
  have hcopies := hz.copies
  have hresult := hz.result
  simp only [hrest, hroom] at hcopies hresult
  exact {
    lengths := List.forall_mem_singleton.mpr hz.length
    mcd := hz.mcd
    stack := hz.stack
    calls := by
      refine ⟨_, hz.calls, List.forall_mem_singleton.mpr ?_⟩
      rw [hoff, hrest]
      omega
    copies := by
      rw [hcopies, fitted]
      by_cases hfit : o + text.length < len.toNat
      · simp [hfit, fitted, Copy.place]
      · simp [hfit, fitted]
    off := by
      rw [hresult, reached]
      by_cases hfit : o + text.length < len.toNat
      · rw [if_pos hfit, if_pos hfit, reached, Int32.ofNat_add]
      · rw [if_neg hfit, if_neg hfit, reached, Int32.add_zero] }

end

section
variable (c : DisplayCtx) (len : UInt32) {y : Console} {n : Nat}

theorem tick_of_ticked {z : Console} {k : Nat} (hn : y.mcd.tick = n)
    (hz : z.mcd = y.mcd.ticked k) : z.mcd.tick = n + k := by
  rw [hz, ← hn]
  rfl

theorem displayEntries_displays (l : List McdHashT) (hn : y.mcd.tick = n) :
    Displays len (displayEntries c len l) y l.length (entryTexts c n l) := by
  induction l generalizing y n with
  | nil => exact displays_pure len y
  | cons curr l ih =>
    have hcurr := advance_displays len fun off rest => mcdcHashTDisplay_shown c curr off rest y
    have hall := hcurr.bind fun z hz => ih (tick_of_ticked hn hz)
    rw [hn, Nat.add_comm] at hall
    exact hall

theorem displayDetail_displays (useLong : Bool) (dom : McdDomain) (hn : y.mcd.tick = n) :
    Displays len (displayDetail c len useLong dom) y (domainReadings useLong [dom])
      (if useLong then entryTexts c n dom.hashList else []) := by
  cases useLong with
  | false => exact displays_pure len y
  | true => exact displayEntries_displays c len dom.hashList hn

theorem domainReadings_cons (useLong : Bool) (dom : McdDomain) (l : List McdDomain) :
    domainReadings useLong (dom :: l) = domainReadings useLong [dom] + domainReadings useLong l := by
  cases useLong <;> simp [domainReadings]

theorem displayDomains_displays (useLong : Bool) (l : List McdDomain) (hn : y.mcd.tick = n) :
    Displays len (displayDomains c len useLong l) y (domainReadings useLong l)
      (domainTexts c useLong n l) := by
  induction l generalizing y n with
  | nil =>
    have hzero : domainReadings useLong [] = 0 := by cases useLong <;> rfl
    rw [hzero]
    exact displays_pure len y
  | cons dom l ih =>
    have hhead := advance_displays len fun off rest => mcdcFormat_shown (domainFormat c dom) off rest y
    have hall := hhead.bind fun z hz =>
      (displayDetail_displays c len useLong dom (tick_of_ticked hn hz)).bind fun w hw =>
        ih (tick_of_ticked (tick_of_ticked hn hz) hw)
    rw [Nat.zero_add, ← domainReadings_cons] at hall
    exact hall

/-- The readings taken for the shared entries. -/
def bucketReadings (s : State) (is : List Bucket) : Nat := (is.map fun i => (s.shared i).length).sum

theorem displayBuckets_displays {s : State} (is : List Bucket) (hs : y.mcd.shared = s.shared)
    (hn : y.mcd.tick = n) :
    Displays len (displayBuckets c len is) y (bucketReadings s is) (bucketTexts c s n is) := by
  induction is generalizing y n with
  | nil => exact displays_pure len y
  | cons i is ih =>
    have hall := (displayEntries_displays c len (y.mcd.shared i) hn).bind fun z hz =>
      ih (by rw [hz, ← hs]; rfl) (tick_of_ticked hn hz)
    apply displays_get
    rw [hs] at hall ⊢
    exact hall

theorem mcdcHeader_displays (y : Console) :
    Displays len (advance len mcdcHeader) y 0 [textOf (headerFormat y.mcd)] := by
  apply advance_displays
  intro off rest
  obtain ⟨m, z, hrun, hz⟩ := mcdcFormat_shown (headerFormat y.mcd) off rest y
  exact ⟨m, z, returns_get_bind.mpr hrun, hz⟩

theorem mcdcStatDisplay_displays {s : State} (hs : y.mcd = s) :
    Displays len (advance len (mcdcStatDisplay c)) y 1
      [textOf (statFormat c s (s.freeMemSize c.toCtx))] := by
  subst hs
  exact advance_displays len fun off rest => mcdcStatDisplay_shown c off rest y

theorem displayDomId_displays {s : State} (domId : Domid) (useLong : Bool)
    (hs : y.mcd.domains = s.domains) (hn : y.mcd.tick = n) :
    Displays len (displayDomId c len domId useLong) y
      (if domId = mcdDomIdNull then domainReadings useLong s.domains else 0)
      (if domId = mcdDomIdNull then domainTexts c useLong n s.domains else []) := by
  apply displays_get
  by_cases hnull : domId = mcdDomIdNull
  · simp only [if_pos hnull]
    rw [hs]
    exact displayDomains_displays c len useLong s.domains hn
  · simp only [if_neg hnull]
    exact displays_pure len y

theorem displayShared_displays {s : State} (useLong : Bool) (hs : y.mcd.shared = s.shared)
    (hn : y.mcd.tick = n) :
    Displays len (displayShared c len useLong) y
      (if useLong then bucketReadings s (List.finRange 100) else 0)
      (if useLong then textOf sharedFormat :: bucketTexts c s n (List.finRange 100) else []) := by
  cases useLong with
  | false => exact displays_pure len y
  | true =>
    have hhead := advance_displays len fun off rest => mcdcFormat_shown sharedFormat off rest y
    have hall := hhead.bind fun z hz =>
      displayBuckets_displays c len (s := s) (List.finRange 100) (by rw [hz, ← hs]; rfl)
        (tick_of_ticked hn hz)
    rw [Nat.zero_add] at hall
    exact hall

/-- All the texts are shown, from offset 0 on. -/
theorem displayStats_shows (y : Console) (domId : Domid) (useLong : Bool) :
    ∃ k off z, Returns (displayStats c len domId useLong) y .errNo z ∧
      Shows len k (statTexts c y.mcd domId useLong) 0 y off z := by
  have hall := (mcdcHeader_displays len y).bind fun z hz =>
    (mcdcStatDisplay_displays c len (s := y.mcd) hz).bind fun w hw =>
      (displayDomId_displays c len (s := y.mcd) domId useLong (by rw [hw, hz]; rfl)
        (tick_of_ticked (tick_of_ticked rfl hz) hw)).bind fun v hv =>
          displayShared_displays c len (s := y.mcd) useLong (by rw [hv, hw, hz]; rfl)
            (tick_of_ticked (tick_of_ticked (tick_of_ticked rfl hz) hw) hv)
  obtain ⟨off, z, hrun, hz⟩ := hall 0 (Nat.zero_le _)
  refine ⟨_, off, z, ?_, by rw [statTexts, List.append_assoc]; exact hz⟩
  -- the first call is given `off` and `len` as they are
  obtain ⟨off₁, z₁, hheader, hrest⟩ := returns_bind.mp hrun
  obtain ⟨m, z₂, hm, hpure⟩ := returns_bind.mp hheader
  obtain ⟨rfl, rfl⟩ := returns_pure.mp hpure
  have hzero : len - (Int32.ofNat 0).toUInt32 = len := UInt32.sub_zero len
  rw [hzero] at hm
  obtain ⟨off₂, z₂, hstat, hrest⟩ := returns_bind.mp hrest
  obtain ⟨off₃, z₃, hdomains, hshared⟩ := returns_bind.mp hrest
  exact returns_bind.mpr ⟨m, _, hm, returns_bind.mpr ⟨off₂, z₂, hstat, returns_bind.mpr ⟨off₃, z₃,
    hdomains, returns_bind.mpr ⟨off, z, hshared, returns_pure.mpr ⟨rfl, rfl⟩⟩⟩⟩⟩

end

/-! ### The buffer of the guest -/

/-- The offset is an `int`. -/
theorem toInt_place {x : Nat × List UInt8} (hx : x.1 < 2 ^ 32) :
    (Copy.place x).off.toInt = if x.1 < 2 ^ 31 then (x.1 : Int) else x.1 - 2 ^ 32 := by
  have hmod : (Copy.place x).off.toInt = (x.1 : Int).bmod Int32.size := Int32.toInt_ofNat'
  have hsize : ((Int32.size : Nat) : Int) = 2 ^ 32 := rfl
  rw [hmod, Int.bmod_def, hsize, Int.emod_eq_of_lt (by omega) (by omega)]
  by_cases hlt : x.1 < 2 ^ 31
  · rw [if_pos hlt, if_pos (by omega)]
  · rw [if_neg hlt, if_neg (by omega)]

theorem inside_place_iff {len : UInt32} {x : Nat × List UInt8}
    (hx : x.1 + x.2.length < len.toNat) : (Copy.place x).Inside len ↔ x.1 < 2 ^ 31 := by
  have hlen := len.toNat_lt
  have hsize : (Copy.place x).bytes.length = x.2.length + 1 := List.length_append
  unfold Copy.Inside
  rw [toInt_place (by omega), hsize]
  by_cases hlt : x.1 < 2 ^ 31
  · rw [if_pos hlt]
    omega
  · rw [if_neg hlt]
    omega

/-! ### A text behind offset `2 ^ 31` -/

section
variable (c : DisplayCtx) {s : State}

theorem length_textOf (fmt : List Conv) : (textOf fmt).length < bsize := by
  rw [textOf, List.length_take]
  exact Nat.lt_of_le_of_lt (Nat.min_le_left _ _) (by decide)

/-- The text of a long key fills `info`. -/
theorem length_entryText (now : Int) {data : McdHashT} (hkey : bsize ≤ data.keySize.toNat) :
    (entryText c now data).length = bsize - 1 := by
  rw [entryText, List.length_take, List.length_append, List.length_append, List.length_map,
    List.length_range]
  omega

theorem length_entryTexts (n : Nat) (l : List McdHashT) : (entryTexts c n l).length = l.length := by
  induction l generalizing n with
  | nil => rfl
  | cons curr l ih => rw [entryTexts, List.length_cons, List.length_cons, ih]

theorem length_bucketTexts (n : Nat) (is : List Bucket) :
    (bucketTexts c s n is).length = bucketReadings s is := by
  induction is generalizing n with
  | nil => rfl
  | cons i is ih =>
    rw [bucketTexts, List.length_append, length_entryTexts, ih]
    rfl

theorem length_of_mem_entryTexts {n : Nat} {l : List McdHashT}
    (hkeys : ∀ data ∈ l, bsize ≤ data.keySize.toNat) {t : List UInt8} (ht : t ∈ entryTexts c n l) :
    t.length = bsize - 1 := by
  induction l generalizing n with
  | nil => cases ht
  | cons curr l ih =>
    rcases List.mem_cons.mp ht with rfl | ht
    · exact length_entryText c _ (hkeys curr List.mem_cons_self)
    · exact ih (fun data hdata => hkeys data (List.mem_cons_of_mem _ hdata)) ht

theorem length_of_mem_bucketTexts {n : Nat} {is : List Bucket}
    (hkeys : ∀ i, ∀ data ∈ s.shared i, bsize ≤ data.keySize.toNat) {t : List UInt8}
    (ht : t ∈ bucketTexts c s n is) : t.length = bsize - 1 := by
  induction is generalizing n with
  | nil => cases ht
  | cons i is ih =>
    rcases List.mem_append.mp ht with ht | ht
    · exact length_of_mem_entryTexts c (hkeys i) ht
    · exact ih ht

/-- Enough long keys in the shared cache bring a text there, if the buffer has room for all of it. -/
theorem exists_far_text (len : UInt32) {domId : Domid} (hdom : domId ≠ mcdDomIdNull)
    (hkeys : ∀ i, ∀ data ∈ s.shared i, bsize ≤ data.keySize.toNat)
    (hfar : 2 ^ 31 ≤ (s.sharedCount - 1) * (bsize - 1))
    (hroom : (s.sharedCount + 3) * (bsize - 1) < len.toNat) :
    ∃ x ∈ fitted len.toNat 0 (statTexts c s domId true), 2 ^ 31 ≤ x.1 := by
  let heads := [textOf (headerFormat s), textOf (statFormat c s (s.freeMemSize c.toCtx)),
    textOf sharedFormat]
  let texts := bucketTexts c s (s.tick + 1 + 0) (List.finRange 100)
  have hstat : statTexts c s domId true = heads ++ texts := by
    rw [statTexts, if_neg hdom, if_neg hdom, if_pos rfl]
    rfl
  have hlen : texts.length = s.sharedCount := length_bucketTexts c _ _
  have hne : texts ≠ [] := by
    intro hnil
    rw [← hlen, hnil] at hfar
    exact absurd hfar (by decide)
  have hheads : (heads.map List.length).sum ≤ 3 * (bsize - 1) := by
    have h₁ := length_textOf (headerFormat s)
    have h₂ := length_textOf (statFormat c s (s.freeMemSize c.toCtx))
    have h₃ := length_textOf sharedFormat
    simp only [heads, List.map_cons, List.map_nil, List.sum_cons, List.sum_nil]
    omega
  have hfit : 0 + (heads.map List.length).sum + texts.length * (bsize - 1) < len.toNat := by
    rw [Nat.add_mul] at hroom
    rw [hlen]
    omega
  obtain ⟨t, ht⟩ := exists_last_fitted (fun t ht => length_of_mem_bucketTexts c hkeys ht) hne hfit
  rw [hstat]
  refine ⟨_, ht, ?_⟩
  rw [hlen]
  exact Nat.le_trans hfar (Nat.le_add_left _ _)

end

/-- `display_stats` stays inside the buffer of the guest if and only if no text that is copied begins at
offset `2 ^ 31` or later, and so for every buffer of at most `2 ^ 31` bytes. Then the buffer holds the
joined texts and one NUL. In any case `info` is not overrun, and `len - off` does not wrap. -/
theorem displayStats_in_bounds_iff (c : DisplayCtx) (s : State) (stack : Buffer UInt8)
    (mem : Int → UInt8) (domId : Domid) (len : UInt32) (useLong : Bool) :
    ∃ z, Returns (displayStats c len domId useLong) ⟨s, stack, [], []⟩ .errNo z ∧
      (∀ p, bsize ≤ p → z.stack p = stack p) ∧
      (∀ x ∈ z.calls, x.1.toUInt32.toNat + x.2.toNat = len.toNat) ∧
      (∀ x ∈ z.copies, x.bytes.length ≤ bsize ∧ x.bytes.getLast? = some 0) ∧
      ((∀ x ∈ z.copies, x.Inside len) ↔
        ∀ x ∈ fitted len.toNat 0 (statTexts c s domId useLong), x.1 < 2 ^ 31) ∧
      (len.toNat ≤ 2 ^ 31 → ∀ x ∈ z.copies, x.Inside len) ∧
      ((∀ x ∈ z.copies, x.Inside len) → guestMem z.copies mem =
        if z.copies = [] then mem
        else overlay 0 ((fitted len.toNat 0 (statTexts c s domId useLong)).flatMap Prod.snd ++ [0])
          mem) := by
  obtain ⟨k, off, z, hrun, hz⟩ := displayStats_shows c len ⟨s, stack, [], []⟩ domId useLong
  obtain ⟨l, hcalls, hroom⟩ := hz.calls
  have hcopies : z.copies = (fitted len.toNat 0 (statTexts c s domId useLong)).map Copy.place :=
    hz.copies
  have hinside : (∀ x ∈ z.copies, x.Inside len) ↔
      ∀ x ∈ fitted len.toNat 0 (statTexts c s domId useLong), x.1 < 2 ^ 31 := by
    rw [hcopies, List.forall_mem_map]
    exact forall₂_congr fun x hx => inside_place_iff (lt_of_mem_fitted hx)
  refine ⟨z, hrun, hz.stack, by rw [hcalls]; exact hroom, ?_, hinside, ?_, ?_⟩
  · rw [hcopies, List.forall_mem_map]
    intro x hx
    have hlt := hz.lengths x.2 (snd_mem_of_mem_fitted hx)
    constructor
    · simp only [Copy.place, List.length_append, List.length_singleton]
      omega
    · simp [Copy.place]
  · intro hle
    rw [hinside]
    intro x hx
    have hlt := lt_of_mem_fitted hx
    omega
  · intro hin
    rw [hinside] at hin
    have hplaces : z.copies.map (fun x => (x.off.toInt, x.bytes)) =
        (fitted len.toNat 0 (statTexts c s domId useLong)).map fun x => ((x.1 : Int), x.2 ++ [0]) := by
      rw [hcopies, List.map_map]
      apply List.map_congr_left
      intro x hx
      have hlow := hin x hx
      rw [Function.comp_apply, toInt_place (by omega), if_pos hlow]
      rfl
    rw [guestMem, hplaces, overlays_fitted, hcopies]
    simp only [List.map_eq_nil_iff]
    rfl

/-- 2100000 `put`s of long keys, then a statistics call with a buffer of nearly 4 GiB: a text is copied
to memory in front of the buffer. -/
theorem displayStats_leaves_buffer : ∃ l hist y, hist.map (·.1) = ⟨.calm, .create 1⟩ :: longPuts l ∧
    Run Call.Fresh .start hist y ∧ ∀ env pages beforeKey stack, ∃ z,
      Returns (displayStats (y.displayCtx env pages beforeKey) 0xffffffff 0 true)
        ⟨y.mcd, stack, [], []⟩ .errNo z ∧
      ∃ x ∈ z.copies, x.off.toInt < 0 ∧ ¬ x.Inside 0xffffffff := by
  obtain ⟨l, hist, y, hs, hcalls, hrun, hy, hlen⟩ := exists_stocked (N := 2100000) (by decide)
  refine ⟨l, hist, y, hcalls, hrun, ?_⟩
  intro env pages beforeKey stack
  have hcount : y.mcd.sharedCount = 2100000 := by rw [sharedCount_eq, hy.count, hlen]
  have hkeys : ∀ i, ∀ data ∈ y.mcd.shared i, bsize ≤ data.keySize.toNat := by
    intro i data hdata
    rw [(hy.keys i data hdata).2]
    decide
  have hnull : (0 : Domid) ≠ mcdDomIdNull := by decide
  obtain ⟨x, hx, hfar⟩ := exists_far_text (y.displayCtx env pages beforeKey) 0xffffffff hnull hkeys
    (by rw [hcount]; decide) (by rw [hcount]; decide)
  obtain ⟨k, off, z, hret, hz⟩ := displayStats_shows (y.displayCtx env pages beforeKey) 0xffffffff
    ⟨y.mcd, stack, [], []⟩ 0 true
  have hin := lt_of_mem_fitted hx
  have hmem : Copy.place x ∈ z.copies := by
    rw [hz.copies]
    exact List.mem_append_right _ (List.mem_map_of_mem hx)
  have hneg : (Copy.place x).off.toInt < 0 := by
    have hmax : (0xffffffff : UInt32).toNat = 4294967295 := rfl
    rw [toInt_place (by omega), if_neg (by omega)]
    omega
  exact ⟨z, hret, Copy.place x, hmem, hneg, fun hinside => by have := hinside.1; omega⟩

end UniCache.Mcd
