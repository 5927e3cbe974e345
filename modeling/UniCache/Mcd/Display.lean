import UniCache.Base.Fitting
import UniCache.Base.Printer
import UniCache.Mcd.Control
import UniCache.Mcd.Reclaim

/-! `display_stats`: the formatters, the text they copy to the guest, and where it goes. -/
namespace UniCache.Mcd
open Base Base.Exec Base.Printer

/-- `BSIZE`, the size of the `info` buffers. -/
def bsize : Nat := 1024

/-- `MCD_DOM_ID_NULL`. -/
def mcdDomIdNull : Domid := 0xffff

/-- A `copy_to_guest_offset` of bytes to the guest's buffer. -/
structure Copy where
  off : Int32
  bytes : List UInt8

/-- What the formatters work on, with a record of what they do: the arguments `off` and `len` they
are called with, and the copies they make. -/
structure Console where
  mcd : State
  /-- The stack from the first cell of `info` on. -/
  stack : Buffer UInt8
  calls : List (Int32 × UInt32)
  copies : List Copy

abbrev D (α : Type) := Exec Console Stop α

/-- What the formatters read besides the cache. -/
structure DisplayCtx extends Ctx where
  getSucc : Domid → UInt32
  getFail : Domid → UInt32
  numSharedPage : Int32
  /-- The memory before a key, which `key_val[i]` is in when the `int` `i` is negative. -/
  beforeKey : McdHashT → Nat → UInt8

def System.displayCtx (y : System) (env : Env) (numSharedPage : Int32)
    (beforeKey : McdHashT → Nat → UInt8) : DisplayCtx where
  toCtx := y.ctx env
  getSucc d := (y.hits d).getSucc
  getFail d := (y.hits d).getFail
  numSharedPage := numSharedPage
  beforeKey := beforeKey

def fromMcd {α : Type} (x : M α) : D α := zoom Console.mcd (fun s y => { y with mcd := s }) x

def logCall (off : Int32) (len : UInt32) : D Unit :=
  modify fun y => { y with calls := y.calls ++ [(off, len)] }

/-- `n += scnprintf(info + n, BSIZE - n, …)`. -/
def printInfo (n : Nat) (fmt : List Conv) : D Nat := do
  let y ← get
  let r := scnprintf n (bsize - n) fmt y.stack
  set { y with stack := r.2 }
  pure (n + r.1)

/-- The end of a formatter: `n + 1` bytes are copied after a test of `n`. -/
def copyInfo (off : Int32) (len : UInt32) (n : Nat) : D Int32 := do
  if UInt32.ofNat n ≥ len then pure 0
  else do
    modify fun y => { y with copies := y.copies ++ [⟨off, y.stack.bytes 0 (n + 1)⟩] }
    pure (Int32.ofNat n)

/-- A formatter that prints one format. -/
def mcdcFormat (fmt : List Conv) (off : Int32) (len : UInt32) : D Int32 := do
  logCall off len
  let n ← printInfo 0 fmt
  copyInfo off len n

def ReplaceMode.rstr : ReplaceMode → String
  | .lfru => "lfru"
  | .fast => "fast"
  | .score => "score"

def PartitionMode.pstr : PartitionMode → String
  | .be => "best-effort"
  | .wb => "weight-based"
  | .ad => "adaptive-dynamic"

def headerFormat (s : State) : List Conv :=
  [.text "Memcached Statistics (", .s s.replacementMode.rstr, .text " | ", .s s.partitionMode.pstr,
    .text " | mcd ", .s (if s.outsourcing then "connected" else "not connected"), .text ") \n"]

/-- `mcdc_header`. -/
def mcdcHeader (off : Int32) (len : UInt32) : D Int32 := do
  let y ← get
  mcdcFormat (headerFormat y.mcd) off len

def sharedFormat : List Conv := [.text "shared:,"]

/-- `mcdc_shared_header`. -/
def mcdcSharedHeader (off : Int32) (len : UInt32) : D Int32 := mcdcFormat sharedFormat off len

section
variable (c : DisplayCtx)

def statFormat (s : State) (free : UInt64) : List Conv :=
  [.text "shared_p:", .d c.numSharedPage.toUInt32, .text ",tot_bytes_used:", .lu s.totUsedBytes,
    .text "(", .lu s.data.priNrBytes, .text ":", .lu s.data.shrNrBytes, .text "),tot_bytes_free(",
    .lu (s.maxMemBytes / 1000000), .text "M):", .lu free, .text ",nr_keys:",
    .u (s.data.priNrKeys + s.data.shrNrKeys), .text "\n"]

/-- `mcdc_stat_display`. -/
def mcdcStatDisplay (off : Int32) (len : UInt32) : D Int32 := do
  let free ← fromMcd (getFreeMemSize c.toCtx)
  let y ← get
  mcdcFormat (statFormat c y.mcd free) off len

def domainFormat (d : McdDomain) : List Conv :=
  [.text "dom:", .d d.domid.toUInt32, .text ",weight:", .d d.weight, .text ",ratio:", .d d.ratio,
    .text ",bytes:", .ld d.nrUsedBytes, .text ",missrate:", .d (100 - c.hitrate d.domid), .text "(",
    .u (c.getSucc d.domid), .text "/", .u (c.getFail d.domid), .text ")\n"]

/-- `mcdc_domain_header`. -/
def mcdcDomainHeader (d : McdDomain) (off : Int32) (len : UInt32) : D Int32 :=
  mcdcFormat (domainFormat c d) off len

def entryFormat (now : Int) (data : McdHashT) : List Conv :=
  [.text "nr_pages:", .u data.nrPages, .text ",ref:", .u data.ref, .text ",passed_time:",
    .lx (UInt64.ofInt (now - data.putTime)), .text ",hash:", .u data.hash, .text ",key_size:",
    .u data.keySize, .text ",val_size:", .u data.valSize, .text ",key:"]

/-- `data->key_val[i]` for the `i`th turn of the loop. -/
def keyChar (data : McdHashT) (i : Nat) : UInt8 :=
  if i < 2 ^ 31 then (data.keyVal[i]?).getD 0 else c.beforeKey data i

/-- The loop of `mcdc_hashT_display`. -/
def printKey (data : McdHashT) : List Nat → Nat → D Nat
  | [], n => pure n
  | i :: is, n => do
    let n ← printInfo n [.c (keyChar c data i)]
    printKey data is n

/-- `mcdc_hashT_display`. -/
def mcdcHashTDisplay (data : McdHashT) (off : Int32) (len : UInt32) : D Int32 := do
  logCall off len
  let now ← fromMcd (readNow c.toCtx)
  let n ← printInfo 0 (entryFormat now data)
  let n ← printKey c data (List.range data.keySize.toNat) n
  let n ← printInfo n [.text "\n"]
  copyInfo off len n

variable (len : UInt32)

/-- `off += f(buf, off, len - off)`. -/
def advance (f : Int32 → UInt32 → D Int32) (off : Int32) : D Int32 := do
  let n ← f off (len - off.toUInt32)
  pure (off + n)

def displayEntries : List McdHashT → Int32 → D Int32
  | [], off => pure off
  | curr :: l, off => do
    let off ← advance len (mcdcHashTDisplay c curr) off
    displayEntries l off

/-- The detail of a domain, for `use_long` only. -/
def displayDetail (useLong : Bool) (dom : McdDomain) (off : Int32) : D Int32 :=
  if useLong then displayEntries c len dom.hashList off else pure off

def displayDomains (useLong : Bool) : List McdDomain → Int32 → D Int32
  | [], off => pure off
  | dom :: l, off => do
    let off ← advance len (mcdcDomainHeader c dom) off
    let off ← displayDetail c len useLong dom off
    displayDomains useLong l off

/-- The branch on `dom_id`. -/
def displayDomId (domId : Domid) (useLong : Bool) (off : Int32) : D Int32 := do
  let y ← get
  if domId = mcdDomIdNull then displayDomains c len useLong y.mcd.domains off else pure off

def displayBuckets : List Bucket → Int32 → D Int32
  | [], off => pure off
  | i :: is, off => do
    let y ← get
    let off ← displayEntries c len (y.mcd.shared i) off
    displayBuckets is off

/-- The detail for the shared queue. -/
def displayShared (useLong : Bool) (off : Int32) : D Int32 :=
  if useLong then do
    let off ← advance len mcdcSharedHeader off
    displayBuckets c len (List.finRange 100) off
  else pure off

/-- `display_stats`. -/
def displayStats (domId : Domid) (useLong : Bool) : D Rc := do
  let n ← mcdcHeader 0 len
  let off ← advance len (mcdcStatDisplay c) (0 + n)
  let off ← displayDomId c len domId useLong off
  let _ ← displayShared c len useLong off
  pure .errNo

end

/-! ### The texts -/

/-- What a formatter that prints one format has to copy. -/
def textOf (fmt : List Conv) : List UInt8 := (render fmt).take (bsize - 1)

example : textOf (headerFormat mcdStart) =
    chars "Memcached Statistics (lfru | best-effort | mcd not connected) \n".toList := by decide +kernel

/-- What `get_free_mem_size` gives. -/
def State.freeMemSize (c : Ctx) (s : State) : UInt64 :=
  (((getFreeMemSize c).run s).toOption.map Prod.fst).getD 0

section
variable (c : DisplayCtx)

def entryText (now : Int) (data : McdHashT) : List UInt8 :=
  (render (entryFormat now data) ++ (List.range data.keySize.toNat).map (keyChar c data) ++
    render [.text "\n"]).take (bsize - 1)

/-- The texts of entries, from reading `n` of the clock on. -/
def entryTexts : Nat → List McdHashT → List (List UInt8)
  | _, [] => []
  | n, curr :: l => entryText c (c.now n) curr :: entryTexts (n + 1) l

/-- The readings taken for a list of domains. -/
def domainReadings (useLong : Bool) (l : List McdDomain) : Nat :=
  if useLong then (l.map fun dom => dom.hashList.length).sum else 0

def domainTexts (useLong : Bool) : Nat → List McdDomain → List (List UInt8)
  | _, [] => []
  | n, dom :: l => textOf (domainFormat c dom) ::
    ((if useLong then entryTexts c n dom.hashList else []) ++
      domainTexts useLong (n + domainReadings useLong [dom]) l)

def bucketTexts (s : State) : Nat → List Bucket → List (List UInt8)
  | _, [] => []
  | n, i :: is => entryTexts c n (s.shared i) ++ bucketTexts s (n + (s.shared i).length) is

/-- The texts of `display_stats` in the order in which they are shown. -/
def statTexts (s : State) (domId : Domid) (useLong : Bool) : List (List UInt8) :=
  [textOf (headerFormat s), textOf (statFormat c s (s.freeMemSize c.toCtx))] ++
    (if domId = mcdDomIdNull then domainTexts c useLong (s.tick + 1) s.domains else []) ++
    if useLong then textOf sharedFormat :: bucketTexts c s
      (s.tick + 1 + if domId = mcdDomIdNull then domainReadings useLong s.domains else 0)
      (List.finRange 100)
    else []

end

/-! ### The formatters -/

/-- The state after `k` readings of the environment. -/
def State.ticked (k : Nat) (s : State) : State := { s with tick := s.tick + k }

theorem ticked_ticked (k l : Nat) (s : State) : (s.ticked k).ticked l = s.ticked (k + l) := by
  simp only [State.ticked, Nat.add_assoc]

/-- Nothing but the first cells of `info` differ, and these hold the text. -/
structure Filled (x y : Console) (n : Nat) (text : List UInt8) : Prop where
  printed : Printed bsize y.stack n text
  stack : ∀ p, bsize ≤ p → y.stack p = x.stack p
  mcd : y.mcd = x.mcd
  calls : y.calls = x.calls
  copies : y.copies = x.copies

theorem filled_refl (y : Console) : Filled y y 0 [] :=
  ⟨printed_nil _ _, fun _ _ => rfl, rfl, rfl, rfl⟩

/-- A formatter called with `off` and `len` takes `k` readings and shows the text: it copies it with a
NUL if there is room for both. -/
structure Shown (k : Nat) (text : List UInt8) (off : Int32) (len : UInt32) (y : Console) (n : Int32)
    (z : Console) : Prop where
  length : text.length < bsize
  mcd : z.mcd = y.mcd.ticked k
  stack : ∀ p, bsize ≤ p → z.stack p = y.stack p
  calls : z.calls = y.calls ++ [(off, len)]
  copies : z.copies = y.copies ++ if text.length < len.toNat then [⟨off, text ++ [0]⟩] else []
  result : n = if text.length < len.toNat then Int32.ofNat text.length else 0

section
variable {c : DisplayCtx} {off : Int32} {len : UInt32} {x y : Console} {n : Nat} {text : List UInt8}

@[simp] theorem returns_fromMcd {α : Type} {x : M α} {a : α} {y z : Console} :
    Returns (fromMcd x) y a z ↔ ∃ t, Returns x y.mcd a t ∧ z = { y with mcd := t } := returns_zoom

theorem printInfo_filled (h : Filled x y n text) (fmt : List Conv) :
    ∃ m z, Returns (printInfo n fmt) y m z ∧ Filled x z m (text ++ render fmt) ∧ z.stack m = 0 := by
  obtain ⟨hprinted, hnul, hstack⟩ := h.printed.scnprintf (by decide) (Prod.mk.eta.symm)
  refine ⟨_, _, returns_get_bind.mpr (returns_bind.mpr ⟨(), _, returns_set.mpr rfl,
    returns_pure.mpr ⟨rfl, rfl⟩⟩), ⟨hprinted, fun p hp => ?_, h.mcd, h.calls, h.copies⟩, hnul⟩
  exact (hstack p hp).trans (h.stack p hp)

theorem printKey_filled (c : DisplayCtx) (data : McdHashT) (is : List Nat)
    (h : Filled x y n text) :
    ∃ m z, Returns (printKey c data is n) y m z ∧
      Filled x z m (text ++ is.map (keyChar c data)) := by
  induction is generalizing y n text with
  | nil =>
    rw [List.map_nil, List.append_nil]
    exact ⟨n, y, returns_pure.mpr ⟨rfl, rfl⟩, h⟩
  | cons i is ih =>
    obtain ⟨m, z, hprint, hz, -⟩ := printInfo_filled h [.c (keyChar c data i)]
    obtain ⟨m', z', hrest, hz'⟩ := ih hz
    have hchar : render [.c (keyChar c data i)] = [keyChar c data i] := rfl
    rw [hchar, List.append_assoc] at hz'
    exact ⟨m', z', returns_bind.mpr ⟨m, z, hprint, hrest⟩, hz'⟩

/-- The console when a formatter has been called and has taken its readings. -/
def Console.entered (k : Nat) (off : Int32) (len : UInt32) (y : Console) : Console :=
  { y with mcd := y.mcd.ticked k, calls := y.calls ++ [(off, len)] }

theorem copyInfo_shown {k : Nat} (h : Filled (x.entered k off len) y n text) (hnul : y.stack n = 0) :
    ∃ m z, Returns (copyInfo off len n) y m z ∧ Shown k (text.take (bsize - 1)) off len x m z := by
  have hlen : (text.take (bsize - 1)).length = n := by
    rw [List.length_take, h.printed.length, Nat.min_comm]
  have hsize : (text.take (bsize - 1)).length < bsize := by
    rw [List.length_take]
    exact Nat.lt_of_le_of_lt (Nat.min_le_left _ _) (by decide)
  have hn : (UInt32.ofNat n).toNat = n := by
    rw [hlen] at hsize
    have hlt : n < 2 ^ 32 := Nat.lt_trans hsize (by decide)
    exact UInt32.toNat_ofNat_of_lt' hlt
  have hcopies : y.copies = x.copies := h.copies
  unfold copyInfo
  by_cases hbig : UInt32.ofNat n ≥ len
  · have hno : ¬ (text.take (bsize - 1)).length < len.toNat := by
      have hle := UInt32.le_iff_toNat_le.mp hbig
      omega
    rw [if_pos hbig]
    refine ⟨0, y, returns_pure.mpr ⟨rfl, rfl⟩, hsize, h.mcd, h.stack, h.calls, ?_, (if_neg hno).symm⟩
    rw [if_neg hno, List.append_nil, hcopies]
  · have hyes : (text.take (bsize - 1)).length < len.toNat := by
      have hlt := UInt32.lt_iff_toNat_lt.mp (UInt32.not_le.mp hbig)
      omega
    have hbytes : y.stack.bytes 0 (n + 1) = text.take (bsize - 1) ++ [0] := by
      rw [Buffer.bytes_add, h.printed.bytes, Nat.zero_add, ← hnul]
      rfl
    rw [if_neg hbig]
    refine ⟨Int32.ofNat n, _, returns_bind.mpr ⟨(), _, returns_modify.mpr rfl,
      returns_pure.mpr ⟨rfl, rfl⟩⟩, hsize, h.mcd, h.stack, h.calls, ?_, ?_⟩
    · rw [if_pos hyes, hbytes, hcopies]
    · rw [if_pos hyes, hlen]

theorem mcdcFormat_shown (fmt : List Conv) (off : Int32) (len : UInt32) (y : Console) :
    ∃ n z, Returns (mcdcFormat fmt off len) y n z ∧ Shown 0 (textOf fmt) off len y n z := by
  obtain ⟨m, z, hprint, hz, hnul⟩ := printInfo_filled (filled_refl (y.entered 0 off len)) fmt
  obtain ⟨n, w, hcopy, hw⟩ := copyInfo_shown hz hnul
  exact ⟨n, w, returns_bind.mpr ⟨(), _, returns_modify.mpr rfl,
    returns_bind.mpr ⟨m, z, hprint, hcopy⟩⟩, hw⟩

theorem getFreeMemSize_returns (c : Ctx) (s : State) :
    Returns (getFreeMemSize c) s (s.freeMemSize c) s.bump := by
  have hret : ∃ a, Returns (getFreeMemSize c) s a s.bump := by
    simp only [getFreeMemSize, getTotMemSize, getFreeSysMem, returns_bind, returns_reading,
      returns_get, returns_pure, and_assoc, exists_and_left, exists_eq_left, and_true, exists_eq]
  obtain ⟨a, ha⟩ := hret
  have hval : s.freeMemSize c = a := by
    have hrun : (getFreeMemSize c).run s = .ok (a, s.bump) := ha
    rw [State.freeMemSize, hrun]
    rfl
  rw [hval]
  exact ha

theorem mcdcStatDisplay_shown (c : DisplayCtx) (off : Int32) (len : UInt32) (y : Console) :
    ∃ n z, Returns (mcdcStatDisplay c off len) y n z ∧
      Shown 1 (textOf (statFormat c y.mcd (y.mcd.freeMemSize c.toCtx))) off len y n z := by
  have hread := getFreeMemSize_returns c.toCtx y.mcd
  obtain ⟨n, z, hformat, hz⟩ := mcdcFormat_shown (statFormat c y.mcd (y.mcd.freeMemSize c.toCtx))
    off len { y with mcd := y.mcd.bump }
  exact ⟨n, z, returns_bind.mpr ⟨_, _, returns_fromMcd.mpr ⟨_, hread, rfl⟩,
    returns_get_bind.mpr hformat⟩, hz.length, hz.mcd, hz.stack, hz.calls, hz.copies, hz.result⟩

theorem mcdcHashTDisplay_shown (c : DisplayCtx) (data : McdHashT) (off : Int32) (len : UInt32)
    (y : Console) : ∃ n z, Returns (mcdcHashTDisplay c data off len) y n z ∧
      Shown 1 (entryText c (c.now y.mcd.tick) data) off len y n z := by
  obtain ⟨n₁, z₁, hhead, hz₁, -⟩ := printInfo_filled (filled_refl (y.entered 1 off len))
    (entryFormat (c.now y.mcd.tick) data)
  obtain ⟨n₂, z₂, hkey, hz₂⟩ := printKey_filled c data (List.range data.keySize.toNat) hz₁
  obtain ⟨n₃, z₃, hline, hz₃, hnul⟩ := printInfo_filled hz₂ [.text "\n"]
  obtain ⟨n, w, hcopy, hw⟩ := copyInfo_shown hz₃ hnul
  refine ⟨n, w, returns_bind.mpr ⟨(), _, returns_modify.mpr rfl, returns_bind.mpr ⟨_, _,
    returns_fromMcd.mpr ⟨_, returns_reading.mpr ⟨rfl, rfl⟩, rfl⟩, returns_bind.mpr ⟨n₁, z₁, hhead,
      returns_bind.mpr ⟨n₂, z₂, hkey, returns_bind.mpr ⟨n₃, z₃, hline, hcopy⟩⟩⟩⟩⟩, hw⟩

end

end UniCache.Mcd
