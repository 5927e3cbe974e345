import Mathlib.Logic.Function.Basic
import UniCache.Base.Buffer

/-! Printing into a buffer of fixed size, as the functions of the `snprintf` family do: what does not
fit is counted but not stored, and a NUL ends what is stored. -/
namespace UniCache.Base.Printer

/-- The conversions of a format string without flags, widths and precisions. -/
inductive Conv
  | text (chars : String)
  | d (num : UInt32)
  | u (num : UInt32)
  | ld (num : UInt64)
  | lu (num : UInt64)
  | lx (num : UInt64)
  | s (arg : String)
  | c (arg : UInt8)

def chars (l : List Char) : List UInt8 := l.map fun c => UInt8.ofNat c.toNat

/-- A number with its sign. -/
def signed (i : Int) : List UInt8 :=
  if i < 0 then chars ('-' :: Nat.toDigits 10 i.natAbs) else chars (Nat.toDigits 10 i.natAbs)

def Conv.out : Conv → List UInt8
  | .text t => chars t.toList
  | .d num => signed num.toInt32.toInt
  | .u num => chars (Nat.toDigits 10 num.toNat)
  | .ld num => signed num.toInt64.toInt
  | .lu num => chars (Nat.toDigits 10 num.toNat)
  | .lx num => chars (Nat.toDigits 16 num.toNat)
  | .s arg => chars arg.toList
  | .c arg => [arg]

/-- The whole text of a format. -/
def render (fmt : List Conv) : List UInt8 := fmt.flatMap Conv.out

/-- `if (str <= end) *str = c; ++str;` for one character after the other, with `limit` for
`end + 1`. -/
def emit (limit : Nat) : Nat → List UInt8 → Buffer UInt8 → Buffer UInt8
  | _, [], mem => mem
  | str, c :: text, mem =>
    emit limit (str + 1) text (if str < limit then Function.update mem str c else mem)

/-- `vsnprintf`: the result is the length of the whole text. -/
def vsnprintf (buf size : Nat) (fmt : List Conv) (mem : Buffer UInt8) : Nat × Buffer UInt8 :=
  let text := render fmt
  let mem := emit (buf + size) buf text mem
  let str := buf + text.length
  (str - buf,
    if str < buf + size then Function.update mem str 0
    -- no NUL is stored in a buffer of size 0
    else if 0 < size then Function.update mem (buf + size - 1) 0
    else mem)

/-- `scnprintf`: the result is the length of what is stored. -/
def scnprintf (buf size : Nat) (fmt : List Conv) (mem : Buffer UInt8) : Nat × Buffer UInt8 :=
  let r := vsnprintf buf size fmt mem
  (if r.1 ≥ size then size - 1 else r.1, r.2)

theorem emit_eq_readInto (limit str : Nat) (text : List UInt8) (mem : Buffer UInt8) :
    emit limit str text mem = mem.readInto str text 0 (limit - str) := by
  induction text generalizing str mem with
  | nil => exact (Buffer.readInto_nil mem str 0 _).symm
  | cons c text ih =>
    rw [emit, ih]
    funext p
    unfold Buffer.readInto
    by_cases hlt : str < limit
    · rw [if_pos hlt]
      rcases Nat.lt_trichotomy p str with hp | hp | hp
      · rw [if_neg (by omega), if_neg (by omega), Function.update_of_ne (by omega)]
      · rw [if_neg (by omega), if_pos (by omega), hp, Function.update_self]
        simp
      · by_cases hin : p < limit
        · rw [if_pos (by omega), if_pos (by omega), Function.update_of_ne (by omega)]
          have hnext : 0 + (p - str) = (0 + (p - (str + 1))) + 1 := by omega
          rw [hnext, List.getElem?_cons_succ]
        · rw [if_neg (by omega), if_neg (by omega), Function.update_of_ne (by omega)]
    · rw [if_neg hlt, if_neg (by omega), if_neg (by omega)]

/-- In a buffer that is not empty the NUL is stored behind the part of the text that is. -/
theorem scnprintf_eq {buf size : Nat} (hsize : 0 < size) (fmt : List Conv) (mem : Buffer UInt8) :
    scnprintf buf size fmt mem = (min (render fmt).length (size - 1),
      Function.update (mem.readInto buf (render fmt) 0 size)
        (buf + min (render fmt).length (size - 1)) 0) := by
  unfold scnprintf vsnprintf
  simp only [emit_eq_readInto, Nat.add_sub_cancel_left]
  by_cases hfit : (render fmt).length < size
  · have hmin : min (render fmt).length (size - 1) = (render fmt).length := by omega
    rw [if_neg (by omega), if_pos (by omega), hmin]
  · have hmin : min (render fmt).length (size - 1) = size - 1 := by omega
    rw [if_pos (by omega), if_neg (by omega), if_pos hsize, hmin, Nat.add_sub_assoc hsize]

theorem bytes_readInto (mem : Buffer UInt8) (buf size : Nat) {i : Nat} {text : List UInt8}
    (hlen : i ≤ text.length) (hsize : i ≤ size) :
    (mem.readInto buf text 0 size).bytes buf i = text.take i := by
  apply List.ext_getElem
  · rw [Buffer.length_bytes, List.length_take, Nat.min_eq_left hlen]
  · intro p hp _
    rw [Buffer.length_bytes] at hp
    have hget : text[p]? = some text[p] := List.getElem?_eq_getElem (by omega)
    simp only [Buffer.bytes, List.getElem_map, List.getElem_range, List.getElem_take,
      Buffer.readInto]
    rw [if_pos (by omega), Nat.add_sub_cancel_left, Nat.zero_add, hget, Option.getD_some]

/-- The first `n` cells hold as much of the text as fits into `cap` cells with its NUL. -/
structure Printed (cap : Nat) (mem : Buffer UInt8) (n : Nat) (text : List UInt8) : Prop where
  length : n = min text.length (cap - 1)
  bytes : mem.bytes 0 n = text.take (cap - 1)

theorem printed_nil (cap : Nat) (mem : Buffer UInt8) : Printed cap mem 0 [] :=
  ⟨by simp, by simp⟩

/-- The next piece goes behind what is there, as far as it fits. The NUL follows it, and nothing is
stored behind the buffer. -/
theorem Printed.scnprintf {cap n i : Nat} {mem mem' : Buffer UInt8} {text : List UInt8}
    {fmt : List Conv} (h : Printed cap mem n text) (hcap : 0 < cap)
    (hr : scnprintf n (cap - n) fmt mem = (i, mem')) :
    Printed cap mem' (n + i) (text ++ render fmt) ∧ mem' (n + i) = 0 ∧
      ∀ p, cap ≤ p → mem' p = mem p := by
  have hn := h.length
  rw [scnprintf_eq (by omega), Prod.mk.injEq] at hr
  obtain ⟨hi, hmem⟩ := hr
  rw [hi] at hmem
  have hcell : ∀ p, p ≠ n + i → mem' p = mem.readInto n (render fmt) 0 (cap - n) p := by
    intro p hp
    rw [← hmem, Function.update_of_ne hp]
  refine ⟨⟨?_, ?_⟩, by rw [← hmem, Function.update_self], ?_⟩
  · rw [List.length_append]
    omega
  · have hold : mem'.bytes 0 n = text.take (cap - 1) := by
      rw [← h.bytes]
      apply Buffer.bytes_congr
      intro p hp
      rw [hcell _ (by omega), Buffer.readInto, if_neg (by omega)]
    have hnew : mem'.bytes n i = (render fmt).take i := by
      rw [← bytes_readInto mem n (cap - n) (by omega) (by omega)]
      apply Buffer.bytes_congr
      intro p hp
      exact hcell _ (by omega)
    have htake : (render fmt).take i = (render fmt).take (cap - 1 - text.length) := by
      rw [List.take_eq_take_iff]
      omega
    rw [Buffer.bytes_add, hold, Nat.zero_add, hnew, htake, List.take_append]
  · intro p hp
    rw [hcell p (by omega), Buffer.readInto, if_neg (by omega)]

end UniCache.Base.Printer
