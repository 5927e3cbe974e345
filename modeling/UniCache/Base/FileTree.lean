import Mathlib.Data.List.Basic
import Mathlib.Logic.Function.Basic

/-! Trees of directories and regular files, the system calls on what a path names, and the rule by
which a directory whose entries represent a family of values follows an update of the family. Calls
fail only for the path they are given. -/
namespace UniCache.Base

/-- A regular file with its bytes, or a directory with its entries. -/
inductive Node (ν β : Type)
  | file (bytes : List β)
  | dir (entries : List (ν × Node ν β))

namespace Node
variable {ν β : Type}

def isDir : Node ν β → Bool
  | .file _ => false
  | .dir _ => true

variable [DecidableEq ν]

/-- What the name `n` stands for in a directory. -/
def entry (n : ν) : Node ν β → Option (Node ν β)
  | .file _ => none
  | .dir es => (es.find? (·.1 = n)).map (·.2)

/-- The directory with `n` standing for `x`. -/
def setEntry (n : ν) (x : Option (Node ν β)) : Node ν β → Node ν β
  | .file b => .file b
  | .dir es => .dir ((x.map fun t => (n, t)).toList ++ es.filter (·.1 ≠ n))

/-- What a path leads to. -/
def walk : List ν → Node ν β → Option (Node ν β)
  | [], t => some t
  | n :: p, t => (t.entry n).bind (walk p)

/-- The bytes of the regular file at a path. -/
def fileAt (p : List ν) (t : Node ν β) : Option (List β) :=
  match t.walk p with
  | some (.file b) => some b
  | _ => none

theorem isDir_setEntry (n : ν) (x : Option (Node ν β)) (t : Node ν β) :
    (t.setEntry n x).isDir = t.isDir := by
  cases t <;> rfl

theorem find_filter_ne (n : ν) (es : List (ν × Node ν β)) :
    (es.filter (·.1 ≠ n)).find? (·.1 = n) = none := by
  apply List.find?_eq_none.mpr
  intro e he
  simpa using (List.mem_filter.mp he).2

theorem find_filter_of_ne {n m : ν} (h : m ≠ n) (es : List (ν × Node ν β)) :
    (es.filter (·.1 ≠ n)).find? (·.1 = m) = es.find? (·.1 = m) := by
  induction es with
  | nil => rfl
  | cons e es ih =>
    by_cases he : e.1 = n
    · have hm : e.1 ≠ m := fun hm => h (hm.symm.trans he)
      rw [List.filter_cons_of_neg (by simpa using he), List.find?_cons_of_neg (by simpa using hm)]
      exact ih
    · rw [List.filter_cons_of_pos (by simpa using he)]
      by_cases hm : e.1 = m
      · rw [List.find?_cons_of_pos (by simpa using hm), List.find?_cons_of_pos (by simpa using hm)]
      · rw [List.find?_cons_of_neg (by simpa using hm), List.find?_cons_of_neg (by simpa using hm)]
        exact ih

theorem entry_setEntry_self (n : ν) (x : Option (Node ν β)) {t : Node ν β} (h : t.isDir) :
    (t.setEntry n x).entry n = x := by
  cases t with
  | file b => cases h
  | dir es =>
    cases x with
    | none =>
      show ((es.filter (·.1 ≠ n)).find? (·.1 = n)).map _ = none
      rw [find_filter_ne]
      rfl
    | some t => simp [setEntry, entry]

theorem entry_setEntry_of_ne {n m : ν} (h : m ≠ n) (x : Option (Node ν β)) (t : Node ν β) :
    (t.setEntry n x).entry m = t.entry m := by
  cases t with
  | file b => rfl
  | dir es =>
    have hrest : ((es.filter (·.1 ≠ n)).find? (·.1 = m)).map (·.2) =
        (es.find? (·.1 = m)).map (·.2) := by
      rw [find_filter_of_ne h]
    cases x with
    | none => exact hrest
    | some t =>
      show (((n, t) :: es.filter (·.1 ≠ n)).find? (·.1 = m)).map (·.2) = _
      rw [List.find?_cons_of_neg (by simpa using h.symm)]
      exact hrest

end Node

/-- What a path names: nothing, or the root of a tree. -/
abbrev Slot (ν β : Type) := Option (Node ν β)

namespace Slot
variable {ν β : Type}

def mkdir : Slot ν β → Slot ν β × Bool
  | none => (some (.dir []), true)
  | some t => (some t, false)

def unlink : Slot ν β → Slot ν β × Bool
  | some (.file _) => (none, true)
  | x => (x, false)

/-- `open` with `O_CREAT | O_TRUNC`. -/
def creat : Slot ν β → Slot ν β × Bool
  | some (.dir es) => (some (.dir es), false)
  | _ => (some (.file []), true)

/-- A write at the end of an open file. -/
def append (data : List β) : Slot ν β → Slot ν β
  | some (.file b) => some (.file (b ++ data))
  | x => x

variable [DecidableEq ν]

/-- A call on the name `n` in a directory. It fails where there is no directory. -/
def within (n : ν) (call : Slot ν β → Slot ν β × Bool) : Slot ν β → Slot ν β × Bool
  | some (.dir es) =>
    let r := call ((Node.dir es).entry n)
    (some ((Node.dir es).setEntry n r.1), r.2)
  | x => (x, false)

theorem within_dir {t : Node ν β} (h : t.isDir) (n : ν) (call : Slot ν β → Slot ν β × Bool) :
    within n call (some t) =
      (some (t.setEntry n (call (t.entry n)).1), (call (t.entry n)).2) := by
  cases t with
  | file b => cases h
  | dir es => rfl

end Slot

/-- The entries of a directory are named by `name` and represent the family `D` in the sense of
`R`. -/
structure Lists {ι ν α β : Type} [DecidableEq ν] (name : ι → ν) (R : Slot ν β → α → Prop)
    (t : Node ν β) (D : ι → α) : Prop where
  dir : t.isDir
  named : ∀ n x, t.entry n = some x → ∃ i, n = name i
  entries : ∀ i, R (t.entry (name i)) (D i)

section
variable {ι ν α β : Type} [DecidableEq ν] {name : ι → ν} {R : Slot ν β → α → Prop}
  {t : Node ν β} {D : ι → α} {i : ι} {a : α}

theorem lists_nil (h : R none a) : Lists name R (.dir []) fun _ => a where
  dir := rfl
  named n x hx := by cases hx
  entries _ := h

theorem Lists.setEntry [DecidableEq ι] (h : Lists name R t D) (hinj : Function.Injective name)
    {x : Slot ν β} (hx : R x a) : Lists name R (t.setEntry (name i) x) (Function.update D i a) where
  dir := by
    rw [Node.isDir_setEntry]
    exact h.dir
  named n y hy := by
    by_cases hn : n = name i
    · exact ⟨i, hn⟩
    · rw [Node.entry_setEntry_of_ne hn] at hy
      exact h.named n y hy
  entries j := by
    by_cases hj : j = i
    · rw [hj, Node.entry_setEntry_self _ _ h.dir, Function.update_self]
      exact hx
    · rw [Node.entry_setEntry_of_ne (fun hn => hj (hinj hn)), Function.update_of_ne hj]
      exact h.entries j

/-- A call on one entry updates the family there. -/
theorem Lists.within [DecidableEq ι] (h : Lists name R t D) (hinj : Function.Injective name)
    {call : Slot ν β → Slot ν β × Bool} (hcall : R (call (t.entry (name i))).1 a) :
    ∃ u, Slot.within (name i) call (some t) = (some u, (call (t.entry (name i))).2) ∧
      Lists name R u (Function.update D i a) :=
  ⟨_, Slot.within_dir h.dir (name i) call, h.setEntry hinj hcall⟩

end

end UniCache.Base
