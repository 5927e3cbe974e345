import UniCache.Mcd.Provenance

/-! The copies from guest memory. No caller in `mcd.c` but those that fetch the argument block looks
at what `copy_from_guest` returns, so a copy that stops early shows only in the bytes that have not
come. -/
namespace UniCache.Mcd
open Base Base.Exec

/-- A `copy_from_guest` of `n` bytes: what the guest has at the address, how many bytes of it are
copied before a fault, and what the buffer then holds behind them. `copy_from_user` fills with
zeros, `copy_from_user_hvm` leaves what was there. -/
structure GuestCopy (n : Nat) where
  src : List UInt8
  src_length : src.length = n
  copied : Nat
  rest : Nat → UInt8

namespace GuestCopy
variable {n : Nat}

/-- The buffer after the copy. -/
def landed (g : GuestCopy n) : List UInt8 := fillBuf n (g.src.take g.copied) g.rest

/-- `copy_from_guest` returns 0. -/
def Complete (g : GuestCopy n) : Prop := n ≤ g.copied

theorem landed_length (g : GuestCopy n) : g.landed.length = n := fillBuf_length _ _ _

theorem landed_of_complete {g : GuestCopy n} (h : g.Complete) : g.landed = g.src := by
  have hall : g.src.take g.copied = g.src := by
    apply List.take_of_length_le
    rw [g.src_length]
    exact h
  unfold landed
  rw [hall]
  exact fillBuf_full g.rest g.src_length

end GuestCopy

/-- A key argument: it is copied for the lookup and once more into the entry. -/
structure KeyArg where
  size : UInt32
  lookup : GuestCopy size.toNat
  stored : GuestCopy size.toNat

structure ValArg where
  size : UInt32
  copy : GuestCopy size.toNat

def KeyArg.key (k : KeyArg) : GuestKey where
  size := k.size
  bytes := k.lookup.landed
  again := k.stored.landed
  bytes_length := k.lookup.landed_length
  again_length := k.stored.landed_length

def ValArg.val (v : ValArg) : GuestVal where
  size := v.size
  bytes := v.copy.landed
  bytes_length := v.copy.landed_length

/-- The hypercalls with the copies they make. -/
inductive Request
  | put (d : Domid) (k : KeyArg) (v : ValArg)
  | check (d : Domid) (k : KeyArg)
  | get (d : Domid) (k : KeyArg) (cap : UInt32)
  | other (cmd : Cmd) (no_put : ∀ d k v, cmd ≠ .put d k v)

def Request.cmd : Request → Cmd
  | .put d k v => .put d k.key v.val
  | .check d k => .check d k.key
  | .get d k cap => .get d k.key cap
  | .other cmd _ => cmd

/-- What a `put` copies into its entry comes whole. -/
def Request.Complete : Request → Prop
  | .put _ k v => k.stored.Complete ∧ v.copy.Complete
  | _ => True

/-- The hypercall that a request makes. -/
def asCall (x : Env × Request) : Call := ⟨x.1, x.2.cmd⟩

/-- The hypercalls of a list of requests and replies. -/
def asCalls (l : List ((Env × Request) × Reply)) : List (Call × Reply) :=
  l.map fun x => (asCall x.1, x.2)

section
variable {l : List ((Env × Request) × Reply)} {d : Domid} {h : UInt32} {b : List UInt8}

theorem exists_put_of_supplied (hs : Supplied (asCalls l) d h b)
    (hcopies : ∀ x ∈ l, x.1.2.Complete) :
    ∃ env k v r, ((env, .put d k v), r) ∈ l ∧ r.rc = .errNo ∧ h = getHash k.stored.src ∧
      b = k.stored.src ++ v.copy.src := by
  obtain ⟨env, k, v, r, hmem, hr, hh, hb⟩ := hs
  obtain ⟨⟨⟨e, req⟩, r'⟩, hx, heq⟩ := List.mem_map.mp hmem
  have henv : e = env := congrArg (·.1.env) heq
  have hreply : r' = r := congrArg (·.2) heq
  have hcmd : req.cmd = .put d k v := congrArg (·.1.cmd) heq
  subst henv hreply
  cases req with
  | put d' k' v' =>
    obtain ⟨rfl, rfl, rfl⟩ := Cmd.put.inj hcmd
    obtain ⟨hk, hv⟩ := hcopies _ hx
    refine ⟨e, k', v', r', hx, hr, ?_, ?_⟩
    · rw [hh]
      exact congrArg getHash (GuestCopy.landed_of_complete hk)
    · rw [hb]
      exact congrArg₂ (· ++ ·) (GuestCopy.landed_of_complete hk) (GuestCopy.landed_of_complete hv)
  | other cmd no_put => exact absurd hcmd (no_put d k v)
  | check | get => exact Cmd.noConfusion hcmd

end

theorem exists_requests {reqs : List (Env × Request)} {hist : List (Call × Reply)}
    (h : hist.map (·.1) = reqs.map asCall) : ∃ l, l.map (·.1) = reqs ∧ asCalls l = hist := by
  induction reqs generalizing hist with
  | nil =>
    have hnil : hist = [] := by simpa using h
    exact ⟨[], rfl, hnil.symm⟩
  | cons x reqs ih =>
    cases hist with
    | nil => simp at h
    | cons e hist =>
      obtain ⟨hx, hrest⟩ := List.cons.inj h
      obtain ⟨l, hl, hl'⟩ := ih hrest
      refine ⟨(x, e.2) :: l, by rw [List.map_cons, hl], ?_⟩
      show (asCall x, e.2) :: asCalls l = e :: hist
      rw [hl', ← hx]

/-- A copy of one byte that comes. -/
def GuestCopy.one (b : UInt8) : GuestCopy 1 := ⟨[b], List.length_singleton, 1, fun _ => 0⟩

def KeyArg.single (b : UInt8) : KeyArg := ⟨1, .one b, .one b⟩

def ValArg.single (b : UInt8) : ValArg := ⟨1, .one b⟩

/-- Guest 1 puts key 1, which a failing `put` then pushes out to its file. -/
def recallRequests : List (Env × Request) :=
  [(.calm, .other (.create 1) (by simp)), (.calm, .other .enable (by simp)),
    (.calm, .put 1 (.single 1) (.single 7)), (.full .done, .put 1 (.single 3) (.single 9))]

theorem recallRequests_whole : ∀ x ∈ recallRequests, x.1.Whole ∧ x.2.Complete := by
  have hone : ∀ b, (GuestCopy.one b).Complete := fun _ => Nat.le_refl 1
  simp only [recallRequests, List.forall_mem_cons, List.not_mem_nil, false_implies, implies_true,
    and_true]
  refine ⟨⟨?_, trivial⟩, ⟨?_, trivial⟩, ⟨?_, hone 1, hone 7⟩, ?_, hone 3, hone 9⟩ <;>
    exact fun _ _ h => PageOut.noConfusion h

/-- A value at an address the hypervisor cannot read: the entry gets a zero for the byte 9. -/
def ValArg.unread : ValArg := ⟨1, ⟨[9], rfl, 0, fun _ => 0⟩⟩

/-- Guest 1, in the cache mode `m`, puts key 1 twice, the second time with a value that cannot be
read. -/
def unreadRequests (m : UInt32) : List (Env × Request) :=
  [(.calm, .other (.create 1) (by simp)), (.calm, .other (.cacheMode 0 m) (by simp)),
    (.calm, .put 1 (.single 1) (.single 7)), (.calm, .put 1 (.single 1) .unread)]

theorem unreadRequests_zero (m : UInt32) : ∀ x ∈ unreadRequests m, ∀ d k v,
    x.2 = .put d k v → 0 ∉ k.stored.src ++ v.copy.src := by
  intro x hx d k v hput
  simp only [unreadRequests, List.mem_cons, List.not_mem_nil, or_false] at hx
  rcases hx with rfl | rfl | rfl | rfl
  · exact Request.noConfusion hput
  · exact Request.noConfusion hput
  · cases hput
    decide
  · cases hput
    decide

end UniCache.Mcd
