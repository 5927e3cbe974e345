import Mathlib.Data.List.Count
import UniCache.Mcd.Destroy

/-! What a `remove` or `put` leaves of the outsourced copies of its key. -/
namespace UniCache.Mcd
open Base.Exec

/-- The headers at `loc` that outlive a `remove` or `put` of `hash`. At most one goes: the first of
that hash, when the hash is not in memory and outsourcing is on. -/
def State.outliving (s : State) (loc : Loc) (hash : UInt32) : List McdctlHashT :=
  match findMcdHashT hash (s.entries loc), (s.headers loc).find? (·.hash = hash) with
  | none, some mch => if s.outsourcing then (s.headers loc).erase mch else s.headers loc
  | _, _ => s.headers loc

/-- Nothing is outsourced under the hash, or one copy is, which a `remove` or `put` will find and
may free. -/
def State.Deletable (s : State) (loc : Loc) (hash : UInt32) : Prop :=
  ((s.headers loc).map (·.hash)).count hash = 0 ∨
    findMcdHashT hash (s.entries loc) = none ∧ s.outsourcing = true ∧
      ((s.headers loc).map (·.hash)).count hash = 1

section
variable {c : Ctx} {s t : State} {loc : Loc} {hash : UInt32}

theorem outliving_of_found {mh : McdHashT} (h : findMcdHashT hash (s.entries loc) = some mh) :
    s.outliving loc hash = s.headers loc := by
  unfold State.outliving
  rw [h]

theorem outliving_of_absent (h : findMcdHashT hash (s.entries loc) = none) :
    s.outliving loc hash = match (s.headers loc).find? (·.hash = hash) with
      | some mch => if s.outsourcing then (s.headers loc).erase mch else s.headers loc
      | none => s.headers loc := by
  unfold State.outliving
  rw [h]
  cases (s.headers loc).find? (·.hash = hash) <;> rfl

theorem hash_ne_of_count_zero {l : List McdctlHashT} :
    (∀ mch ∈ l, mch.hash ≠ hash) ↔ (l.map (·.hash)).count hash = 0 := by
  rw [List.count_eq_zero, List.mem_map]
  constructor
  · rintro h ⟨mch, hmem, hh⟩
    exact h mch hmem hh
  · intro h mch hmem hh
    exact h ⟨mch, hmem, hh⟩

theorem count_hash_erase {l : List McdctlHashT} {mch : McdctlHashT} (hmem : mch ∈ l)
    (hh : mch.hash = hash) :
    (l.map (·.hash)).count hash = ((l.erase mch).map (·.hash)).count hash + 1 := by
  have hperm := ((List.perm_cons_erase hmem).map (·.hash)).count_eq hash
  rw [hperm, List.map_cons, hh, List.count_cons_self]

theorem outliving_clean_iff :
    (∀ mch ∈ s.outliving loc hash, mch.hash ≠ hash) ↔ s.Deletable loc hash := by
  rw [hash_ne_of_count_zero]
  unfold State.Deletable
  cases hmem : findMcdHashT hash (s.entries loc) with
  | some mh => simp [outliving_of_found hmem]
  | none =>
    rw [outliving_of_absent hmem]
    cases hfind : (s.headers loc).find? (·.hash = hash) with
    | none =>
      have hzero : ((s.headers loc).map (·.hash)).count hash = 0 := by
        rw [← hash_ne_of_count_zero]
        intro mch hm hh
        exact List.find?_eq_none.mp hfind mch hm (by simpa using hh)
      simp [hzero]
    | some mch =>
      have hcount := count_hash_erase (List.mem_of_find?_eq_some hfind)
        (show mch.hash = hash by simpa using List.find?_some hfind)
      cases hon : s.outsourcing with
      | true =>
        simp only [if_true, true_and]
        omega
      | false => simp

/-- The reclaim only adds headers, at the end of their lists. -/
theorem Removal.headers_append {t u : Tiers} {loc : Loc} {mh : McdHashT} (h : Removal c t loc mh u)
    (l : Loc) : ∃ new, u.headers l = t.headers l ++ new := by
  cases h with
  | drop _ => exact ⟨[], (List.append_nil _).symm⟩
  | evict _ _ _ _ _ _ page slot => exact Base.update_append_eq t.headers _ _ l

theorem Clears.headers_append {P : Loc → Prop} {s t : Tiers} {k : Nat} (h : Clears c P s t k)
    (l : Loc) : ∃ new, t.headers l = s.headers l ++ new := by
  obtain ⟨_, hl, -, -⟩ := h
  refine hl.induct (I := fun v => ∃ new, v.headers l = s.headers l ++ new) ?_
    ⟨[], (List.append_nil _).symm⟩
  intro v _ _ w hr hv
  obtain ⟨new, hnew⟩ := hv
  obtain ⟨more, hmore⟩ := hr.headers_append l
  exact ⟨new ++ more, by rw [hmore, hnew, List.append_assoc]⟩

theorem Forgets.headers_eq {t : Tiers} (h : Forgets s.tiers loc hash t)
    (habs : findMcdHashT hash (s.entries loc) = none) :
    t.headers loc = s.outliving loc hash := by
  rw [outliving_of_absent habs]
  have hheaders : s.tiers.headers loc = s.headers loc := rfl
  rcases h with ⟨hnone, rfl⟩ | ⟨mch, hsome, st, -, rfl⟩
  · rw [hheaders] at hnone
    rw [hnone]
    rfl
  · rw [hheaders] at hsome
    rw [hsome]
    have hsame : s.tiers.outsourcing = s.outsourcing := rfl
    rw [hsame]
    by_cases hon : s.outsourcing = true
    · simp only [if_pos hon]
      exact Function.update_self ..
    · simp only [if_neg hon]
      rfl

end

section
variable {c : Ctx} {d : Domid} {k : GuestKey} {r : Reply} {s t : State}

theorem remove_headers (h : Returns (mcdOp c (.remove d k)) s r t) :
    t.headers (s.home d k) = s.outliving (s.home d k) (getHash k.bytes) := by
  have hheaders : t.tiers.headers (s.home d k) = t.headers (s.home d k) := rfl
  rw [← hheaders]
  rcases (remove_discards h).2 with ⟨mh, find, ht⟩ | ⟨find, forget⟩
  · rw [ht, outliving_of_found find]
    rfl
  · exact forget.headers_eq find

theorem put_headers {v : GuestVal} (h : Returns (mcdOp c (.put d k v)) s r t) :
    ∃ new, t.headers (s.home d k) =
      s.outliving (s.home d k) (getHash k.bytes) ++ new := by
  obtain ⟨ms, u, hev, -, hloc, hput⟩ := put_path h
  have hfirst : ∃ new, u.tiers.headers (s.home d k) =
      s.outliving (s.home d k) (getHash k.bytes) ++ new := by
    cases hev with
    | entry mh find rem =>
      rw [outliving_of_found find]
      exact rem.headers_append _
    | header find forget => exact ⟨[], by rw [forget.headers_eq find, List.append_nil]⟩
  have hsecond : ∃ new, t.tiers.headers (s.home d k) = u.tiers.headers (s.home d k) ++ new := by
    rcases putEntry_spec hput hloc with ⟨-, hcl⟩ | ⟨mh, -, -, -, w, hcl, -, ht⟩
    · exact hcl.headers_append _
    · rw [ht]
      exact hcl.headers_append _
  obtain ⟨new, hnew⟩ := hfirst
  obtain ⟨more, hmore⟩ := hsecond
  refine ⟨new ++ more, ?_⟩
  show t.tiers.headers (s.home d k) = _
  rw [hmore, hnew, List.append_assoc]

end

/-- The key is outsourced, outsourcing is switched off by `set_param(25, _, 2)`, the key is removed
while the ring is full, and outsourcing is switched on again. -/
def removeWhileOff : List Call :=
  [⟨.calm, .param 25 0 2⟩, ⟨{ Env.calm with sent := fun _ => false }, .remove 1 (.single 1)⟩,
    ⟨.calm, .param 25 0 2⟩]

end UniCache.Mcd
