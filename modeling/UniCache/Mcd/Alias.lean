import UniCache.Mcd.CoherentRuns

/-! Keys are told apart by `getHash` alone: what holds of keys of different hashes, and two keys of
one hash. -/
namespace UniCache.Mcd
open Base Base.Exec

/-- Whatever has another hash is kept, in memory and outsourced. -/
structure Spares (hash : UInt32) (s t : Tiers) : Prop where
  entries : ∀ loc, ∀ mh ∈ s.entries loc, mh.hash ≠ hash → mh ∈ t.entries loc
  headers : ∀ loc, ∀ mch ∈ s.headers loc, mch.hash ≠ hash → mch ∈ t.headers loc
  files : ∀ d h, h ≠ hash → t.store d h = s.store d h

section
variable {c : Ctx} {s t u : Tiers} {loc : Loc} {hash : UInt32} {mh : McdHashT}

theorem spares_refl (hash : UInt32) (s : Tiers) : Spares hash s s :=
  ⟨fun _ _ h _ => h, fun _ _ h _ => h, fun _ _ _ => rfl⟩

theorem Spares.trans (h₁ : Spares hash s t) (h₂ : Spares hash t u) : Spares hash s u where
  entries loc mh hm hne := h₂.entries loc mh (h₁.entries loc mh hm hne) hne
  headers loc mch hm hne := h₂.headers loc mch (h₁.headers loc mch hm hne) hne
  files d h hne := (h₂.files d h hne).trans (h₁.files d h hne)

theorem spares_drop (s : Tiers) (loc : Loc) (mh : McdHashT) : Spares mh.hash s (s.drop loc mh) where
  entries l e he hne := by
    have hdiff : e ≠ mh := fun h => hne (congrArg McdHashT.hash h)
    exact mem_update_erase he hdiff
  headers _ _ h _ := h
  files _ _ _ := rfl

theorem spares_outsource (s : Tiers) (mh : McdHashT) (file : Option (List UInt8)) (page slot : Nat) :
    Spares mh.hash s (s.outsource mh file page slot) where
  entries _ _ h _ := h
  headers l _ hm _ := subset_update_append s.headers (s.pageOutLoc mh) [mh.header page slot] l hm
  files _ _ hne := if_neg fun h => hne h.2

theorem Removal.spares (h : Removal c s loc mh t) : Spares mh.hash s t := by
  cases h with
  | drop _ => exact spares_drop s loc mh
  | evict _ _ _ _ _ _ page slot =>
    exact (spares_drop s loc mh).trans (spares_outsource _ mh _ page slot)

theorem Forgets.spares (h : Forgets s loc hash t) : Spares hash s t := by
  rcases h with ⟨-, rfl⟩ | ⟨mch, hfind, st, hst, rfl⟩
  · exact spares_refl hash t
  · have hhash : mch.hash = hash := by simpa using List.find?_some hfind
    have hfiles (d : Domid) (h : UInt32) (hne : h ≠ hash) : st d h = s.store d h := by
      rcases hst with rfl | rfl
      · rfl
      · exact if_neg fun he => hne (he.2.trans hhash)
    by_cases ho : s.outsourcing
    · rw [if_pos ho]
      refine ⟨fun _ _ h _ => h, fun l m hm hne => ?_, hfiles⟩
      have hdiff : m ≠ mch := fun h => hne (h ▸ hhash)
      exact mem_update_erase hm hdiff
    · rw [if_neg ho]
      exact ⟨fun _ _ h _ => h, fun _ _ h _ => h, hfiles⟩

theorem Discards.spares (h : Discards s loc hash t) : Spares hash s t := by
  rcases h with ⟨mh, hfind, rfl⟩ | ⟨-, hf⟩
  · rw [← (findMcdHashT_mem hfind).2]
    exact spares_drop s loc mh
  · exact hf.spares

theorem Evacuates.spares (h : Evacuates c s loc hash t) : Spares hash s t := by
  cases h with
  | entry mh find rem =>
    rw [← (findMcdHashT_mem find).2]
    exact rem.spares
  | header _ forget => exact forget.spares

end

/-- A `remove` touches nothing of another hash. -/
theorem remove_spares {y z : System} {env : Env} {d : Domid} {k : GuestKey} {r : Reply}
    (h : y.call ⟨env, .remove d k⟩ = .ok (r, z)) :
    Spares (getHash k.bytes) y.mcd.tiers z.mcd.tiers := by
  obtain ⟨t, hop, ht, -⟩ := call_spec h
  rw [ht]
  exact (remove_discards hop).2.spares

/-- A `put` touches something of another hash only when it makes room. -/
theorem put_spares {y z : System} {env : Env} {d : Domid} {k : GuestKey} {v : GuestVal} {r : Reply}
    (h : y.call ⟨env, .put d k v⟩ = .ok (r, z)) :
    ∃ u w, Spares (getHash k.bytes) y.mcd.tiers u ∧ Clears (y.ctx env) u.Current u w 0 ∧
      (z.mcd.tiers = w ∨ ∃ loc mh, z.mcd.tiers = w.link loc mh) := by
  obtain ⟨t, hop, ht, -⟩ := call_spec h
  rw [ht]
  obtain ⟨ms, u, hev, -, hfor, hput⟩ := put_path hop
  rcases putEntry_spec hput hfor with ⟨-, hcl⟩ | ⟨mh, -, -, -, w, hcl, -, hlink⟩
  · exact ⟨u.tiers, t.tiers, hev.spares, hcl, .inl rfl⟩
  · exact ⟨u.tiers, w, hev.spares, hcl, .inr ⟨_, mh, hlink⟩⟩

/-- What is stored under a key is kept: its entries, headers and files. -/
structure Kept (k : GuestKey) (s t : Tiers) : Prop where
  entries : ∀ loc, ∀ mh ∈ s.entries loc, mh.hash = getHash k.bytes → mh ∈ t.entries loc
  headers : ∀ loc, ∀ mch ∈ s.headers loc, mch.hash = getHash k.bytes → mch ∈ t.headers loc
  files : ∀ d, t.store d (getHash k.bytes) = s.store d (getHash k.bytes)

theorem Spares.kept {k : GuestKey} {hash : UInt32} {s t : Tiers} (h : Spares hash s t)
    (hne : getHash k.bytes ≠ hash) : Kept k s t where
  entries loc mh hm hk := h.entries loc mh hm fun he => hne (hk.symm.trans he)
  headers loc mch hm hk := h.headers loc mch hm fun he => hne (hk.symm.trans he)
  files d := h.files d _ hne

/-- Two keys of one hash, the bytes of `bocs` and `krgc`. -/
def GuestKey.bocs : GuestKey := ⟨4, [98, 111, 99, 115], [98, 111, 99, 115], rfl, rfl⟩

def GuestKey.krgc : GuestKey := ⟨4, [107, 114, 103, 99], [107, 114, 103, 99], rfl, rfl⟩

end UniCache.Mcd
