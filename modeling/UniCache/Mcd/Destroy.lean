import UniCache.Mcd.Accounting

/-! What is left of a domain that was destroyed. -/
namespace UniCache.Mcd
open Base Base.Exec

section
variable {c : Ctx} {d : Domid} {r : Reply} {s t : State}

/-- `mcd_destroy` empties the lists of the domain and touches no other. -/
theorem destroy_emptied (hnd : s.tiers.live.Nodup) (h : Returns (mcdOp c (.destroy d)) s r t) :
    Emptied d s.tiers t.tiers := by
  obtain ⟨w, q, u, hreq, hflush, -, -, ht⟩ := destroy_inv hnd h
  have hdone := pMcdFlush_emptied hflush
  have hkeep : w.tiers.entries = s.tiers.entries ∧ w.tiers.headers = s.tiers.headers := by
    rcases hreq with hs | hs <;> rw [hs] <;> exact ⟨rfl, rfl⟩
  have hstore : ∀ e ≠ d, w.tiers.store e = s.tiers.store e := by
    intro e hne
    rcases hreq with hs | hs
    · rw [hs]
    · rw [hs]
      funext x
      exact if_neg hne
  rw [ht]
  exact ⟨hkeep.1 ▸ hdone.entries, hkeep.2 ▸ hdone.headers,
    fun e hne => (hdone.store e hne).trans (hstore e hne)⟩

end

namespace Tiers

/-- Nothing in memory and no header carries the id. -/
structure Free (t : Tiers) (d : Domid) : Prop where
  entries : ∀ loc, ∀ mh ∈ t.entries loc, mh.domain ≠ d
  headers : ∀ loc, ∀ mch ∈ t.headers loc, mch.domain ≠ d

/-- Nothing in the shared buckets carries the id. -/
def SharedFree (t : Tiers) (d : Domid) : Prop :=
  ∀ i, (∀ mh ∈ t.entries (.bucket i), mh.domain ≠ d) ∧
    ∀ mch ∈ t.headers (.bucket i), mch.domain ≠ d

/-- The entries in a domain's list carry its id. -/
def EntriesOwned (t : Tiers) : Prop := ∀ d, ∀ mh ∈ t.entries (.dom d), mh.domain = d

end Tiers

section
variable {c : Ctx} {t u : Tiers} {d : Domid}

/-- After the lists of `d` were emptied, the shared buckets decide. -/
theorem Emptied.free_iff (h : Emptied d t u) (ho : t.EntriesOwned) (hh : t.HeadersOwned) :
    u.Free d ↔ t.SharedFree d := by
  constructor
  · intro hfree i
    have he := hfree.entries (.bucket i)
    have hm := hfree.headers (.bucket i)
    rw [h.entries, Function.update_of_ne Loc.noConfusion] at he
    rw [h.headers, Function.update_of_ne Loc.noConfusion] at hm
    exact ⟨he, hm⟩
  · intro hshared
    have hlist {α : Type} {f : Loc → List α} {g : α → Domid} {l : Loc} {a : α}
        (hb : ∀ i, ∀ a ∈ f (.bucket i), g a ≠ d) (hd : ∀ e, ∀ a ∈ f (.dom e), g a = e)
        (ha : a ∈ Function.update f (.dom d) [] l) : g a ≠ d := by
      cases l with
      | bucket i =>
        rw [Function.update_of_ne Loc.noConfusion] at ha
        exact hb i a ha
      | dom e =>
        by_cases hed : e = d
        · rw [hed, Function.update_self] at ha
          cases ha
        · rw [Function.update_of_ne fun hl => hed (Loc.dom.inj hl)] at ha
          rw [hd e a ha]
          exact hed
    refine ⟨fun loc mh hmh => ?_, fun loc mch hmch => ?_⟩
    · rw [h.entries] at hmh
      exact hlist (fun i => (hshared i).1) ho hmh
    · rw [h.headers] at hmch
      exact hlist (fun i => (hshared i).2) hh hmch

theorem Tiers.EntriesOwned.act (ho : t.EntriesOwned) (h : Act c t u) : u.EntriesOwned := by
  intro d x hx
  cases h with
  | removal h =>
    rw [h.entries_eq] at hx
    exact ho d x (entries_drop_subset t _ _ _ hx)
  | link payer _ =>
    rcases mem_entries_link hx with hx | ⟨hloc, rfl⟩
    · exact ho d x hx
    · rw [← hloc] at payer
      exact payer.symm
  | touch loc mh now =>
    obtain ⟨y, hy, hdom⟩ := mem_entries_touch (f := McdHashT.domain) rfl hx
    rw [← hdom]
    exact ho d y hy
  | forget | configure | enrol => exact ho d x hx

/-- The record of a domain goes that nothing is charged to. -/
theorem Tiers.Charged.retire (hu : t.Charged) (hnd : t.live.Nodup) (he : t.entries (.dom d) = [])
    (hfree : ∀ loc, ∀ mh ∈ t.entries loc, mh.domain ≠ d) : (t.retire d).Charged where
  owned := hu.owned
  payers loc mh hmh := (List.mem_erase_of_ne (hfree loc mh hmh)).mpr (hu.payers loc mh hmh)
  used e hed := by
    have hne : e ≠ d := by
      rintro rfl
      exact hnd.not_mem_erase hed
    show (Function.update t.usedBytes d 0 e, Function.update t.usedPages d 0 e) =
      total t.entries (McdHashT.share e) ((t.retire d).locs .shared ++ (t.retire d).locs .partition)
    rw [Function.update_of_ne hne, Function.update_of_ne hne, total_append, total_retire he,
      total_retire he, ← total_append]
    exact hu.used e (List.mem_of_mem_erase hed)
  idle e hed := by
    show (Function.update t.usedBytes d 0 e, Function.update t.usedPages d 0 e) = 0
    by_cases h : e = d
    · rw [h, Function.update_self, Function.update_self]
      rfl
    · rw [Function.update_of_ne h, Function.update_of_ne h]
      exact hu.idle e fun hmem => hed ((List.mem_erase_of_ne h).mpr hmem)

end

/-- Calls among which no id is given to a second domain, and no domain is destroyed while something
in the shared buckets carries its id. -/
def Call.Tidy (y : System) (a : Call) : Prop :=
  a.cmd.Fresh y.mcd ∧ ∀ d, a.cmd = .destroy d → y.mcd.tiers.SharedFree d

section
variable {y z : System} {a : Call} {r : Reply} {l : List (Call × Reply)} {d : Domid} {env : Env}

theorem call_entriesOwned (hc : y.mcd.tiers.Counted) (ho : y.mcd.tiers.EntriesOwned)
    (hfresh : a.cmd.Fresh y.mcd) (h : y.call a = .ok (r, z)) : z.mcd.tiers.EntriesOwned := by
  obtain ⟨t, hop, hz, -⟩ := call_spec h
  rw [hz]
  by_cases hd : a.cmd.Destroys
  · cases hcmd : a.cmd with
    | destroy d =>
      rw [hcmd] at hop
      obtain ⟨u, hupkeep, -, -, ht⟩ := destroy_upkeeps hc.live hop
      have hu : u.EntriesOwned :=
        hupkeep.acts.induct (fun hact hi => Tiers.EntriesOwned.act hi hact) ho
      rw [ht]
      exact hu
    | _ =>
      rw [hcmd] at hd
      exact hd.elim
  · exact (mcdOp_acts hc.headersOwned hfresh hd hop).induct
      (fun hact hi => Tiers.EntriesOwned.act hi hact) ho

theorem run_entriesOwned (h : Run Call.Fresh .start l y) :
    y.mcd.tiers.Counted ∧ y.mcd.tiers.EntriesOwned :=
  h.invariant (I := fun y => y.mcd.tiers.Counted ∧ y.mcd.tiers.EntriesOwned)
    (fun hc hstep => ⟨call_counted hc.1 hstep.1 hstep.2,
      call_entriesOwned hc.1 hc.2 hstep.1 hstep.2⟩)
    ⟨counted_start, charged_start.owned⟩

/-- A tidy call keeps the shares of the domains exact, the destruction of a domain included. -/
theorem call_charged_tidy (hc : y.mcd.tiers.Counted) (hu : y.mcd.tiers.Charged)
    (htidy : Call.Tidy y a) (h : y.call a = .ok (r, z)) : z.mcd.tiers.Charged := by
  by_cases hd : a.cmd.Destroys
  · cases hcmd : a.cmd with
    | destroy d =>
      obtain ⟨t, hop, hz, -⟩ := call_spec h
      rw [hcmd] at hop
      obtain ⟨u, hupkeep, hempty, -, ht⟩ := destroy_upkeeps hc.live hop
      obtain ⟨huc, huu⟩ := hu.acts hc hupkeep.acts
      have hfree : t.tiers.Free d := ((destroy_emptied hc.live hop).free_iff hu.owned
        hc.headersOwned).mpr (htidy.2 d hcmd)
      rw [hz]
      rw [ht] at hfree ⊢
      exact huu.retire huc.live hempty hfree.entries
    | _ =>
      rw [hcmd] at hd
      exact hd.elim
  · exact call_charged hc hu htidy.1 hd h

theorem run_charged_tidy {x : System} (hc : x.mcd.tiers.Counted) (hu : x.mcd.tiers.Charged)
    (h : Run Call.Tidy x l y) : y.mcd.tiers.Counted ∧ y.mcd.tiers.Charged :=
  h.invariant (I := fun y => y.mcd.tiers.Counted ∧ y.mcd.tiers.Charged)
    (fun hi hstep => ⟨call_counted hi.1 hstep.1.1 hstep.2,
      call_charged_tidy hi.1 hi.2 hstep.1 hstep.2⟩) ⟨hc, hu⟩

end

/-- The sums of every domain fit into its counters. -/
def State.InRange (s : State) : Prop :=
  ∀ d ∈ s.domains, ((s.entriesOf d.domid).map (·.nrBytes.toNat)).sum < 2 ^ 64 ∧
    ((s.entriesOf d.domid).map (·.nrPages.toNat)).sum < 2 ^ 32

/-- No removal takes more from a domain's counters than they hold. -/
def State.Covered (s : State) : Prop :=
  ∀ d ∈ s.domains, ∀ mh ∈ s.entriesOf d.domid,
    mh.bytes ≤ d.nrUsedBytes ∧ mh.nrPages ≤ d.nrUsedPages

theorem State.Exact.covered {s : State} (h : s.Exact) (hr : s.InRange) : s.Covered := by
  intro d hd mh hmh
  obtain ⟨hbytes, hpages⟩ := hr d hd
  constructor
  · have hb : UInt64.toNat ∘ McdHashT.bytes = fun mh => mh.nrBytes.toNat := by
      funext mh
      simp [McdHashT.bytes]
    rw [UInt64.le_iff_toNat_le, h.nrUsedBytes d hd]
    exact value_le_sum rfl UInt64.toNat_add (by rwa [List.map_map, hb]) (List.mem_map_of_mem hmh)
  · rw [UInt32.le_iff_toNat_le, h.nrUsedPages d hd]
    exact value_le_sum rfl UInt32.toNat_add (by rwa [List.map_map]) (List.mem_map_of_mem hmh)

section
variable {y z : System} {r : Reply} {l : List (Call × Reply)} {d : Domid} {env : Env}

end

instance (t : Tiers) (d : Domid) : Decidable (t.SharedFree d) :=
  inferInstanceAs (Decidable (∀ _, _ ∧ _))

/-- Domain 1 keeps a key in its own list. -/
def System.onePrivate : System := System.start.after
  [⟨.calm, .create 1⟩, ⟨.calm, .cacheMode 0 1⟩, ⟨.calm, .put 1 (.single 1) (.single 7)⟩]

/-- Domain 1 has a shared entry. -/
def System.oneShared : System := System.start.after
  [⟨.calm, .create 1⟩, ⟨.calm, .enable⟩, ⟨.calm, .put 1 (.single 1) (.single 7)⟩]

/-- Domain 1 has a shared header. -/
def System.oneOutsourced : System :=
  System.oneShared.after [⟨.full .done, .put 1 (.single 2) (.single 8)⟩]

end UniCache.Mcd
