import UniCache.Mcd.Bookings
import UniCache.Mcd.Destroy

/-! The key count of a domain over whole runs, against the entries that carry its id. -/
namespace UniCache.Mcd
open Base Base.Exec

/-- What an entry adds to the key count of domain `d`. -/
def McdHashT.tally (d : Domid) (mh : McdHashT) : UInt32 := if mh.domain = d then 1 else 0

/-- The lists that may hold entries of domain `d`. -/
def keyLocs (d : Domid) : List Loc := (List.finRange 100).map .bucket ++ [.dom d]

def Books.keys (b : Books) (d : Domid) : UInt32 := total b.entries (McdHashT.tally d) (keyLocs d)

/-- Every entry is where its domain pays for it, its domain is listed, and the key count of a domain
is the number of its entries and `p` more. -/
structure Books.Tallied (p : Domid → UInt32) (b : Books) : Prop where
  owned : ∀ d, ∀ mh ∈ b.entries (.dom d), mh.domain = d
  payers : ∀ loc, ∀ mh ∈ b.entries loc, (b.aside.stats mh.domain).isSome
  nrKeys : ∀ d k, b.aside.stats d = some k → k.nrKeys = b.keys d + p d
  unlisted : ∀ d, b.aside.stats d = none → p d = 0

section
variable {b : Books} {loc : Loc} {mh : McdHashT} {d : Domid} {p : Domid → UInt32}

theorem nodup_keyLocs (d : Domid) : (keyLocs d).Nodup := by
  unfold keyLocs
  rw [List.nodup_append]
  refine ⟨(List.nodup_finRange 100).map fun _ _ h => Loc.bucket.inj h, List.nodup_singleton _, ?_⟩
  intro x hx y hy hxy
  obtain ⟨i, -, rfl⟩ := List.mem_map.mp hx
  rw [List.mem_singleton.mp hy] at hxy
  cases hxy

theorem tally_self : mh.tally mh.domain = 1 := if_pos rfl

theorem tally_of_ne (h : mh.domain ≠ d) : mh.tally d = 0 := if_neg h

theorem mem_keyLocs (h : loc.payer mh = mh.domain) : loc ∈ keyLocs mh.domain := by
  cases loc with
  | bucket i =>
    exact List.mem_append_left _ (List.mem_map_of_mem (List.mem_finRange i))
  | dom e =>
    have he : e = mh.domain := h
    rw [he]
    exact List.mem_append_right _ List.mem_cons_self

/-- An entry counts for no domain whose lists do not include its own. -/
theorem tally_of_notMem (h : loc.payer mh = mh.domain) (hloc : loc ∉ keyLocs d) : mh.tally d = 0 := by
  apply tally_of_ne
  intro hd
  rw [← hd] at hloc
  exact hloc (mem_keyLocs h)

theorem keys_erase (h : loc.payer mh = mh.domain) (hmem : mh ∈ b.entries loc) (d : Domid) :
    (b.setEntries loc ((b.entries loc).erase mh)).keys d + mh.tally d = b.keys d := by
  by_cases hloc : loc ∈ keyLocs d
  · exact total_erase (nodup_keyLocs d) hloc hmem
  · rw [tally_of_notMem h hloc, UInt32.add_zero]
    exact total_update_of_notMem hloc _

theorem keys_concat (h : loc.payer mh = mh.domain) (d : Domid) :
    (b.setEntries loc (b.entries loc ++ [mh])).keys d = b.keys d + mh.tally d := by
  by_cases hloc : loc ∈ keyLocs d
  · exact total_concat (nodup_keyLocs d) hloc mh
  · rw [tally_of_notMem h hloc, UInt32.add_zero]
    exact total_update_of_notMem hloc _

theorem unlisted_setStat {a : Aside} {e : Domid} {f : KeyStat → KeyStat}
    (h : (a.setStat e f).stats d = none) : a.stats d = none := by
  have hsome := isSome_setStat a e d f
  rw [h] at hsome
  simpa using hsome.symm

theorem Books.Tallied.payer_eq (hb : b.Tallied p) (hmem : mh ∈ b.entries loc) :
    loc.payer mh = mh.domain := by
  cases loc with
  | bucket i => rfl
  | dom e => exact (hb.owned e mh hmem).symm

theorem Books.Tallied.strike (hb : b.Tallied p) (hmem : mh ∈ b.entries loc) :
    (b.book (.strike loc mh)).Tallied p := by
  have hp := hb.payer_eq hmem
  have hsub : ∀ l x, x ∈ (b.book (.strike loc mh)).entries l → x ∈ b.entries l := by
    intro l x hx
    exact (update_erase_sublist b.entries loc mh l).subset hx
  constructor
  · exact fun e x hx => hb.owned e x (hsub _ x hx)
  · intro l x hx
    show ((b.aside.setStat _ _).stats _).isSome
    rw [isSome_setStat]
    exact hb.payers l x (hsub l x hx)
  · intro e k hk
    obtain ⟨k₀, hk₀, rfl⟩ := stats_setStat hk
    have hkeys := keys_erase hp hmem e
    have hold := hb.nrKeys e k₀ hk₀
    show _ = (b.setEntries loc _).keys e + p e
    rw [hp]
    by_cases he : e = mh.domain
    · subst he
      rw [tally_self] at hkeys
      rw [if_pos rfl]
      show k₀.nrKeys - 1 = _
      grind
    · rw [if_neg he, hold, ← hkeys, tally_of_ne fun h => he h.symm, UInt32.add_zero]
  · exact fun e he => hb.unlisted e (unlisted_setStat he)

/-- An entry is added, which its domain's key count shows and `q` more. -/
theorem Books.Tallied.add (hb : b.Tallied p) (hp : loc.payer mh = mh.domain)
    (hsome : (b.aside.stats mh.domain).isSome) {b' : Books} {f : KeyStat → KeyStat} {q : UInt32}
    (hent : b'.entries = Function.update b.entries loc (b.entries loc ++ [mh]))
    (hstat : b'.aside.stats = (b.aside.setStat mh.domain f).stats)
    (hf : ∀ k, (f k).nrKeys = k.nrKeys + 1 + q) :
    b'.Tallied fun d => p d + if mh.domain = d then q else 0 := by
  have hmem : ∀ l x, x ∈ b'.entries l → x ∈ b.entries l ∨ l = loc ∧ x = mh := by
    intro l x hx
    rw [hent] at hx
    exact mem_of_update_append hx
  constructor
  · intro e x hx
    rcases hmem _ x hx with hx | ⟨hl, rfl⟩
    · exact hb.owned e x hx
    · rw [← hl] at hp
      exact hp.symm
  · intro l x hx
    rw [hstat, isSome_setStat]
    rcases hmem l x hx with hx | ⟨-, rfl⟩
    · exact hb.payers l x hx
    · exact hsome
  · intro e k hk
    rw [hstat] at hk
    obtain ⟨k₀, hk₀, rfl⟩ := stats_setStat hk
    have hkeys : b'.keys e = b.keys e + mh.tally e := by
      have hsum := keys_concat (b := b) hp e
      unfold Books.keys at hsum ⊢
      rw [hent]
      exact hsum
    have hold := hb.nrKeys e k₀ hk₀
    by_cases he : mh.domain = e
    · subst he
      rw [if_pos rfl, if_pos rfl, hf, hkeys, tally_self, hold]
      grind
    · have hne : ¬ e = mh.domain := fun h => he h.symm
      rw [if_neg hne, if_neg he, hkeys, tally_of_ne he, hold]
      grind
  · intro e he
    rw [hstat] at he
    have hnone := unlisted_setStat he
    have hne : mh.domain ≠ e := by
      rintro rfl
      rw [hnone] at hsome
      cases hsome
    rw [if_neg hne, hb.unlisted e hnone, UInt32.add_zero]

theorem Books.Tallied.enter (hb : b.Tallied p) (hp : loc.payer mh = mh.domain)
    (hsome : (b.aside.stats mh.domain).isSome) : (b.book (.enter loc mh)).Tallied p := by
  have hadd : (b.book (.enter loc mh)).Tallied fun d => p d + if mh.domain = d then 0 else 0 :=
    hb.add (f := .gain) hp hsome rfl rfl fun k => (UInt32.add_zero _).symm
  simpa using hadd

/-- The key count of a `put` shows its entry twice. -/
theorem Books.Tallied.record (hb : b.Tallied p) (hp : loc.payer mh = mh.domain)
    (hsome : (b.aside.stats mh.domain).isSome) :
    (b.book (.record loc mh)).Tallied fun d => p d + if mh.domain = d then 1 else 0 := by
  refine hb.add (f := KeyStat.noteCost mh.queryTimeMs ∘ KeyStat.gain) hp hsome rfl ?_ fun k => rfl
  have hstat := congrArg Aside.stats
    (setStat_setStat b.aside mh.domain .gain (.noteCost mh.queryTimeMs))
  exact hstat

/-- Books that differ in nothing that is tallied. -/
theorem Books.Tallied.congr {b' : Books} (hb : b.Tallied p)
    (hent : ∀ l, (b'.entries l).map (·.domain) = (b.entries l).map (·.domain))
    (hkeys : ∀ e, b'.keys e = b.keys e) (hstat : b'.aside.stats = b.aside.stats) : b'.Tallied p := by
  have hmem : ∀ l x, x ∈ b'.entries l → ∃ y ∈ b.entries l, y.domain = x.domain := by
    intro l x hx
    have hx' : x.domain ∈ (b'.entries l).map (·.domain) := List.mem_map_of_mem hx
    rw [hent l] at hx'
    exact List.mem_map.mp hx'
  constructor
  · intro e x hx
    obtain ⟨y, hy, hxy⟩ := hmem _ x hx
    rw [← hxy]
    exact hb.owned e y hy
  · intro l x hx
    obtain ⟨y, hy, hxy⟩ := hmem l x hx
    rw [← hxy, hstat]
    exact hb.payers l y hy
  · intro e k hk
    rw [hstat] at hk
    rw [hkeys]
    exact hb.nrKeys e k hk
  · intro e he
    rw [hstat] at he
    exact hb.unlisted e he

theorem Books.Tallied.touch (hb : b.Tallied p) (now : Int) : (b.book (.touch loc mh now)).Tallied p := by
  refine hb.congr (fun l => map_entries_touch_books rfl b loc l) (fun e => ?_) rfl
  exact total_replace b.entries _ loc rfl

theorem Books.Tallied.enrol (hb : b.Tallied p) (hnone : b.aside.stats d = none) (shares : Shares Domid) :
    (b.book (.enrol d shares)).Tallied p := by
  have hstat : ∀ e, e ≠ d → (b.book (.enrol d shares)).aside.stats e = b.aside.stats e :=
    fun e he => Function.update_of_ne he ..
  have hdomain : ∀ l, ∀ x ∈ b.entries l, x.domain ≠ d := by
    rintro l x hx rfl
    have hsome := hb.payers l x hx
    rw [hnone] at hsome
    cases hsome
  constructor
  · exact hb.owned
  · intro l x hx
    rw [hstat _ (hdomain l x hx)]
    exact hb.payers l x hx
  · intro e k hk
    by_cases he : e = d
    · subst he
      have hself : (b.book (.enrol e shares)).aside.stats e = some ⟨0, 0⟩ := Function.update_self ..
      rw [hself] at hk
      cases hk
      have hzero : b.keys e = 0 := total_eq_zero fun l _ x hx => tally_of_ne (hdomain l x hx)
      show (0 : UInt32) = b.keys e + p e
      rw [hzero, hb.unlisted e hnone]
      rfl
    · rw [hstat e he] at hk
      exact hb.nrKeys e k hk
  · intro e he
    by_cases hed : e = d
    · rw [hed]
      exact hb.unlisted d hnone
    · rw [hstat e hed] at he
      exact hb.unlisted e he

theorem Books.Tallied.plain {e : Booking} (hb : b.Tallied p) (he : e.Plain) (ho : e.Owned)
    (ha : e.Allowed b) : (b.book e).Tallied p := by
  cases e with
  | strike loc mh => exact hb.strike ha
  | enter loc mh => exact hb.enter ho ha.1
  | touch loc mh now => exact hb.touch now
  | chart | tune => exact hb.congr (fun _ => rfl) (fun _ => rfl) rfl
  | record | weigh | enrol | retire => exact he.elim

theorem Plainly.tallied {P : Prop} {s t : State} (h : Plainly P s t) (hP : P)
    (hs : s.books.Tallied p) : t.books.Tallied p :=
  h.invariant (fun hplain howned ha hb => hb.plain hplain (howned hP) ha) hs

end

/-! ### Runs -/

def Cmd.putsFor (d : Domid) : Cmd → Bool
  | .put e _ _ => e = d
  | _ => false

/-- The values that domain `d` has stored. -/
def puts (d : Domid) (l : List (Call × Reply)) : Nat :=
  l.countP fun x => x.1.cmd.putsFor d && x.2.rc = .errNo

section
variable {y z : System} {a : Call} {r : Reply} {l : List (Call × Reply)} {d : Domid}

theorem puts_concat_of_not (h : ¬ (a.cmd.putsFor d ∧ r.rc = .errNo)) :
    puts d (l ++ [(a, r)]) = puts d l := by
  unfold puts
  rw [List.countP_append, List.countP_singleton, if_neg (by simpa using h), Nat.add_zero]

theorem putsFor_closing (h : a.cmd.putsFor d ∧ r.rc = .errNo) : a.cmd.Closing r := by
  cases hcmd : a.cmd with
  | put e k v => exact h.2
  | _ =>
    rw [hcmd] at h
    cases h.1

/-- Every call keeps the tally; a `put` that succeeds adds one to it. -/
theorem call_tallied (hc : y.mcd.tiers.Counted)
    (hy : y.mcd.books.Tallied fun d => UInt32.ofNat (puts d l)) (hkeeps : Call.Keeps y a)
    (h : y.call a = .ok (r, z)) :
    z.mcd.books.Tallied fun d => UInt32.ofNat (puts d (l ++ [(a, r)])) := by
  have hother : ∀ {b : Books}, (b.Tallied fun d => UInt32.ofNat (puts d l)) →
      (∀ d, ¬ (a.cmd.putsFor d ∧ r.rc = .errNo)) →
      b.Tallied fun d => UInt32.ofNat (puts d (l ++ [(a, r)])) := by
    intro b hb hnot
    simp only [puts_concat_of_not (hnot _)]
    exact hb
  rcases call_booked hc.live hkeeps.1 h with ⟨hnot, hp⟩ | ⟨u, e, hp, hallow, hclose, hz⟩
  · exact hother (hp.tallied hc.headersOwned hy) fun d hput => hnot (putsFor_closing hput)
  · have hu := hp.tallied hc.headersOwned hy
    rw [hz]
    generalize hcmd : a.cmd = cmd at hclose
    cases hclose with
    | @put id k v mh stored domain queryTimeMs valSize =>
      have hrecord := hu.record hallow.1 hallow.2
      have hcount : ∀ d, UInt32.ofNat (puts d (l ++ [(a, r)])) =
          UInt32.ofNat (puts d l) + if mh.domain = d then 1 else 0 := by
        intro d
        unfold puts
        rw [List.countP_append, List.countP_singleton, UInt32.ofNat_add, hcmd, domain]
        by_cases hd : id = d
        · simp [Cmd.putsFor, hd, stored]
        · simp [Cmd.putsFor, hd]
      simp only [hcount]
      exact hrecord
    | weight shares =>
      apply hother
      · exact hu.congr (fun _ => rfl) (fun _ => rfl) rfl
      · rw [hcmd]
        simp [Cmd.putsFor]
    | create created shares =>
      apply hother (hu.enrol hallow shares)
      rw [hcmd]
      simp [Cmd.putsFor]
    | destroy shares =>
      have hdestroys := hkeeps.2
      rw [hcmd] at hdestroys
      exact (hdestroys trivial).elim

theorem tallied_start : System.start.mcd.books.Tallied fun d => UInt32.ofNat (puts d []) where
  owned _ _ h := by
    simp [State.books, State.entries, findMcdDom, System.start, mcdStart] at h
  payers loc _ h := by
    cases loc <;> simp [State.books, State.entries, findMcdDom, System.start, mcdStart] at h
  nrKeys _ _ h := by
    simp [State.books, State.aside, findMcdDom, System.start, mcdStart] at h
  unlisted _ _ := rfl

theorem run_tallied (h : Run Call.Keeps .start l y) :
    y.mcd.tiers.Counted ∧ y.mcd.books.Tallied fun d => UInt32.ofNat (puts d l) := by
  refine h.invariant_history (I := fun l y => y.mcd.tiers.Counted ∧
    y.mcd.books.Tallied fun d => UInt32.ofNat (puts d l)) ?_ [] ⟨counted_start, tallied_start⟩
  rintro pre y ⟨a, r⟩ z ⟨hc, hy⟩ ⟨hkeeps, hcall⟩
  exact ⟨call_counted hc hkeeps.1 hcall, call_tallied hc hy hkeeps hcall⟩

theorem sum_tally (d : Domid) (l : List McdHashT) :
    (l.map (McdHashT.tally d)).sum = UInt32.ofNat (l.filter (·.domain = d)).length := by
  induction l with
  | nil => rfl
  | cons mh l ih =>
    rw [List.map_cons, List.sum_cons, ih]
    by_cases h : mh.domain = d
    · subst h
      rw [tally_self, List.filter_cons_of_pos (by simp), List.length_cons, UInt32.ofNat_add,
        UInt32.add_comm]
      rfl
    · rw [tally_of_ne h, UInt32.zero_add, List.filter_cons_of_neg (by simpa using h)]

/-- Of the domains' lists only its own holds entries of a domain. -/
theorem keys_eq_length {s : State} {p : Domid → UInt32} (hnd : s.tiers.live.Nodup)
    (hs : s.books.Tallied p) (hd : d ∈ s.tiers.live) :
    s.books.keys d = UInt32.ofNat (s.entriesOf d).length := by
  have hprivate : total s.entries (McdHashT.tally d) (s.tiers.locs .partition) =
      total s.entries (McdHashT.tally d) [.dom d] := by
    have hmem : Loc.dom d ∈ s.tiers.locs .partition := List.mem_map_of_mem hd
    rw [total_split hmem, total_cons, total_nil]
    congr 1
    apply total_eq_zero
    intro l hl mh hmh
    obtain ⟨e, -, rfl⟩ := List.mem_map.mp (List.mem_of_mem_erase hl)
    apply tally_of_ne
    rw [hs.owned e mh hmh]
    rintro rfl
    exact (nodup_locs hnd .partition).not_mem_erase hl
  have hkeys : s.books.keys d = total s.tiers.entries (McdHashT.tally d) (s.tiers.locs .shared) +
      total s.tiers.entries (McdHashT.tally d) (s.tiers.locs .partition) := by
    have hsplit := total_append s.entries (McdHashT.tally d) (s.tiers.locs .shared) [.dom d]
    rw [← hprivate] at hsplit
    exact hsplit
  rw [hkeys, total_eq_flatMap, total_eq_flatMap, flatMap_locs_shared, flatMap_locs_partition hnd,
    ← List.sum_append, ← List.map_append, sum_tally]
  rfl

/-- As long as no domain is destroyed, a key count is the number of the domain's entries and one more
for every value it has stored; so it is exact, in 32 bits, only if it has stored none. -/
theorem nrKeys_exact_iff (h : Run Call.Keeps .start l y) :
    ∀ d ∈ y.mcd.domains,
      d.nrKeys = UInt32.ofNat ((y.mcd.entriesOf d.domid).length + puts d.domid l) ∧
      (d.nrKeys = UInt32.ofNat (y.mcd.entriesOf d.domid).length ↔ 2 ^ 32 ∣ puts d.domid l) := by
  intro d hd
  obtain ⟨hc, hy⟩ := run_tallied h
  have hfind : findMcdDom d.domid y.mcd = some d := find_of_mem hc.live hd
  have hstat : y.mcd.books.aside.stats d.domid = some d.keyStat := by
    show (findMcdDom d.domid y.mcd).map _ = _
    rw [hfind]
    rfl
  have hkeys : d.nrKeys = _ := hy.nrKeys d.domid d.keyStat hstat
  rw [keys_eq_length hc.live hy (List.mem_map_of_mem hd), ← UInt32.ofNat_add] at hkeys
  refine ⟨hkeys, ?_⟩
  rw [hkeys]
  constructor
  · intro heq
    have hmod := congrArg UInt32.toNat heq
    rw [UInt32.toNat_ofNat', UInt32.toNat_ofNat'] at hmod
    omega
  · intro hdvd
    apply UInt32.toNat_inj.mp
    rw [UInt32.toNat_ofNat', UInt32.toNat_ofNat']
    omega

end

/-- Domain 1 has looked up a key, of which it holds a header-only entry, and has stored nothing. -/
def System.oneMeasured : System := System.start.after [⟨.calm, .create 1⟩, ⟨.calm, .check 1 (.single 1)⟩]

theorem nrKeys_exact_oneMeasured :
    System.oneMeasured.mcd.domains.map (fun d => (d.domid, d.nrKeys)) = [(1, 1)] ∧
      ∀ d ∈ System.oneMeasured.mcd.domains,
        d.nrKeys = UInt32.ofNat (System.oneMeasured.mcd.entriesOf d.domid).length := by
  have hkeys : System.oneMeasured.mcd.domains.map (fun d => (d.domid, d.nrKeys)) = [(1, 1)] := by
    decide +kernel
  have hruns : System.start.runs Call.Keeps [⟨.calm, .create 1⟩, ⟨.calm, .check 1 (.single 1)⟩] := by
    decide +kernel
  have hrun : ∃ l, l.map (·.1) = _ ∧ Run Call.Keeps .start l System.oneMeasured := run_of_runs hruns
  generalize System.oneMeasured = y at *
  obtain ⟨l, hl, hrun⟩ := hrun
  refine ⟨hkeys, fun d hd => ((nrKeys_exact_iff hrun d hd).2).mpr ?_⟩
  have hnone : puts d.domid l = 0 := by
    rw [puts, List.countP_eq_zero]
    intro x hx hput
    have hmem : x.1 ∈ l.map (·.1) := List.mem_map_of_mem hx
    rw [hl, List.mem_cons, List.mem_singleton] at hmem
    rcases hmem with hmem | hmem <;> rw [hmem] at hput <;> simp [Cmd.putsFor] at hput
  rw [hnone]
  exact Nat.dvd_zero _

/-- Domain 1 has stored one value, and its key count is 2. -/
theorem put_counts_its_key_twice :
    (∃ l, Run Call.Keeps .start l System.oneShared) ∧
      System.oneShared.mcd.domains.map (fun d => (d.domid, d.nrKeys)) = [(1, 2)] ∧
      (System.oneShared.mcd.entriesOf 1).length = 1 := by
  have hruns : System.start.runs Call.Keeps [⟨.calm, .create 1⟩, ⟨.calm, .enable⟩,
      ⟨.calm, .put 1 (.single 1) (.single 7)⟩] := by decide +kernel
  obtain ⟨l, -, hrun⟩ := run_of_runs hruns
  exact ⟨⟨l, hrun⟩, by decide +kernel, by decide +kernel⟩

end UniCache.Mcd
