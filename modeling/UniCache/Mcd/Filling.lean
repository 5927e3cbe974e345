import Mathlib.Data.Fintype.Prod
import UniCache.Base.Spread
import UniCache.Mcd.WeightReclaim

/-! A guest fills the shared cache: long keys with as many different hashes as are wanted, and the
`put`s that store them all. -/
namespace UniCache.Mcd
open Base Base.Exec

/-! ### Long keys with different hashes -/

/-- 1024 bytes that differ in the last four only. -/
def longBytes (x : Fin 2048 × Fin 65536) : List UInt8 :=
  List.replicate 1020 0 ++ [UInt8.ofNat x.1, UInt8.ofNat (x.1 / 256), UInt8.ofNat x.2,
    UInt8.ofNat (x.2 / 256)]

theorem length_longBytes (x : Fin 2048 × Fin 65536) : (longBytes x).length = 1024 := by
  rw [longBytes, List.length_append, List.length_replicate]
  rfl

def GuestKey.long (x : Fin 2048 × Fin 65536) : GuestKey :=
  ⟨1024, longBytes x, longBytes x, length_longBytes x, length_longBytes x⟩

theorem get16bits_ofNat {n : Nat} (hn : n < 65536) :
    get16bits (UInt8.ofNat n) (UInt8.ofNat (n / 256)) = UInt32.ofNat n := by
  have hlo : (UInt8.ofNat n).toUInt32.toNat = n % 256 := rfl
  have hhi : ((UInt8.ofNat (n / 256)).toUInt32 <<< 8).toNat = (n / 256) <<< 8 := by
    have hbyte : (UInt8.ofNat (n / 256)).toUInt32.toNat = n / 256 :=
      UInt8.toNat_ofNat_of_lt' (show n / 256 < 256 by omega)
    rw [UInt32.toNat_shiftLeft, hbyte]
    have hshift : (8 : UInt32).toNat % 32 = 8 := rfl
    rw [hshift, Nat.shiftLeft_eq]
    omega
  apply UInt32.toNat_inj.mp
  rw [get16bits, UInt32.toNat_or, hlo, hhi, Nat.or_comm,
    ← Nat.shiftLeft_add_eq_or_of_lt (by omega), Nat.shiftLeft_eq,
    UInt32.toNat_ofNat_of_lt' (Nat.lt_trans hn (by decide))]
  omega

/-- The hash of one turn of the loop, before its last addition. -/
def hashTurn (hash : UInt32) (x : Fin 2048 × Fin 65536) : UInt32 :=
  ((hash + UInt32.ofNat x.1) <<< 16) ^^^ ((UInt32.ofNat x.2 <<< 11) ^^^ (hash + UInt32.ofNat x.1))

theorem hashLoop_zeros (n : Nat) (hash : UInt32) :
    ∃ h, ∀ data, hashLoop hash (List.replicate (4 * n) 0 ++ data) = hashLoop h data := by
  induction n generalizing hash with
  | zero => exact ⟨hash, fun _ => rfl⟩
  | succ n ih =>
    obtain ⟨h, hh⟩ := ih _
    exact ⟨h, fun data => hh data⟩

theorem getHash_longBytes : ∃ h, ∀ x, getHash (longBytes x) =
    hashMix (hashTurn h x + (hashTurn h x >>> 11)) := by
  obtain ⟨h, hh⟩ := hashLoop_zeros 255 1024
  refine ⟨h, fun x => ?_⟩
  rw [getHash, length_longBytes, if_neg (by decide)]
  have hloop : hashLoop (UInt32.ofNat 1024) (longBytes x) =
      hashTurn h x + (hashTurn h x >>> 11) := by
    rw [longBytes]
    refine (hh _).trans ?_
    rw [hashLoop, hashLoop, get16bits_ofNat (by omega), get16bits_ofNat (by omega)]
    rfl
  rw [hloop]

theorem toNat_shiftLeft_ofNat {n : Nat} (hn : n < 65536) :
    (UInt32.ofNat n <<< 11).toNat = n * 2048 := by
  have hshift : (11 : UInt32).toNat % 32 = 11 := rfl
  rw [UInt32.toNat_shiftLeft, UInt32.toNat_ofNat_of_lt' (Nat.lt_trans hn (by decide)), hshift,
    Nat.shiftLeft_eq]
  omega

/-- The low bits hold the sum with the first number. -/
theorem hashTurn_low (hash : UInt32) (x : Fin 2048 × Fin 65536) :
    (hashTurn hash x).toNat % 2 ^ 11 = (hash.toNat + x.1) % 2 ^ 11 := by
  have hsum : (hash + UInt32.ofNat x.1).toNat % 2 ^ 11 = (hash.toNat + x.1) % 2 ^ 11 := by
    rw [UInt32.toNat_add, UInt32.toNat_ofNat_of_lt' (Nat.lt_trans x.1.isLt (by decide))]
    omega
  have hhigh : ((hash + UInt32.ofNat x.1) <<< 16).toNat % 2 ^ 11 = 0 := by
    have hshift : (16 : UInt32).toNat % 32 = 16 := rfl
    rw [UInt32.toNat_shiftLeft, hshift, Nat.shiftLeft_eq]
    omega
  have hmid : (UInt32.ofNat x.2 <<< 11).toNat % 2 ^ 11 = 0 := by
    rw [toNat_shiftLeft_ofNat x.2.isLt]
    omega
  rw [hashTurn, UInt32.toNat_xor, UInt32.toNat_xor, Nat.xor_mod_two_pow, Nat.xor_mod_two_pow, hhigh,
    hmid, hsum, Nat.zero_xor, Nat.zero_xor]

theorem hashTurn_injective (hash : UInt32) : Function.Injective (hashTurn hash) := by
  intro x y hxy
  have hlow := congrArg (fun z : UInt32 => z.toNat % 2 ^ 11) hxy
  simp only [hashTurn_low] at hlow
  have hfirst : x.1 = y.1 := Fin.ext (by omega)
  -- with the same sum on both sides only the middle parts can differ
  rw [hashTurn, hashTurn, hfirst, UInt32.xor_right_inj, UInt32.xor_left_inj] at hxy
  have hmid := congrArg UInt32.toNat hxy
  rw [toNat_shiftLeft_ofNat x.2.isLt, toNat_shiftLeft_ofNat y.2.isLt] at hmid
  exact Prod.ext hfirst (Fin.ext (by omega))

theorem spread_hashMix : Spread 8 hashMix :=
  (spread_add_shiftRight 6).comp ((spread_xor_shiftLeft (k := 25) (by decide)).comp
    ((spread_add_shiftRight 17).comp ((spread_xor_shiftLeft (k := 4) (by decide)).comp
      ((spread_add_shiftRight 5).comp (spread_xor_shiftLeft (k := 3) (by decide))))))

theorem spread_getHash : Spread 16 fun x => getHash (longBytes x) := by
  obtain ⟨h, hh⟩ := getHash_longBytes
  have hfun : (fun x => getHash (longBytes x)) =
      hashMix ∘ (fun z : UInt32 => z + (z >>> 11)) ∘ hashTurn h := funext hh
  rw [hfun]
  exact spread_hashMix.comp ((spread_add_shiftRight 11).comp
    (spread_of_injective (hashTurn_injective h)))

/-- Up to `2 ^ 23` of the keys have different hashes. -/
theorem exists_longKeys {N : Nat} (hN : N ≤ 2 ^ 23) :
    ∃ l : List (Fin 2048 × Fin 65536), l.length = N ∧
      (l.map fun x => getHash (longBytes x)).Nodup := by
  apply spread_getHash.exists_list (s := Finset.univ) (by decide)
  rw [Finset.card_univ, Fintype.card_prod, Fintype.card_fin, Fintype.card_fin]
  omega

/-! ### A `put` with room -/

section
variable {c : Ctx} {s s₁ : State} {id : Domid} {addr : Nat}

theorem createMcdHashT_charges {ks vs : UInt32}
    (hmalloc : Returns (mcdMalloc c (entrySize ks vs) id) s (some addr) s₁)
    (hsame : s₁.tiers = s.tiers) (hlive : id ∈ s.tiers.live) :
    ∃ mh t, Returns (createMcdHashT c id ks vs) s (some mh) t ∧
      (∃ now stale, mh = freshHashT addr id ks vs now stale) ∧ (findMcdDom id t).isSome ∧
      t.tiers = s.tiers.charge id s.tiers.cfg.cacheMode mh := by
  have hsome : (findMcdDom id s₁).isSome := by
    rw [isSome_findMcdDom, hsame]
    exact hlive
  refine ⟨_, _, (returns_createMcdHashT hmalloc).mpr ⟨hsome, _, rfl, rfl, rfl⟩, ⟨_, _, rfl⟩,
    isSome_accounted hsome, ?_⟩
  rw [← hsame]
  exact tiers_accounted hsome

/-- Where memory is found at once, the entry is linked and nothing else happens. -/
theorem putEntry_links {k : GuestKey} {v : GuestVal} {loc : Loc} (ms : UInt32)
    (hmalloc : Returns (mcdMalloc c (entrySize k.size v.size) id) s (some addr) s₁)
    (hsame : s₁.tiers = s.tiers) (hloc : loc.For s.tiers id) (hlive : id ∈ s.tiers.live) :
    ∃ r t mh, Returns (putEntry c id k loc v ms) s r t ∧ Holds id k v mh ∧
      t.tiers = s.tiers.link loc mh := by
  obtain ⟨m, s₂, hcreate, ⟨now, stale, hfresh⟩, hsome, hcharge⟩ :=
    createMcdHashT_charges hmalloc hsame hlive
  have hhalts : Halts (setQueryTime id (m.fill k v) ms) :=
    .bind (.modify _) fun _ => .bind (.modify _) fun _ => .pure _
  obtain ⟨mh, s₃, hset⟩ := hhalts s₂
  obtain ⟨rfl, hquiet, hhas⟩ := setQueryTime_spec hset
  have hdom : m.domain = id := by rw [hfresh]; rfl
  refine ⟨_, _, { m.fill k v with queryTimeMs := ms }, returns_bind.mpr ⟨some (m.fill k v), s₂,
    returns_bind.mpr ⟨some m, s₂, hcreate, returns_pure.mpr ⟨rfl, rfl⟩⟩, returns_bind.mpr ⟨_, s₃, hset,
      returns_bind.mpr ⟨(), _, returns_modify.mpr rfl, returns_pure.mpr ⟨rfl, rfl⟩⟩⟩⟩, ?_, ?_⟩
  · rw [hfresh]
    exact ⟨rfl, rfl, rfl, rfl, rfl, rfl, rfl⟩
  · refine tiers_listAddTail (m := m) (hhas loc (hloc.has hsome)) ?_ rfl rfl
    rw [hquiet, hcharge, hloc.payer_eq, hloc.1]
    exact hdom

/-- A key whose hash is not in memory takes no other entry's place. -/
theorem sMcdReplace_idle {c : Ctx} {hash : UInt32}
    (hentries : ∀ mh ∈ s.shared (bucketOf hash), mh.hash ≠ hash)
    (hheaders : s.mcdctlShared (bucketOf hash) = []) : Returns (sMcdReplace c hash) s 0 s := by
  have hfind : findMcdHashT hash (s.shared (bucketOf hash)) = none :=
    List.find?_eq_none.mpr fun mh hmh => by simpa using hentries mh hmh
  have hnone : s.headers (.bucket (bucketOf hash)) = [] := hheaders
  have hdrop : Returns (dropOutsourced c (.bucket (bucketOf hash)) hash) s () s := by
    refine returns_bind.mpr ⟨none, s, returns_findMcdctlHashT.mpr ⟨?_, ?_, rfl⟩,
      returns_pure.mpr ⟨rfl, rfl⟩⟩
    · rw [State.intact, hnone]
      rfl
    · rw [hnone]
      rfl
  refine returns_get_bind.mpr ?_
  rw [hfind]
  exact returns_bind.mpr ⟨(), s, hdrop, returns_pure.mpr ⟨rfl, rfl⟩⟩

theorem call_of_returns {y : System} {a : Call} {r : Reply} {u : State}
    (h : Returns (doMcdOp (y.ctx a.env) a.cmd) y.mcd r u) :
    y.call a = .ok (r, { mcd := { u with tick := 0 }, hits := y.hitsAfter a.cmd r }) := by
  have hrun : (doMcdOp (y.ctx a.env) a.cmd).run y.mcd = .ok (r, u) := h
  simp only [System.call, hrun]

theorem put_links {y : System} {env : Env} {k : GuestKey} {v : GuestVal}
    (hmode : y.mcd.cacheMode = .shared) (hlive : id ∈ y.mcd.tiers.live)
    (hmalloc : Returns (mcdMalloc (y.ctx env) (entrySize k.size v.size) id) y.mcd (some addr) s₁)
    (hsame : s₁.tiers = y.mcd.tiers)
    (hreplace : Returns (sMcdReplace (y.ctx env) (getHash k.bytes)) y.mcd 0 y.mcd) :
    ∃ r z mh, y.call ⟨env, .put id k v⟩ = .ok (r, z) ∧ Holds id k v mh ∧
      z.mcd.tiers = y.mcd.tiers.link (.bucket (bucketOf (getHash k.bytes))) mh := by
  have hloc := for_bucket (s := y.mcd.tiers) hmode (bucketOf (getHash k.bytes)) id
  obtain ⟨r, t, mh, hput, hmh, ht⟩ := putEntry_links 0 hmalloc hsame hloc hlive
  have hop : Returns (mcdOp (y.ctx env) (.put id k v)) y.mcd r t := by
    refine returns_get_bind.mpr ?_
    rw [hmode]
    exact returns_bind.mpr ⟨0, y.mcd, hreplace, hput⟩
  obtain ⟨⟨⟩, u, husage⟩ := halts_domUsageUpdateAll (c := y.ctx env) t.domains t
  have hdo : Returns (doMcdOp (y.ctx env) (.put id k v)) y.mcd r u :=
    returns_bind.mpr ⟨r, t, hop, returns_bind.mpr ⟨(), u, returns_get_bind.mpr husage,
      returns_bind.mpr ⟨(), u, returns_pure.mpr ⟨rfl, rfl⟩, returns_pure.mpr ⟨rfl, rfl⟩⟩⟩⟩
  have htiers : u.tiers = t.tiers := quiet_domUsageUpdateAll _ _ _ _ _ husage
  exact ⟨r, _, mh, call_of_returns (a := ⟨env, .put id k v⟩) hdo, hmh, htiers.trans ht⟩

end

/-- In shared mode without a limit, the cache holds one entry for each of the hashes, all of them with
long keys. -/
structure Tiers.Stocked (t : Tiers) (hs : List UInt32) : Prop where
  mode : t.cfg.cacheMode = .shared
  limit : t.cfg.maxMemBytes = 0
  live : t.live = [1]
  headers : ∀ i, t.headers (.bucket i) = []
  used : t.totUsedBytes.toNat = 1104 * hs.length
  keys : ∀ i, ∀ mh ∈ t.entries (.bucket i), mh.hash ∈ hs ∧ mh.keySize = 1024
  count : t.numEntries .shared = hs.length

section
variable {y : System} {s : State} {hs : List UInt32} {x : Fin 2048 × Fin 65536}

/-- The free memory that the calm environment shows. -/
def calmFree : UInt64 := 1000000 * pageSize - residualBytes

theorem getTotMemSize_calm (hlimit : s.maxMemBytes = 0) :
    Returns (getTotMemSize (y.ctx .calm)) s (s.totUsedBytes + calmFree) s.bump := by
  simp only [getTotMemSize, getFreeSysMem, returns_bind, returns_reading, returns_get, returns_pure,
    and_assoc, exists_and_left, exists_eq_left, and_true]
  have hzero : s.bump.maxMemBytes = 0 := hlimit
  have hshown : (y.ctx .calm).availDomheapPages s.tick = 1000000 := rfl
  have hpos : 1000000 * pageSize - residualBytes < 2 ^ 63 := by decide +kernel
  rw [if_pos hzero, hshown, if_pos hpos, calmFree]
  rfl

theorem mcdMalloc_calm (hlimit : s.maxMemBytes = 0) (hused : s.totUsedBytes.toNat < 2 ^ 40)
    (id : Domid) : ∃ addr t, Returns (mcdMalloc (y.ctx .calm) 1104 id) s (some addr) t ∧
      t.tiers = s.tiers := by
  have hroom : ¬ s.totUsedBytes + 1104 + safetyBytes ≥ s.totUsedBytes + calmFree := by
    have hfree : calmFree.toNat = 4091904000 := by decide
    have hsafe : safetyBytes.toNat = 4096 := by decide
    have hsize : (1104 : UInt64).toNat = 1104 := by decide
    rw [ge_iff_le, UInt64.le_iff_toNat_le, UInt64.toNat_add, UInt64.toNat_add, UInt64.toNat_add,
      hfree, hsafe, hsize]
    omega
  have hfirst : Returns (firstTrial (y.ctx .calm) 1104 (s.totUsedBytes + calmFree) id) s.bump
      .errNo s.bump := by
    refine returns_get_bind.mpr ?_
    have hbump : s.bump.totUsedBytes = s.totUsedBytes := rfl
    rw [hbump, if_neg hroom]
    exact returns_pure.mpr ⟨rfl, rfl⟩
  have halloc : Returns (allocateIf (y.ctx .calm) .errNo) s.bump (some s.nextAddr)
      { s.bump.bump with nextAddr := s.nextAddr + 1 } := by
    rw [allocateIf, if_pos rfl]
    exact returns_bind.mpr ⟨true, s.bump.bump, returns_reading.mpr ⟨rfl, rfl⟩, returns_get_bind.mpr
      (returns_bind.mpr ⟨(), _, returns_set.mpr rfl, returns_pure.mpr ⟨rfl, rfl⟩⟩)⟩
  have hpos : ¬ (1104 : UInt64) = 0 := by decide
  have hmalloc : Returns (mcdMalloc (y.ctx .calm) 1104 id) s (some s.nextAddr)
      { s.bump.bump with nextAddr := s.nextAddr + 1 } := by
    refine returns_bind.mpr ⟨_, _, getTotMemSize_calm hlimit, ?_⟩
    rw [if_neg hpos]
    exact returns_bind.mpr ⟨_, _, hfirst,
      returns_bind.mpr ⟨_, _, halloc, returns_pure.mpr ⟨rfl, rfl⟩⟩⟩
  exact ⟨_, _, hmalloc, rfl⟩

theorem entrySize_long (x : Fin 2048 × Fin 65536) :
    entrySize (GuestKey.long x).size (GuestVal.single 0).size = 1104 := by
  have hsize : entrySize 1024 1 = 1104 := by decide
  exact hsize

theorem Tiers.Stocked.link {t : Tiers} {mh : McdHashT} (ht : t.Stocked hs)
    (hlen : hs.length < 2 ^ 23) (hmh : Holds 1 (.long x) (.single 0) mh) (i : Bucket) :
    (t.link (.bucket i) mh).Stocked (hs ++ [getHash (longBytes x)]) where
  mode := ht.mode
  limit := ht.limit
  live := ht.live
  headers := ht.headers
  used := by
    have hbytes : mh.bytes = 1104 := by
      rw [McdHashT.bytes, hmh.nrBytes, entrySize_long]
      rfl
    have htotal : (t.link (.bucket i) mh).totUsedBytes = t.totUsedBytes + 1104 := by
      rw [← hbytes]
      exact (UInt64.add_assoc _ _ _).symm
    have hsize : (1104 : UInt64).toNat = 1104 := by decide
    rw [htotal, UInt64.toNat_add, ht.used, hsize, List.length_append, List.length_singleton]
    omega
  keys := by
    intro j m hm
    have hentries : (t.link (.bucket i) mh).entries =
        Function.update t.entries (.bucket i) (t.entries (.bucket i) ++ [mh]) := rfl
    rw [hentries] at hm
    have hcases : m ∈ t.entries (.bucket j) ∨ m = mh := by
      by_cases hj : Loc.bucket j = .bucket i
      · rw [hj, Function.update_self, List.mem_append, List.mem_singleton] at hm
        rw [hj]
        exact hm
      · rw [Function.update_of_ne hj] at hm
        exact .inl hm
    rcases hcases with hold | rfl
    · obtain ⟨hhash, hsize⟩ := ht.keys j m hold
      exact ⟨List.mem_append_left _ hhash, hsize⟩
    · refine ⟨List.mem_append_right _ ?_, hmh.keySize⟩
      rw [hmh.hash]
      exact List.mem_singleton_self _
  count := by
    have hnodup : (t.locs .shared).Nodup := nodup_locs (by rw [ht.live]; decide) _
    have hmem : Loc.bucket i ∈ t.locs .shared := mem_locs_iff.mpr ⟨rfl, fun _ h => Loc.noConfusion h⟩
    have hcount : (t.link (.bucket i) mh).numEntries .shared = t.numEntries .shared + 1 :=
      total_concat hnodup hmem mh
    rw [hcount, ht.count, List.length_append, List.length_singleton]

/-- One more key. -/
theorem put_stocks (hy : y.mcd.tiers.Stocked hs) (hlen : hs.length < 2 ^ 23)
    (hnew : getHash (longBytes x) ∉ hs) :
    ∃ r z, y.call ⟨.calm, .put 1 (.long x) (.single 0)⟩ = .ok (r, z) ∧
      z.mcd.tiers.Stocked (hs ++ [getHash (longBytes x)]) := by
  have hused : y.mcd.totUsedBytes.toNat < 2 ^ 40 := by
    have hbytes : y.mcd.totUsedBytes.toNat = 1104 * hs.length := hy.used
    omega
  obtain ⟨addr, s₁, hmalloc, hsame⟩ := mcdMalloc_calm (y := y) hy.limit hused 1
  rw [← entrySize_long x] at hmalloc
  have hlive : (1 : Domid) ∈ y.mcd.tiers.live := by rw [hy.live]; exact List.mem_singleton_self 1
  have hreplace : Returns (sMcdReplace (y.ctx .calm) (getHash (longBytes x))) y.mcd 0 y.mcd := by
    apply sMcdReplace_idle
    · intro m hm heq
      exact hnew (heq ▸ (hy.keys _ m hm).1)
    · exact hy.headers _
  obtain ⟨r, z, mh, hcall, hmh, hz⟩ := put_links hy.mode hlive hmalloc hsame hreplace
  refine ⟨r, z, hcall, ?_⟩
  rw [hz]
  exact hy.link hlen hmh _

/-- The `put`s of long keys. -/
def longPuts (l : List (Fin 2048 × Fin 65536)) : List Call :=
  l.map fun x => ⟨.calm, .put 1 (.long x) (.single 0)⟩

/-- Keys with different hashes are all stored. -/
theorem run_stocks {l : List (Fin 2048 × Fin 65536)} (hy : y.mcd.tiers.Stocked hs)
    (hlen : hs.length + l.length ≤ 2 ^ 23)
    (hnodup : (hs ++ l.map fun x => getHash (longBytes x)).Nodup) :
    ∃ hist z, hist.map (·.1) = longPuts l ∧ Run Call.Fresh y hist z ∧
      z.mcd.tiers.Stocked (hs ++ l.map fun x => getHash (longBytes x)) := by
  induction l generalizing y hs with
  | nil =>
    rw [List.map_nil, List.append_nil]
    exact ⟨[], y, rfl, .nil y, hy⟩
  | cons x l ih =>
    rw [List.length_cons] at hlen
    rw [List.map_cons, List.append_cons] at hnodup
    have hnew : getHash (longBytes x) ∉ hs := by
      have hpre := hnodup.of_append_left
      rw [List.nodup_append] at hpre
      intro hmem
      exact hpre.2.2 _ hmem _ (List.mem_singleton_self _) rfl
    obtain ⟨r, y₁, hcall, hy₁⟩ := put_stocks hy (by omega) hnew
    have hlen₁ : (hs ++ [getHash (longBytes x)]).length + l.length ≤ 2 ^ 23 := by
      rw [List.length_append, List.length_singleton]
      omega
    obtain ⟨hist, z, hmap, hrun, hz⟩ := ih hy₁ hlen₁ hnodup
    rw [List.map_cons, List.append_cons]
    refine ⟨(⟨.calm, .put 1 (.long x) (.single 0)⟩, r) :: hist, z, ?_, .cons ⟨trivial, hcall⟩ hrun, hz⟩
    rw [List.map_cons, hmap]
    rfl

end

/-- A run of a guest that leaves its keys alone brings the cache to any number of long keys up to
`2 ^ 23`. -/
theorem exists_stocked {N : Nat} (hN : N ≤ 2 ^ 23) :
    ∃ l hist y hs, hist.map (·.1) = ⟨.calm, .create 1⟩ :: longPuts l ∧
      Run Call.Fresh .start hist y ∧ y.mcd.tiers.Stocked hs ∧ hs.length = N := by
  obtain ⟨l, hlen, hnodup⟩ := exists_longKeys hN
  have hruns : System.start.runs Call.Fresh [⟨.calm, .create 1⟩] := by decide +kernel
  obtain ⟨hist₀, hmap₀, hrun₀⟩ := run_of_runs hruns
  have hstart : (System.start.after [⟨.calm, .create 1⟩]).mcd.tiers.Stocked [] :=
    { mode := by decide +kernel
      limit := by decide +kernel
      live := by decide +kernel
      headers := by decide +kernel
      used := by decide +kernel
      keys := by decide +kernel
      count := by decide +kernel }
  obtain ⟨hist, y, hmap, hrun, hy⟩ := run_stocks hstart (by rw [List.length_nil]; omega) hnodup
  refine ⟨l, hist₀ ++ hist, y, _, ?_, hrun₀.append hrun, hy, ?_⟩
  · rw [List.map_append, hmap₀, hmap]
    rfl
  · rw [List.nil_append, List.length_map, hlen]

end UniCache.Mcd
