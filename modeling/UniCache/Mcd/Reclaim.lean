import UniCache.Mcd.Create

/-! What a removal keeps, the reclaim keeps: the relations this is about, and the rules for what is
no removal. -/
namespace UniCache.Mcd
open Base.Exec

theorem returns_reading {α : Type} {f : Nat → α} {s t : State} {a : α} :
    Returns (reading f) s a t ↔ a = f s.tick ∧ t = s.bump := by
  simp [reading, and_comm]

@[simp] theorem returns_domOf {id : Domid} {s t : State} {d : McdDomain} :
    Returns (domOf id) s d t ↔ findMcdDom id s = some d ∧ t = s := by
  simp only [domOf, returns_bind, returns_get, and_assoc, exists_and_left, exists_eq_left]
  cases findMcdDom id s with
  | none => simp
  | some r => simp [eq_comm]

@[simp] theorem returns_checkIntact {loc : Loc} {s t : State} {u : Unit} :
    Returns (checkIntact loc) s u t ↔ s.intact loc ∧ t = s := by
  simp only [checkIntact, returns_bind, returns_get, and_assoc, exists_and_left, exists_eq_left]
  by_cases hi : s.intact loc <;> simp [hi]

/-- What `mcdctl_free` leaves while outsourcing is on: the header is in the freelist. -/
def State.freeHeader (s : State) (loc : Loc) (mch : McdctlHashT) : State :=
  let s := s.setHeaders ((s.headers loc).erase mch) loc
  { s with pool := { s.pool with freelist := (mch.page, mch.slot) :: s.pool.freelist } }

theorem returns_mcdctlFree {loc : Loc} {mch : McdctlHashT} {s t : State} {u : Unit} :
    Returns (mcdctlFree loc mch) s u t ↔
      s.intact loc ∧ t = if s.outsourcing then s.freeHeader loc mch else s := by
  simp only [mcdctlFree, returns_bind, returns_checkIntact, returns_get, and_assoc,
    exists_and_left, exists_eq_left, exists_const]
  by_cases ho : s.outsourcing
  · rw [if_neg (not_not_intro ho), if_pos ho, returns_set]
    rfl
  · rw [if_pos ho, if_neg ho, returns_pure]
    simp

/-- A relation between states that holds across the readings, and the updates of the shares. -/
structure Passive (R : State → State → Prop) : Prop where
  refl : ∀ s, R s s
  trans : ∀ {s t u}, R s t → R t u → R s u
  bump : ∀ s, R s s.bump
  addr : ∀ s n, R s { s with nextAddr := n }
  usage : ∀ total id s, R s (s.modifyDom id (·.withUsage total))

/-- It holds across the removals of the reclaim as well. -/
structure Reclaimed (c : Ctx) (R : State → State → Prop) : Prop extends Passive R where
  sRemove : ∀ i mh, Within R (sRemoveHashT c i mh .moveToSsd)
  pRemove : ∀ id mh, Within R (pRemoveHashT c id mh .moveToSsd)

/-- It holds across the work on the outsourced entries: their headers, the pool and the store. -/
structure Aloof (R : State → State → Prop) : Prop where
  refl : ∀ s, R s s
  trans : ∀ {s t u}, R s t → R t u → R s u
  bump : ∀ s, R s s.bump
  pool : ∀ s p, R s { s with pool := p }
  store : ∀ s st, R s { s with store := st }
  headers : ∀ s l loc, R s (s.setHeaders l loc)

theorem within_reading {R : State → State → Prop} {α : Type} (bump : ∀ s, R s s.bump)
    (f : Nat → α) : Within R (reading f) := by
  intro s a t hret
  obtain ⟨-, rfl⟩ := returns_reading.mp hret
  exact bump s

namespace Passive
variable {c : Ctx} {R : State → State → Prop} {α β : Type}

theorem pure (h : Passive R) (a : α) : Within R (Pure.pure a : M α) := .pure h.refl a

theorem get (h : Passive R) : Within R (MonadState.get : M State) := .get h.refl

theorem bind (h : Passive R) {x : M α} {f : α → M β} (hx : Within R x)
    (hf : ∀ a, Within R (f a)) : Within R (x >>= f) := Within.bind (R := R) h.trans hx hf

theorem reading (h : Passive R) (f : Nat → α) : Within R (Mcd.reading f) :=
  within_reading h.bump f

theorem domOf (h : Passive R) (id : Domid) : Within R (Mcd.domOf id) := by
  apply h.bind h.get
  intro s
  cases findMcdDom id s with
  | none => exact .throw _
  | some d => exact h.pure d

theorem xmalloc (h : Passive R) : Within R (Mcd.xmalloc c) := by
  apply h.bind (h.reading _)
  intro ok s a t hret
  cases ok with
  | false =>
    simp only [returns_bind, returns_get, Bool.false_eq_true, ↓reduceIte, returns_pure] at hret
    obtain ⟨_, _, ⟨rfl, rfl⟩, -, rfl⟩ := hret
    exact h.refl _
  | true =>
    simp only [returns_bind, returns_get, ↓reduceIte, returns_set, returns_pure] at hret
    obtain ⟨_, _, ⟨rfl, rfl⟩, _, _, rfl, -, rfl⟩ := hret
    exact h.addr _ _

theorem getTotMemSize (h : Passive R) : Within R (Mcd.getTotMemSize c) := by
  apply h.bind (h.bind (h.reading _) fun _ => h.pure _)
  intro _
  exact h.bind h.get fun _ => h.pure _

theorem domUsageUpdate (h : Passive R) (id : Domid) : Within R (Mcd.domUsageUpdate c id) := by
  apply h.bind h.getTotMemSize
  intro total
  exact .of_modify (h.usage total id)

theorem domUsageUpdateAll (h : Passive R) (l : List McdDomain) :
    Within R (Mcd.domUsageUpdateAll c l) := by
  induction l with
  | nil => exact h.pure _
  | cons d l ih =>
    unfold Mcd.domUsageUpdateAll
    exact .ite ih (h.bind (h.domUsageUpdate d.domid) fun _ => ih)

/-- An allocation does no more than its reclaim. -/
theorem mcdMalloc (h : Passive R) {id : Domid}
    (hfree : ∀ amount, Within R (Mcd.cacheFree c amount id)) (size : UInt64) :
    Within R (Mcd.mcdMalloc c size id) := by
  have halloc : ∀ rc, Within R (allocateIf c rc) := fun rc => .ite h.xmalloc (h.pure _)
  apply h.bind h.getTotMemSize
  intro maxBytes
  apply Within.ite (h.pure _)
  apply h.bind
  · exact h.bind h.get fun _ => .ite (hfree _) (h.pure _)
  intro rc
  apply h.bind (halloc rc)
  intro val
  cases val with
  | some p => exact h.pure _
  | none => exact h.bind (hfree _) halloc

end Passive

namespace Aloof
variable {c : Ctx} {R : State → State → Prop} {α β : Type} {loc : Loc} {mh : McdHashT}
  {mch : McdctlHashT}

theorem pure (h : Aloof R) (a : α) : Within R (Pure.pure a : M α) := .pure h.refl a

theorem get (h : Aloof R) : Within R (MonadState.get : M State) := .get h.refl

theorem bind (h : Aloof R) {x : M α} {f : α → M β} (hx : Within R x)
    (hf : ∀ a, Within R (f a)) : Within R (x >>= f) := Within.bind (R := R) h.trans hx hf

theorem checkIntact (h : Aloof R) : Within R (Mcd.checkIntact loc) := by
  intro s u t hret
  rw [(returns_checkIntact.mp hret).2]
  exact h.refl s

theorem findMcdctlHashT (h : Aloof R) {hash : UInt32} :
    Within R (Mcd.findMcdctlHashT loc hash) :=
  h.bind h.checkIntact fun _ => h.bind h.get fun _ => h.pure _

theorem mcdctlMalloc (h : Aloof R) : Within R (Mcd.mcdctlMalloc c) := by
  have htake : Within R takeFree := by
    intro s o t hret
    simp only [takeFree, returns_bind, returns_get, and_assoc, exists_and_left,
      exists_eq_left] at hret
    cases hl : s.pool.freelist with
    | nil =>
      rw [hl] at hret
      rw [(returns_pure.mp hret).2]
      exact h.refl s
    | cons p ps =>
      rw [hl] at hret
      simp only [returns_bind, returns_set, returns_pure] at hret
      obtain ⟨_, _, rfl, -, rfl⟩ := hret
      exact h.pool s _
  have hnew : Within R (mcdctlNewMalloc c) := by
    apply h.bind h.get
    intro s
    apply Within.ite (h.pure _)
    apply Within.ite (h.pure _)
    apply h.bind (within_reading h.bump _)
    intro ok
    exact .ite (.of_modify fun s => h.pool s _) (h.pure _)
  apply h.bind h.get
  intro s
  apply Within.ite (h.pure _)
  exact .ite (h.bind hnew fun _ => htake) htake

theorem linkHeader (h : Aloof R) : Within R (Mcd.linkHeader c mh) := by
  have hcreate : Within R (createMcdctlHashT c mh) := by
    apply h.bind h.mcdctlMalloc
    intro o
    cases o with
    | none => exact .throw _
    | some p => exact h.pure _
  apply h.bind hcreate
  intro mch s u t hret
  simp only [returns_bind, returns_get, returns_checkIntact, and_assoc, exists_and_left,
    exists_eq_left, exists_const] at hret
  obtain ⟨-, hret⟩ := hret
  split at hret
  · exact (returns_throw.mp hret).elim
  · rw [returns_set.mp hret]
    exact h.headers s _ _

theorem mcdPageOut (h : Aloof R) : Within R (Mcd.mcdPageOut c mh) := by
  apply h.bind h.get
  intro s
  apply Within.ite (h.pure _)
  apply h.bind (within_reading h.bump _)
  intro out
  have haccepted : ∀ file, Within R (do
      modify fun s : State => { s with store := s.store.set mh.domain mh.hash file }
      if mh.flags &&& mcdMinfError ≠ 0 then Pure.pure () else Mcd.linkHeader c mh : M Unit) := fun file =>
    h.bind (.of_modify fun s => h.store s _) fun _ => .ite (h.pure _) h.linkHeader
  cases out with
  | refused => exact h.pure _
  | _ => exact haccepted _

/-- A relation that does not look at the lists of entries holds across their unlinking, too. -/
theorem unlinkHashT (h : Aloof R) (hlists : ∀ s l loc, R s (State.setEntries s l loc)) {flag : Move} :
    Within R (Mcd.unlinkHashT c loc mh flag) := by
  have hdel : Within R (modify (·.listDel loc mh) : M Unit) := .of_modify fun s => hlists s _ loc
  exact .ite (h.bind hdel fun _ => h.mcdPageOut) hdel

theorem mcdctlFree (h : Aloof R) : Within R (Mcd.mcdctlFree loc mch) := by
  intro s u t hret
  rw [(returns_mcdctlFree.mp hret).2]
  by_cases ho : s.outsourcing
  · rw [if_pos ho]
    exact h.trans (h.headers s _ _) (h.pool _ _)
  · rw [if_neg ho]
    exact h.refl s

theorem minfRequest (h : Aloof R) (f : Store → Store) : Within R (Mcd.minfRequest c f) := by
  apply h.bind h.get
  intro s
  apply Within.ite _ (h.pure _)
  apply h.bind (within_reading h.bump _)
  intro ok
  exact .ite (.of_modify fun s => h.store s _) (h.pure _)

theorem flushHeaders (h : Aloof R) (l : List McdctlHashT) : Within R (Mcd.flushHeaders loc l) := by
  induction l with
  | nil => exact .of_modify fun s => h.headers s _ _
  | cons mch l ih => exact h.bind h.mcdctlFree fun _ => ih

theorem mcdctlFlush (h : Aloof R) : Within R (Mcd.mcdctlFlush c) := by
  have hheads : ∀ is, Within R (flushBuckets is) := by
    intro is
    induction is with
    | nil => exact h.pure _
    | cons i is ih => exact h.bind h.get fun s => h.bind (h.flushHeaders _) fun _ => ih
  apply h.bind (hheads _)
  intro _
  apply h.bind (h.minfRequest _)
  intro _
  exact .of_modify fun s => h.pool s _

end Aloof

end UniCache.Mcd
