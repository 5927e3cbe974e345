import UniCache.Base.FileTree
import UniCache.Transfer.Chunks

/-! The daemon's files (`tools/mcd/file_ops.c` and the file requests of `tools/mcd/mcd.c`): a root
directory, in it a directory for each domain, in that a file for each hash. Their names are decimal
numerals, here numbers. -/
namespace UniCache.Transfer
open Base Mcd

section
variable {β : Type}

mutual

/-- `del_dir` on what its path names: what is left there. It returns 0 where nothing is. -/
def delNode : Node Nat β → Slot Nat β
  | .file b => some (.file b)
  | .dir es =>
    match delEntries es with
    | [] => none
    | rest => some (.dir rest)

/-- The loop over the entries of a directory, which stops at the first that cannot be deleted. -/
def delEntries : List (Nat × Node Nat β) → List (Nat × Node Nat β)
  | [] => []
  | e :: es =>
    match delEntry e with
    | none => delEntries es
    | some t => (e.1, t) :: es

def delEntry : Nat × Node Nat β → Slot Nat β
  | (_, t) => if t.isDir then delNode t else none

end

def delDir : Slot Nat β → Slot Nat β × Bool
  | none => (none, false)
  | some t => (delNode t, (delNode t).isNone)

def chkDirAndCreate (x : Slot Nat β) : Slot Nat β × Bool :=
  if x.isNone then (x.mkdir.1, true) else (x, true)

def chkDirAndCleanCreate (x : Slot Nat β) : Slot Nat β × Bool :=
  if x.isNone then (x.mkdir.1, true) else ((delDir x).1.mkdir.1, true)

def delFile : Slot Nat β → Slot Nat β × Bool := Slot.unlink

/-- The requests that concern files, with the part of a file that a `PUT` brings. -/
inductive FileReq (β : Type)
  | put (new : Bool) (domain : Domid) (hash : UInt32) (part : List β)
  | del (domain : Domid) (hash : UInt32)
  | domCreate (domain : Domid)
  | domFlush (domain : Domid)
  | domDestroy (domain : Domid)
  | flushAll (domain : Domid)

def FileReq.domain : FileReq β → Domid
  | .put _ d _ _ | .del d _ | .domCreate d | .domFlush d | .domDestroy d | .flushAll d => d

/-- The call at the head of the loop, for every domain but 0. -/
def prepare (d : Domid) (root : Slot Nat β) : Slot Nat β :=
  if d ≠ 0 then (root.within d.toNat chkDirAndCreate).1 else root

/-- The `switch` on the type of a request: the tree after it, and whether `ERROR` stays clear. A part
that is not the first goes to the descriptor that the first has opened. -/
def serveFile (root : Slot Nat β) : FileReq β → Slot Nat β × Bool
  | .put new d h part =>
    let r := if new then root.within d.toNat (Slot.within h.toNat Slot.creat) else (root, true)
    if r.2 then
      ((r.1.within d.toNat (Slot.within h.toNat fun x => (x.append part, true))).1, true)
    else r
  | .del d h => root.within d.toNat (Slot.within h.toNat delFile)
  | .domCreate d => root.within d.toNat chkDirAndCleanCreate
  | .domFlush d =>
    let r := root.within d.toNat delDir
    let r' := r.1.within d.toNat chkDirAndCreate
    (r'.1, r.2 && r'.2)
  | .domDestroy d => root.within d.toNat delDir
  | .flushAll _ =>
    let r := delDir root
    let r' := chkDirAndCreate r.1
    (r'.1, r.2 && r'.2)

/-- One turn of the daemon's loop. -/
def turn (root : Slot Nat β) (q : FileReq β) : Slot Nat β × Bool :=
  serveFile (prepare q.domain root) q

/-- Before the loop `main` makes an empty root directory. -/
def startUp (root : Slot Nat β) : Slot Nat β := (chkDirAndCleanCreate root).1

/-- What Xen asks for: a complete `PUT` exchange, in parts, or one request. -/
inductive Deed (β : Type)
  | put (domain : Domid) (hash : UInt32) (first : List β) (rest : List (List β))
  | del (domain : Domid) (hash : UInt32)
  | domCreate (domain : Domid)
  | domFlush (domain : Domid)
  | domDestroy (domain : Domid)
  | flushAll (domain : Domid)

/-- The requests of a deed are served in turn. An exchange ends where its first part is refused. -/
def perform (root : Slot Nat β) : Deed β → Slot Nat β
  | .put d h first rest =>
    let r := turn root (.put true d h first)
    if r.2 then rest.foldl (fun root part => (turn root (.put false d h part)).1) r.1 else r.1
  | .del d h => (turn root (.del d h)).1
  | .domCreate d => (turn root (.domCreate d)).1
  | .domFlush d => (turn root (.domFlush d)).1
  | .domDestroy d => (turn root (.domDestroy d)).1
  | .flushAll d => (turn root (.flushAll d)).1

mutual

theorem delNode_dir : ∀ t : Node Nat β, t.isDir → delNode t = none
  | .file b, h => by cases h
  | .dir es, _ => by rw [delNode, delEntries_eq es]

theorem delEntries_eq : ∀ es : List (Nat × Node Nat β), delEntries es = []
  | [] => rfl
  | e :: es => by
    rw [delEntries, delEntry_eq e]
    exact delEntries_eq es

theorem delEntry_eq : ∀ e : Nat × Node Nat β, delEntry e = none
  | (_, t) => by
    rw [delEntry]
    by_cases h : t.isDir
    · rw [if_pos h]
      exact delNode_dir t h
    · rw [if_neg h]

end

/-- The files in a domain's directory. -/
abbrev Folder (β : Type) := UInt32 → Option (List β)

/-- The directories that exist, with their files. -/
abbrev Folders (β : Type) := Domid → Option (Folder β)

def Folders.files (D : Folders β) (d : Domid) (h : UInt32) : Option (List β) := (D d).bind (· h)

def IsFile (x : Slot Nat β) (c : Option (List β)) : Prop := x = c.map .file

def IsFolder (x : Slot Nat β) : Option (Folder β) → Prop
  | none => x = none
  | some F => ∃ t, x = some t ∧ Lists UInt32.toNat IsFile t F

/-- The root directory has the folders `D` and nothing else. -/
def IsRoot (x : Slot Nat β) (D : Folders β) : Prop :=
  ∃ t, x = some t ∧ Lists UInt16.toNat IsFolder t D

theorem hashName_injective : Function.Injective UInt32.toNat := fun _ _ h => UInt32.toNat_inj.mp h

theorem domainName_injective : Function.Injective UInt16.toNat := fun _ _ h => UInt16.toNat_inj.mp h

section
variable {x : Slot Nat β} {o : Option (Folder β)} {F : Folder β}

theorem isFolder_empty : IsFolder (some (.dir [])) (some fun _ => none : Option (Folder β)) :=
  ⟨_, rfl, lists_nil rfl⟩

theorem IsFolder.cases (h : IsFolder x o) :
    (o = none ∧ x = none) ∨ ∃ F t, o = some F ∧ x = some t ∧ Lists UInt32.toNat IsFile t F := by
  cases o with
  | none => exact .inl ⟨rfl, h⟩
  | some F =>
    obtain ⟨t, rfl, ht⟩ := h
    exact .inr ⟨F, t, rfl, rfl, ht⟩

theorem IsFolder.delDir (h : IsFolder x o) : Transfer.delDir x = (none, o.isSome) := by
  rcases h.cases with ⟨rfl, rfl⟩ | ⟨F, t, rfl, rfl, ht⟩
  · rfl
  · simp [Transfer.delDir, delNode_dir t ht.dir]

theorem IsFolder.chkDirAndCreate (h : IsFolder x o) :
    (Transfer.chkDirAndCreate x).2 = true ∧
      IsFolder (Transfer.chkDirAndCreate x).1 (some (o.getD fun _ => none)) := by
  rcases h.cases with ⟨rfl, rfl⟩ | ⟨F, t, rfl, rfl, ht⟩
  · exact ⟨rfl, isFolder_empty⟩
  · exact ⟨rfl, t, rfl, ht⟩

theorem IsFolder.chkDirAndCleanCreate (h : IsFolder x o) :
    (Transfer.chkDirAndCleanCreate x).2 = true ∧
      IsFolder (Transfer.chkDirAndCleanCreate x).1 (some fun _ => none) := by
  rcases h.cases with ⟨rfl, rfl⟩ | ⟨F, t, rfl, rfl, ht⟩
  · exact ⟨rfl, isFolder_empty⟩
  · have hdel : Transfer.delDir (some t) = (none, true) :=
      IsFolder.delDir (o := some F) ⟨t, rfl, ht⟩
    rw [Transfer.chkDirAndCleanCreate, if_neg (by simp), hdel]
    exact ⟨rfl, isFolder_empty⟩

/-- A call on a file updates its folder there. -/
theorem IsFolder.within {h : UInt32} (hx : IsFolder x (some F))
    {call : Slot Nat β → Slot Nat β × Bool} {c : Option (List β)} {b : Bool}
    (hcall : call ((F h).map .file) = (c.map .file, b)) :
    (x.within h.toNat call).2 = b ∧
      IsFolder (x.within h.toNat call).1 (some (Function.update F h c)) := by
  obtain ⟨t, rfl, ht⟩ := hx
  have hentry : t.entry h.toNat = (F h).map .file := ht.entries h
  have hfile : IsFile (call (t.entry h.toNat)).1 c := by
    rw [hentry, hcall]
    rfl
  obtain ⟨u, hu, hlists⟩ := ht.within hashName_injective hfile
  rw [hu, hentry, hcall]
  exact ⟨rfl, u, rfl, hlists⟩

end

section
variable {root : Slot Nat β} {D : Folders β} {d : Domid}

/-- A call on a folder updates the folders there. -/
theorem IsRoot.within (hr : IsRoot root D) (call : Slot Nat β → Slot Nat β × Bool)
    {o : Option (Folder β)} {b : Bool}
    (hcall : ∀ x, IsFolder x (D d) → (call x).2 = b ∧ IsFolder (call x).1 o) :
    (root.within d.toNat call).2 = b ∧
      IsRoot (root.within d.toNat call).1 (Function.update D d o) := by
  obtain ⟨t, rfl, ht⟩ := hr
  obtain ⟨hb, ho⟩ := hcall _ (ht.entries d)
  obtain ⟨u, hu, hlists⟩ := ht.within domainName_injective ho
  rw [hu]
  exact ⟨hb, u, rfl, hlists⟩

/-- The folder of a domain once its request is at hand. -/
def Folders.ready (D : Folders β) (d : Domid) : Option (Folder β) :=
  if d ≠ 0 then some ((D d).getD fun _ => none) else D d

theorem ready_eq_none (hD : D.ready d = none) : d = 0 ∧ D d = none := by
  unfold Folders.ready at hD
  by_cases hd : d ≠ 0
  · rw [if_pos hd] at hD
    cases hD
  · rw [if_neg hd] at hD
    exact ⟨not_not.mp hd, hD⟩

theorem IsRoot.prepare (hr : IsRoot root D) (d : Domid) :
    IsRoot (Transfer.prepare d root) (Function.update D d (D.ready d)) := by
  unfold Transfer.prepare Folders.ready
  by_cases hd : d ≠ 0
  · rw [if_pos hd, if_pos hd]
    exact (hr.within _ fun x hx => hx.chkDirAndCreate).2
  · rw [if_neg hd, if_neg hd, Function.update_eq_self]
    exact hr

theorem IsRoot.within_file (hr : IsRoot root D) {F : Folder β} (hD : D d = some F) {h : UInt32}
    (call : Slot Nat β → Slot Nat β × Bool) {c : Option (List β)} {b : Bool}
    (hcall : call ((F h).map .file) = (c.map .file, b)) :
    (root.within d.toNat (Slot.within h.toNat call)).2 = b ∧
      IsRoot (root.within d.toNat (Slot.within h.toNat call)).1
        (Function.update D d (some (Function.update F h c))) := by
  apply hr.within
  intro x hx
  rw [hD] at hx
  exact hx.within hcall

theorem IsRoot.within_missing (hr : IsRoot root D) (hD : D d = none) (h : UInt32)
    (call : Slot Nat β → Slot Nat β × Bool) :
    (root.within d.toNat (Slot.within h.toNat call)).2 = false ∧
      IsRoot (root.within d.toNat (Slot.within h.toNat call)).1 D := by
  have hin := hr.within (d := d) (Slot.within h.toNat call) (o := none) (b := false) ?_
  · rwa [← hD, Function.update_eq_self] at hin
  · intro x hx
    rw [hD] at hx
    cases hx
    exact ⟨rfl, rfl⟩

theorem creat_file (c : Option (List β)) :
    Slot.creat (c.map Node.file : Slot Nat β) = ((some []).map .file, true) := by
  cases c <;> rfl

theorem delFile_file (c : Option (List β)) :
    delFile (c.map Node.file : Slot Nat β) = ((none : Option (List β)).map .file, c.isSome) := by
  cases c <;> rfl

theorem ready_of_some {F : Folder β} (hD : D d = some F) : D.ready d = some F := by
  unfold Folders.ready
  rw [hD]
  by_cases hd : d ≠ 0
  · rw [if_pos hd]
    rfl
  · rw [if_neg hd]

theorem turn_put_first (hr : IsRoot root D) {F : Folder β} (hD : D.ready d = some F) (h : UInt32)
    (part : List β) :
    (turn root (.put true d h part)).2 = true ∧
      IsRoot (turn root (.put true d h part)).1
        (Function.update D d (some (Function.update F h (some part)))) := by
  have hprep : IsRoot (prepare d root) (Function.update D d (some F)) := hD ▸ hr.prepare d
  obtain ⟨hok, hnew⟩ := hprep.within_file (Function.update_self ..) (h := h) _ (creat_file (F h))
  obtain ⟨-, hpart⟩ := hnew.within_file (Function.update_self ..) (h := h)
    (fun x => (x.append part, true)) (c := some part) (b := true) (by
      rw [Function.update_self]
      rfl)
  rw [Function.update_idem, Function.update_idem, Function.update_idem] at hpart
  have hserve : turn root (.put true d h part) =
      (((prepare d root).within d.toNat (Slot.within h.toNat Slot.creat)).1.within d.toNat
        (Slot.within h.toNat fun x => (x.append part, true)) |>.1, true) := if_pos hok
  rw [hserve]
  exact ⟨rfl, hpart⟩

theorem turn_put_refused (hr : IsRoot root D) (hD : D.ready d = none) (h : UInt32)
    (part : List β) :
    (turn root (.put true d h part)).2 = false ∧ IsRoot (turn root (.put true d h part)).1 D := by
  have hprep := hr.prepare d
  rw [hD] at hprep
  obtain ⟨hfail, hsame⟩ := hprep.within_missing (Function.update_self ..) h Slot.creat
  rw [← (ready_eq_none hD).2, Function.update_eq_self] at hsame
  have hserve : turn root (.put true d h part) =
      (prepare d root).within d.toNat (Slot.within h.toNat Slot.creat) := if_neg (by
    show ¬ ((prepare d root).within d.toNat (Slot.within h.toNat Slot.creat)).2 = true
    rw [hfail]
    exact Bool.false_ne_true)
  rw [hserve]
  exact ⟨hfail, hsame⟩

theorem turn_put_next (hr : IsRoot root D) {F : Folder β} (hD : D d = some F) {h : UInt32}
    {b : List β} (hF : F h = some b) (part : List β) :
    IsRoot (turn root (.put false d h part)).1
      (Function.update D d (some (Function.update F h (some (b ++ part))))) := by
  have hprep := hr.prepare d
  rw [ready_of_some hD, ← hD, Function.update_eq_self] at hprep
  have hpart := hprep.within_file hD (h := h) (fun x => (x.append part, true))
    (c := some (b ++ part)) (b := true) (by rw [hF]; rfl)
  exact hpart.2

/-- The later parts of an exchange are appended to its file. -/
theorem turns_put_next {F : Folder β} {h : UInt32} {b : List β} (rest : List (List β))
    (hr : IsRoot root (Function.update D d (some (Function.update F h (some b))))) :
    IsRoot (rest.foldl (fun root part => (turn root (.put false d h part)).1) root)
      (Function.update D d (some (Function.update F h (some (b ++ rest.flatten))))) := by
  induction rest generalizing root b with
  | nil => simpa using hr
  | cons part rest ih =>
    have hnext := turn_put_next hr (Function.update_self ..) (Function.update_self ..) part
    rw [Function.update_idem, Function.update_idem] at hnext
    simpa using ih hnext

end

/-- The folders after a deed. Where the folder of a `PUT` or `DEL` is missing, nothing happens. -/
def Deed.folders (D : Folders β) : Deed β → Folders β
  | .put d h first rest => Function.update D d
      ((D.ready d).map fun F => Function.update F h (some (first :: rest).flatten))
  | .del d h => Function.update D d ((D.ready d).map fun F => Function.update F h none)
  | .domCreate d => Function.update D d (some fun _ => none)
  | .domFlush d => Function.update D d (some fun _ => none)
  | .domDestroy d => Function.update D d none
  | .flushAll _ => fun _ => none

section
variable {root : Slot Nat β} {D : Folders β}

theorem IsRoot.delDir (hr : IsRoot root D) : Transfer.delDir root = (none, true) := by
  obtain ⟨t, rfl, ht⟩ := hr
  simp [Transfer.delDir, delNode_dir t ht.dir]

theorem isRoot_empty : IsRoot (some (.dir []) : Slot Nat β) fun _ => none :=
  ⟨_, rfl, lists_nil rfl⟩

theorem update_none_of_ready {d : Domid} (hD : D.ready d = none) : Function.update D d none = D := by
  rw [← (ready_eq_none hD).2, Function.update_eq_self]

/-- Each deed does to the tree what `Deed.folders` says. -/
theorem IsRoot.perform (hr : IsRoot root D) (x : Deed β) :
    IsRoot (Transfer.perform root x) (x.folders D) := by
  cases x with
  | put d h first rest =>
    cases hD : D.ready d with
    | none =>
      obtain ⟨hfail, hsame⟩ := turn_put_refused hr hD h first
      simp only [Transfer.perform, Deed.folders, hfail, hD, Bool.false_eq_true, if_false,
        Option.map_none, update_none_of_ready hD]
      exact hsame
    | some F =>
      obtain ⟨hok, hfirst⟩ := turn_put_first hr hD h first
      simp only [Transfer.perform, Deed.folders, hok, hD, if_true, Option.map_some]
      exact turns_put_next rest hfirst
  | del d h =>
    have hprep := hr.prepare d
    cases hD : D.ready d with
    | none =>
      rw [hD] at hprep
      simp only [Deed.folders, hD, Option.map_none]
      exact (hprep.within_missing (Function.update_self ..) h delFile).2
    | some F =>
      rw [hD] at hprep
      have hdel := hprep.within_file (Function.update_self ..) (h := h) delFile (delFile_file (F h))
      rw [Function.update_idem] at hdel
      simp only [Deed.folders, hD, Option.map_some]
      exact hdel.2
  | domCreate d =>
    have hnew := (hr.prepare d).within (d := d) _ fun x hx => hx.chkDirAndCleanCreate
    rw [Function.update_idem] at hnew
    exact hnew.2
  | domFlush d =>
    have hdel := (hr.prepare d).within (d := d) Transfer.delDir (o := none) fun x hx => by
      rw [hx.delDir]
      exact ⟨rfl, rfl⟩
    have hnew := hdel.2.within (d := d) _ fun x hx => hx.chkDirAndCreate
    rw [Function.update_idem, Function.update_idem, Function.update_self] at hnew
    exact hnew.2
  | domDestroy d =>
    have hdel := (hr.prepare d).within (d := d) Transfer.delDir (o := none) fun x hx => by
      rw [hx.delDir]
      exact ⟨rfl, rfl⟩
    rw [Function.update_idem] at hdel
    exact hdel.2
  | flushAll d =>
    show IsRoot (Transfer.chkDirAndCreate (Transfer.delDir (Transfer.prepare d root)).1).1 _
    rw [(hr.prepare d).delDir]
    exact isRoot_empty

/-- `main` empties the root directory, whatever was in it. -/
theorem isRoot_startUp {x : Slot Nat β} (hx : ∀ b, x ≠ some (.file b)) :
    IsRoot (startUp x) fun _ => none := by
  cases x with
  | none => exact isRoot_empty
  | some t =>
    cases t with
    | file b => exact absurd rfl (hx b)
    | dir es =>
      have hdel : Transfer.delDir (some (.dir es)) = (none, true) := by
        simp [Transfer.delDir, delNode_dir (.dir es) rfl]
      unfold startUp Transfer.chkDirAndCleanCreate
      rw [if_neg (by simp), hdel]
      exact isRoot_empty

theorem isRoot_run {x : Slot Nat β} (hx : ∀ b, x ≠ some (.file b)) (l : List (Deed β)) :
    IsRoot (l.foldl Transfer.perform (startUp x)) (l.foldl Deed.folders fun _ => none) := by
  have hall : ∀ (l : List (Deed β)) {root : Slot Nat β} {D : Folders β}, IsRoot root D →
      IsRoot (l.foldl Transfer.perform root) (l.foldl Deed.folders D) := by
    intro l
    induction l with
    | nil => exact fun hr => hr
    | cons x l ih => exact fun hr => ih (hr.perform x)
  exact hall l (isRoot_startUp hx)

theorem fileAt_cons {n : Nat} {p : List Nat} {t : Node Nat β} {c : List β} :
    t.fileAt (n :: p) = some c ↔ ∃ x, t.entry n = some x ∧ x.fileAt p = some c := by
  have hwalk : t.walk (n :: p) = (t.entry n).bind (Node.walk p) := rfl
  unfold Node.fileAt
  rw [hwalk]
  cases t.entry n with
  | none => simp
  | some x => simp

theorem fileAt_dir {t : Node Nat β} (h : t.isDir) : t.fileAt [] = none := by
  cases t with
  | file b => cases h
  | dir es => rfl

theorem fileAt_file (p : List Nat) (b : List β) :
    (Node.file b : Node Nat β).fileAt p = if p = [] then some b else none := by
  cases p <;> rfl

/-- The regular files in a folder. -/
theorem fileAt_folder {t : Node Nat β} {F : Folder β} (ht : Lists UInt32.toNat IsFile t F)
    {p : List Nat} {c : List β} :
    t.fileAt p = some c ↔ ∃ h : UInt32, p = [h.toNat] ∧ F h = some c := by
  cases p with
  | nil =>
    rw [fileAt_dir ht.dir]
    simp
  | cons n p =>
    rw [fileAt_cons]
    constructor
    · rintro ⟨x, hx, hc⟩
      obtain ⟨h, rfl⟩ := ht.named n x hx
      obtain ⟨b, hb, rfl⟩ := Option.map_eq_some_iff.mp ((ht.entries h).symm.trans hx)
      rw [fileAt_file] at hc
      by_cases hp : p = []
      · rw [if_pos hp] at hc
        exact ⟨h, by rw [hp], hb.trans hc⟩
      · rw [if_neg hp] at hc
        cases hc
    · rintro ⟨h, hp, hc⟩
      obtain ⟨rfl, rfl⟩ := List.cons.inj hp
      have hentry : t.entry h.toNat = (F h).map .file := ht.entries h
      rw [hc] at hentry
      exact ⟨.file c, hentry, rfl⟩

/-- The regular files under the root are those of the folders. -/
theorem IsRoot.fileAt_iff {t : Node Nat β} (hr : IsRoot (some t) D) {p : List Nat} {c : List β} :
    t.fileAt p = some c ↔
      ∃ (d : Domid) (h : UInt32), p = [d.toNat, h.toNat] ∧ D.files d h = some c := by
  obtain ⟨u, hu, ht⟩ := hr
  obtain rfl := Option.some.inj hu
  cases p with
  | nil =>
    rw [fileAt_dir ht.dir]
    simp
  | cons n p =>
    rw [fileAt_cons]
    constructor
    · rintro ⟨x, hx, hc⟩
      obtain ⟨d, rfl⟩ := ht.named n x hx
      have hfolder := ht.entries d
      rw [hx] at hfolder
      rcases hfolder.cases with ⟨-, hnone⟩ | ⟨F, y, hD, hy, hF⟩
      · cases hnone
      · obtain rfl := Option.some.inj hy
        obtain ⟨h, rfl, hfile⟩ := (fileAt_folder hF).mp hc
        refine ⟨d, h, rfl, ?_⟩
        unfold Folders.files
        rw [hD]
        exact hfile
    · rintro ⟨d, h, hp, hc⟩
      obtain ⟨rfl, rfl⟩ := List.cons.inj hp
      obtain ⟨F, hD, hfile⟩ := Option.bind_eq_some_iff.mp hc
      have hfolder := ht.entries d
      rw [hD] at hfolder
      obtain ⟨y, hy, hF⟩ := hfolder
      exact ⟨y, hy, (fileAt_folder hF).mpr ⟨h, rfl, hfile⟩⟩

end

/-- What the requests are meant to do to the map of all files. -/
def Deed.apply (m : Domid → UInt32 → Option (List β)) : Deed β → Domid → UInt32 → Option (List β)
  | .put d h first rest =>
    fun d' h' => if d' = d ∧ h' = h then some (first :: rest).flatten else m d' h'
  | .del d h => fun d' h' => if d' = d ∧ h' = h then none else m d' h'
  | .domCreate d | .domFlush d | .domDestroy d => fun d' h' => if d' = d then none else m d' h'
  | .flushAll _ => fun _ _ => none

/-- Whether the directory of domain 0 exists after a deed. -/
def Deed.dir0 (b : Bool) : Deed β → Bool
  | .domCreate d | .domFlush d => b || d = 0
  | .domDestroy d => b && d ≠ 0
  | .flushAll _ => false
  | _ => b

def Deed.puts0 : Deed β → Bool
  | .put d _ _ _ => d = 0
  | _ => false

/-- Domain 0 has its directory whenever a file is put into it. -/
def Grounded : Bool → List (Deed β) → Prop
  | _, [] => True
  | b, x :: l => (x.puts0 → b) ∧ Grounded (x.dir0 b) l

section
variable {D : Folders β}

theorem files_update (D : Folders β) (d d' : Domid) (h : UInt32) (o : Option (Folder β)) :
    Folders.files (Function.update D d o) d' h = if d' = d then o.bind (· h) else D.files d' h := by
  unfold Folders.files
  by_cases hd : d' = d
  · rw [hd, Function.update_self, if_pos rfl]
  · rw [Function.update_of_ne hd, if_neg hd]

/-- A folder that was made on demand is empty. -/
theorem ready_files {d : Domid} {F : Folder β} (hD : D.ready d = some F) (h : UInt32) :
    F h = D.files d h := by
  unfold Folders.ready at hD
  unfold Folders.files
  by_cases hd : d ≠ 0
  · rw [if_pos hd] at hD
    rw [← Option.some.inj hD]
    cases D d <;> rfl
  · rw [if_neg hd] at hD
    rw [hD]
    rfl

theorem files_update_file {d : Domid} {F : Folder β} (hD : D.ready d = some F) (h : UInt32)
    (c : Option (List β)) (d' : Domid) (h' : UInt32) :
    Folders.files (Function.update D d (some (Function.update F h c))) d' h' =
      if d' = d ∧ h' = h then c else D.files d' h' := by
  rw [files_update]
  by_cases hd : d' = d
  · rw [if_pos hd, hd]
    show Function.update F h c h' = _
    by_cases hh : h' = h
    · rw [hh, Function.update_self, if_pos ⟨rfl, rfl⟩]
    · rw [Function.update_of_ne hh, if_neg (fun hx => hh hx.2)]
      exact ready_files hD h'
  · rw [if_neg hd, if_neg (fun hx => hd hx.1)]

/-- A deed does to the files what it is meant to, unless it puts a file into a missing directory. -/
theorem folders_files (x : Deed β) (hx : x.puts0 → (D 0).isSome) :
    (x.folders D).files = x.apply D.files := by
  funext d' h'
  cases x with
  | put d h first rest =>
    cases hD : D.ready d with
    | none =>
      obtain ⟨rfl, hnone⟩ := ready_eq_none hD
      rw [hnone] at hx
      exact absurd (hx rfl) (by simp)
    | some F =>
      simp only [Deed.folders, Deed.apply, hD, Option.map_some]
      exact files_update_file hD h _ d' h'
  | del d h =>
    cases hD : D.ready d with
    | none =>
      obtain ⟨rfl, hnone⟩ := ready_eq_none hD
      simp only [Deed.folders, Deed.apply, hD, Option.map_none, update_none_of_ready hD]
      by_cases hh : d' = 0 ∧ h' = h
      · rw [if_pos hh, hh.1]
        unfold Folders.files
        rw [hnone]
        rfl
      · rw [if_neg hh]
    | some F =>
      simp only [Deed.folders, Deed.apply, hD, Option.map_some]
      exact files_update_file hD h none d' h'
  | domCreate d => exact files_update D d d' h' _
  | domFlush d => exact files_update D d d' h' _
  | domDestroy d => exact files_update D d d' h' _
  | flushAll d => rfl

theorem folders_dir0 (x : Deed β) : ((x.folders D) 0).isSome = x.dir0 (D 0).isSome := by
  have hready : (D.ready 0).isSome = (D 0).isSome := rfl
  cases x with
  | put d | del d =>
    by_cases hd : d = 0
    · rw [hd]
      simp [Deed.folders, Deed.dir0, hready]
    · simp [Deed.folders, Deed.dir0, Function.update_of_ne (Ne.symm hd)]
  | domCreate d | domFlush d | domDestroy d =>
    by_cases hd : d = 0
    · simp [Deed.folders, Deed.dir0, hd]
    · simp [Deed.folders, Deed.dir0, hd, Function.update_of_ne (Ne.symm hd)]
  | flushAll d => rfl

theorem run_files (l : List (Deed β)) (hl : Grounded (D 0).isSome l) :
    (l.foldl Deed.folders D).files = l.foldl Deed.apply D.files := by
  induction l generalizing D with
  | nil => rfl
  | cons x l ih =>
    obtain ⟨hx, hl⟩ := hl
    rw [← folders_dir0 x] at hl
    show (l.foldl Deed.folders (x.folders D)).files = l.foldl Deed.apply (x.apply D.files)
    rw [ih hl, folders_files x hx]

end

section
variable {k : Disk β} {D : Folders β} {d : Domid} {h : UInt32}

/-- What the exchange of pages knows of the tree. -/
structure Shows (k : Disk β) (D : Folders β) : Prop where
  files : k.files = D.files
  dir0 : k.dir0 = (D 0).isSome

theorem Shows.setFile (hk : Shows k D) {F : Folder β} (hD : D.ready d = some F)
    (c : Option (List β)) :
    Shows (k.setFile d h c) (Function.update D d (some (Function.update F h c))) where
  files := by
    funext d' h'
    rw [files_update_file hD, ← hk.files]
    rfl
  dir0 := by
    show k.dir0 = _
    rw [hk.dir0]
    by_cases hd : d = 0
    · have hready : D.ready 0 = D 0 := rfl
      rw [hd, hready] at hD
      rw [hd, hD, Function.update_self]
      rfl
    · rw [Function.update_of_ne (Ne.symm hd)]

/-- `Disk.openFile` fails where the tree has no directory, and else makes the same file. -/
theorem Shows.openFile (hk : Shows k D) :
    (k.openFile d h = none ∧ D.ready d = none) ∨
      ∃ F j, k.openFile d h = some (k.nextFd, j) ∧ D.ready d = some F ∧
        Shows j (Function.update D d (some (Function.update F h (some [])))) := by
  unfold Disk.openFile
  cases hD : D.ready d with
  | none =>
    obtain ⟨rfl, hnone⟩ := ready_eq_none hD
    have hdir : ¬ k.dir0 = true := by
      rw [hk.dir0, hnone]
      simp
    exact .inl ⟨if_pos ⟨rfl, hdir⟩, rfl⟩
  | some F =>
    have hdir : ¬ (d = 0 ∧ ¬ k.dir0 = true) := by
      rintro ⟨rfl, hno⟩
      have hready : D 0 = some F := hD
      rw [hk.dir0, hready] at hno
      exact hno rfl
    have hset := hk.setFile (h := h) hD (some [])
    exact .inr ⟨F, _, if_neg hdir, rfl, hset.files, hset.dir0⟩

/-- A part is appended to the same file. -/
theorem Shows.write {fd : Nat} {file : List β} (hk : Shows k D) (hfd : AtEnd k fd d h file)
    {F : Folder β} (hD : D.ready d = some F) (data : List β) :
    Shows (k.write fd data) (Function.update D d (some (Function.update F h (some (file ++ data))))) := by
  have hset := hk.setFile (h := h) hD (some (file ++ data))
  rw [write_eq_appended hfd]
  exact ⟨hset.files, hset.dir0⟩

end

/-- From start-up on, while files of domain 0 are put only when its directory exists, the regular
files under the root are exactly the map the requests describe. -/
theorem daemon_is_keyed_store {x : Slot Nat β} (hx : ∀ b, x ≠ some (.file b)) (l : List (Deed β))
    (hl : Grounded false l) :
    ∃ t, l.foldl perform (startUp x) = some t ∧ ∀ p c, t.fileAt p = some c ↔
      ∃ (d : Domid) (h : UInt32), p = [d.toNat, h.toNat] ∧
        l.foldl Deed.apply (fun _ _ => none) d h = some c := by
  have hr := isRoot_run hx l
  obtain ⟨t, ht, -⟩ := id hr
  rw [ht] at hr
  have hfiles : (l.foldl Deed.folders fun _ => none).files =
      l.foldl Deed.apply (fun _ _ => none) := run_files l hl
  refine ⟨t, ht, fun p c => ?_⟩
  rw [hr.fileAt_iff, hfiles]

end

/-- Files of domain 0 and of a domain that is destroyed and comes back. -/
def groundedDeeds : List (Deed Nat) :=
  [.domCreate 0, .put 0 5 [1] [[2]], .put 3 7 [4] [], .domDestroy 3, .put 3 8 [9] []]

theorem daemon_is_keyed_store_grounded :
    ∃ t, groundedDeeds.foldl perform (startUp (some (.dir [(1, .file [0])]))) = some t ∧
      t.fileAt [0, 5] = some [1, 2] ∧ t.fileAt [3, 8] = some [9] ∧ t.fileAt [1] ≠ some [0] := by
  obtain ⟨t, ht, hfiles⟩ := daemon_is_keyed_store (x := some (.dir [(1, .file [0])]))
    (by simp) groundedDeeds (by simp [groundedDeeds, Grounded, Deed.puts0, Deed.dir0])
  refine ⟨t, ht, (hfiles _ _).mpr ⟨0, 5, rfl, rfl⟩, (hfiles _ _).mpr ⟨3, 8, rfl, rfl⟩, ?_⟩
  intro hone
  obtain ⟨d, h, hp, -⟩ := (hfiles _ _).mp hone
  exact absurd (congrArg List.length hp) (by simp)

/-- The first file of domain 0 is lost, and so is one put after all was flushed: its directory is
made by no request but those that create or flush the domain. -/
theorem put_for_dom0_is_lost :
    [[Deed.put 0 5 [1] []], [.domCreate 0, .flushAll 0, .put 0 5 [1] []]].Forall fun l =>
      l.foldl perform (startUp none) = some (.dir []) ∧
        (Node.dir [] : Node Nat Nat).fileAt [0, 5] = none ∧
        l.foldl Deed.apply (fun _ _ => none) 0 5 = some [1] := by
  constructor
  · exact ⟨rfl, rfl, rfl⟩
  · exact ⟨rfl, rfl, rfl⟩

end UniCache.Transfer
