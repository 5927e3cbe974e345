import UniCache.Transfer.Protocol

/-! What one part of an exchange moves: the four page loops as single copies. -/
namespace UniCache.Transfer
open Base Mcd Buffer

variable {β : Type}

/-- The bytes of a part, of at most `n` pages. -/
def part (n left : Nat) : Nat := min left (pageBytes * n)

theorem part_succ {n l : Nat} (h : pageBytes < l) :
    pageBytes + part n (l - pageBytes) = part (n + 1) l := by
  unfold part pageBytes at *
  omega

theorem part_of_le {n l : Nat} (h : l ≤ pageBytes) : part (n + 1) l = l := by
  unfold part pageBytes at *
  omega

theorem part_le (n left : Nat) : part n left ≤ pageBytes * n := Nat.min_le_right ..

theorem part_of_not_le {n left : Nat} (h : ¬ left ≤ pageBytes * n) : part n left = pageBytes * n :=
  Nat.min_eq_right (Nat.le_of_not_le h)

theorem part_of_le_pages {n left : Nat} (h : left ≤ pageBytes * n) : part n left = left :=
  Nat.min_eq_left h

theorem sub_page_le_iff {n l : Nat} (h : pageBytes < l) :
    l - pageBytes ≤ pageBytes * n ↔ l ≤ pageBytes * (n + 1) := by
  unfold pageBytes at *
  omega

theorem fillPages_spec (kv : Buffer β) (left page : Nat) (req : Msg) (shared : Buffer β)
    (hf : req.flags.final = false)
    (hc : left = 0 → req.flags.cont = true ∧ 0 < req.totsize - req.accsize) :
    ∃ cont, fillPages kv left page req shared =
      ({ req with
          cursize := req.cursize + part left (req.totsize - req.accsize)
          accsize := req.accsize + part left (req.totsize - req.accsize)
          flags := { req.flags with
            cont := cont
            final := decide (req.totsize - req.accsize ≤ pageBytes * left) } },
        shared.memcpy (pageBytes * page) kv req.accsize (part left (req.totsize - req.accsize))) ∧
      (req.totsize - req.accsize ≤ pageBytes * left ∨ cont = true) := by
  induction left generalizing page req shared with
  | zero =>
    obtain ⟨hcont, hpos⟩ := hc rfl
    have hnot : ¬ req.totsize - req.accsize ≤ pageBytes * 0 := by omega
    have hp : part 0 (req.totsize - req.accsize) = 0 := by simp [part]
    refine ⟨true, ?_, .inr rfl⟩
    rw [hp, memcpy_zero, decide_eq_false hnot, ← hf, ← hcont]
    rfl
  | succ left ih =>
    unfold fillPages
    by_cases hbig : req.totsize - req.accsize > pageBytes
    · have hrest : ¬ req.totsize - (req.accsize + pageBytes) ≤ 0 := by omega
      simp only [if_pos hbig, if_neg hrest]
      obtain ⟨cont, heq, hor⟩ := ih (page + 1)
        { req with
          cursize := req.cursize + pageBytes
          accsize := req.accsize + pageBytes
          flags := { req.flags with cont := true } }
        (shared.memcpy (pageBytes * page) kv req.accsize pageBytes) hf
        (fun _ => ⟨rfl, by simp only; omega⟩)
      simp only [Nat.sub_add_eq] at heq hor
      have hfin := sub_page_le_iff (n := left) hbig
      have hdec : decide (req.totsize - req.accsize - pageBytes ≤ pageBytes * left) =
          decide (req.totsize - req.accsize ≤ pageBytes * (left + 1)) := decide_eq_decide.mpr hfin
      refine ⟨cont, ?_, hor.imp_left hfin.mp⟩
      rw [heq, hdec]
      simp only [Nat.mul_add, Nat.mul_one, memcpy_add, part_succ hbig, Nat.add_assoc]
    · have hsmall : req.totsize - req.accsize ≤ pageBytes := Nat.le_of_not_lt hbig
      have hfin : req.totsize - req.accsize ≤ pageBytes * (left + 1) :=
        Nat.le_trans hsmall (Nat.le_mul_of_pos_right _ left.succ_pos)
      simp only [if_neg hbig, part_of_le hsmall, decide_eq_true hfin]
      exact ⟨req.flags.cont, rfl, .inl hfin⟩

/-- Taking a response's bytes is one copy; after full pages the size is the sum. -/
theorem takePages_spec (shared : Buffer β) (rspCur left page acc cur : Nat) (kv : Buffer β)
    (hcur : cur ≤ pageBytes * left) (hpos : 0 < left) :
    (takePages shared rspCur left page acc cur kv).2 =
        kv.memcpy acc shared (pageBytes * page) cur ∧
      (cur = pageBytes * left → (takePages shared rspCur left page acc cur kv).1.1 = acc + cur) := by
  induction left generalizing page acc cur kv with
  | zero => exact absurd hpos (Nat.lt_irrefl 0)
  | succ left ih =>
    unfold takePages
    by_cases hbig : cur ≥ pageBytes
    · by_cases hend : cur - pageBytes ≤ 0
      · have hone : cur = pageBytes := by omega
        simp [hone]
      · simp only [if_pos hbig, if_neg hend]
        have hleft : 0 < left := by
          rcases Nat.eq_zero_or_pos left with rfl | h
          · unfold pageBytes at *
            omega
          · exact h
        have hrest : cur - pageBytes ≤ pageBytes * left := by
          unfold pageBytes at *
          omega
        obtain ⟨hkv, hacc⟩ := ih (page + 1) (acc + pageBytes) (cur - pageBytes)
          (kv.memcpy acc shared (pageBytes * page) pageBytes) hrest hleft
        refine ⟨?_, fun hfull => ?_⟩
        · rw [hkv, Nat.mul_add, Nat.mul_one, memcpy_add, Nat.add_sub_cancel' hbig]
        · rw [hacc (by rw [hfull, Nat.mul_add, Nat.mul_one, Nat.add_sub_cancel])]
          omega
    · simp only [if_neg hbig]
      refine ⟨trivial, fun hfull => ?_⟩
      unfold pageBytes at *
      omega

/-- A descriptor at the end of its file. -/
structure AtEnd (k : Disk β) (fd : Nat) (d : Domid) (h : UInt32) (file : List β) : Prop where
  fd : k.fds fd = some ((d, h), file.length)
  file : k.files d h = some file

/-- The world after `data` was appended through a descriptor. -/
def Disk.appended (fd : Nat) (d : Domid) (h : UInt32) (file data : List β) (k : Disk β) :
    Disk β :=
  { k.setFile d h (some (file ++ data)) with
    fds := Function.update k.fds fd (some ((d, h), (file ++ data).length)) }

theorem write_eq_appended {k : Disk β} {fd : Nat} {d : Domid} {h : UInt32} {file : List β}
    (hx : AtEnd k fd d h file) (data : List β) :
    k.write fd data = k.appended fd d h file data := by
  unfold Disk.write Disk.appended
  simp only [hx.fd, hx.file, Option.getD_some, List.take_length, List.length_append]
  rw [List.drop_eq_nil_of_le (Nat.le_add_right _ _), List.append_nil]

theorem appended_atEnd (k : Disk β) (fd : Nat) (d : Domid) (h : UInt32) (file data : List β) :
    AtEnd (k.appended fd d h file data) fd d h (file ++ data) where
  fd := Function.update_self ..
  file := if_pos ⟨rfl, rfl⟩

theorem appended_appended (k : Disk β) (fd : Nat) (d : Domid) (h : UInt32)
    (file data more : List β) :
    (k.appended fd d h file data).appended fd d h (file ++ data) more =
      k.appended fd d h file (data ++ more) := by
  unfold Disk.appended Disk.setFile
  simp only [Function.update_idem, List.append_assoc]
  congr 1
  funext d' h'
  by_cases hp : d' = d ∧ h' = h
  · rw [if_pos hp, if_pos hp]
  · simp only [if_neg hp]

theorem appended_nil {k : Disk β} {fd : Nat} {d : Domid} {h : UInt32} {file : List β}
    (hx : AtEnd k fd d h file) : k.appended fd d h file [] = k := by
  unfold Disk.appended Disk.setFile
  rw [List.append_nil, ← hx.fd, Function.update_eq_self]
  have hfiles : (fun d' h' => if d' = d ∧ h' = h then some file else k.files d' h') = k.files := by
    funext d' h'
    by_cases hp : d' = d ∧ h' = h
    · rw [if_pos hp, hp.1, hp.2, hx.file]
    · rw [if_neg hp]
  rw [hfiles]

/-- Writing out a part appends it to the file. -/
theorem writePages_spec (shared : Buffer β) {k : Disk β} {fd : Nat} {d : Domid} {h : UInt32}
    {file : List β} (hx : AtEnd k fd d h file) (left page cur : Nat) (hcur : cur ≤ pageBytes * left) :
    (writePages fd shared left page cur k).2 =
      k.appended fd d h file (shared.bytes (pageBytes * page) cur) := by
  induction left generalizing page cur k file with
  | zero =>
    have hzero : cur = 0 := by omega
    rw [hzero, bytes_zero, appended_nil hx]
    rfl
  | succ left ih =>
    unfold writePages
    by_cases hbig : cur ≥ pageBytes
    · simp only [if_pos hbig, write_eq_appended hx]
      by_cases hend : cur - pageBytes ≤ 0
      · rw [if_pos hend, Nat.le_antisymm (Nat.sub_eq_zero_iff_le.mp (Nat.le_zero.mp hend)) hbig]
      · rw [if_neg hend]
        have hrest : cur - pageBytes ≤ pageBytes * left := by
          unfold pageBytes at *
          omega
        rw [ih (appended_atEnd ..) (page + 1) (cur - pageBytes) hrest, appended_appended]
        have hadd := bytes_add shared (pageBytes * page) pageBytes (cur - pageBytes)
        rw [Nat.add_sub_cancel' hbig] at hadd
        rw [hadd]
        rfl
    · simp only [if_neg hbig, write_eq_appended hx]

/-- Reading a part of an empty file leaves the shared pages alone, whatever sizes and flags say. -/
theorem readPages_nil (left page leftSize start : Nat) (req : Msg) (shared : Buffer β)
    (hf : req.flags.final = false) (hc : left = 0 → req.flags.cont = true ∧ 0 < leftSize) :
    ∃ cont, readPages [] left page leftSize start req shared =
      ({ req with
          cursize := req.cursize + part left leftSize
          flags := { req.flags with
            cont := cont
            final := decide (leftSize ≤ pageBytes * left) } }, shared) ∧
      (leftSize ≤ pageBytes * left ∨ cont = true) := by
  induction left generalizing page leftSize start req with
  | zero =>
    obtain ⟨hcont, hpos⟩ := hc rfl
    have hnot : ¬ leftSize ≤ pageBytes * 0 := by omega
    have hp : part 0 leftSize = 0 := by simp [part]
    refine ⟨true, ?_, .inr rfl⟩
    rw [hp, decide_eq_false hnot, ← hf, ← hcont]
    rfl
  | succ left ih =>
    unfold readPages
    simp only [readInto_nil]
    by_cases hbig : leftSize ≥ pageBytes
    · by_cases hend : leftSize - pageBytes ≤ 0
      · have hone : leftSize = pageBytes := by omega
        have hfin : pageBytes ≤ pageBytes * (left + 1) :=
          Nat.le_mul_of_pos_right _ left.succ_pos
        simp only [hone, part_of_le (Nat.le_refl _), decide_eq_true hfin, ge_iff_le,
          Nat.le_refl, Nat.sub_self, if_true]
        exact ⟨true, rfl, .inl hfin⟩
      · have hgt : pageBytes < leftSize := by omega
        simp only [if_pos hbig, if_neg hend]
        obtain ⟨cont, heq, hor⟩ := ih (page + 1) (leftSize - pageBytes) (start + pageBytes)
          { req with cursize := req.cursize + pageBytes, flags := { req.flags with cont := true } }
          hf (fun _ => ⟨rfl, by omega⟩)
        have hfin := sub_page_le_iff (n := left) hgt
        have hdec : decide (leftSize - pageBytes ≤ pageBytes * left) =
            decide (leftSize ≤ pageBytes * (left + 1)) := decide_eq_decide.mpr hfin
        refine ⟨cont, ?_, hor.imp_left hfin.mp⟩
        rw [heq, hdec]
        simp only [part_succ hgt, Nat.add_assoc]
    · have hsmall : leftSize ≤ pageBytes := Nat.le_of_not_le hbig
      have hfin : leftSize ≤ pageBytes * (left + 1) :=
        Nat.le_trans hsmall (Nat.le_mul_of_pos_right _ left.succ_pos)
      simp only [if_neg hbig, part_of_le hsmall, decide_eq_true hfin]
      exact ⟨req.flags.cont, rfl, .inl hfin⟩

end UniCache.Transfer
