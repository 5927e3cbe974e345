import Mathlib.Data.List.Nodup
import Mathlib.Data.List.Perm.Basic
import Mathlib.Logic.Function.Basic
import Mathlib.Logic.Relation

/-! Blocks cut from pages, each of them free or linked in one of several lists. -/
namespace UniCache.Base

/-- The page a block lies in, and its place there. -/
abbrev Block := Nat × Nat

/-- An allocator whose pages are released all at once. While it is off it takes no page. -/
structure Slab (ι : Type) where
  on : Bool
  pages : List Nat
  free : List Block
  next : Nat
  lists : ι → List Block

namespace Slab
variable {ι : Type}

def Unlinked (a : Slab ι) : Prop := ∀ i, a.lists i = []

/-- What may happen to a slab while it keeps its pages. -/
inductive Step [DecidableEq ι] : Slab ι → Slab ι → Prop
  | grow {a : Slab ι} (n : Nat) (on : a.on) (empty : a.free = []) : Step a { a with
      pages := a.pages ++ [a.next]
      free := (List.range n).map fun k => (a.next, k)
      next := a.next + 1 }
  | link {a : Slab ι} (i : ι) {p : Block} {ps : List Block} (free : a.free = p :: ps) : Step a
      { a with free := ps, lists := Function.update a.lists i (a.lists i ++ [p]) }
  | release {a : Slab ι} {i : ι} {p : Block} {l : List Block} (perm : (a.lists i).Perm (p :: l)) :
      Step a { a with free := p :: a.free, lists := Function.update a.lists i l }
  | forget {a : Slab ι} {lists : ι → List Block} (sub : ∀ i, lists i = a.lists i ∨ lists i = []) :
      Step a { a with lists }

def Steps [DecidableEq ι] : Slab ι → Slab ι → Prop := Relation.ReflTransGen Step

/-- All pages are released, and the slab is turned on or off. -/
def exit (a : Slab ι) (on : Bool) : Slab ι := { a with on, pages := [], free := [] }

/-- Every block is free or in one list, once, and lies in a page of the slab. -/
structure Sound (a : Slab ι) : Prop where
  free_nodup : a.free.Nodup
  lists_nodup : ∀ i, (a.lists i).Nodup
  free_lists : ∀ i, a.free.Disjoint (a.lists i)
  lists_lists : ∀ i j, i ≠ j → (a.lists i).Disjoint (a.lists j)
  free_pages : ∀ p ∈ a.free, p.1 ∈ a.pages
  lists_pages : ∀ i, ∀ p ∈ a.lists i, p.1 ∈ a.pages

/-- The invariant that carries soundness. -/
structure Inv (a : Slab ι) : Prop extends a.Sound where
  pages_next : ∀ q ∈ a.pages, q < a.next
  off : a.on = false → a.pages = []

/-- Without pages nothing can be linked. -/
theorem Sound.unlinked {a : Slab ι} (h : a.Sound) (hp : a.pages = []) : a.Unlinked := by
  intro i
  apply List.eq_nil_iff_forall_not_mem.mpr
  intro p hmem
  have hpage := h.lists_pages i p hmem
  rw [hp] at hpage
  exact List.not_mem_nil hpage

section
variable {a : Slab ι}

theorem Inv.grow (h : a.Inv) (n : Nat) (on : a.on) : Inv { a with
    pages := a.pages ++ [a.next]
    free := (List.range n).map fun k => (a.next, k)
    next := a.next + 1 } where
  free_nodup := by
    apply List.Nodup.map _ List.nodup_range
    intro k m hkm
    exact (Prod.mk.inj hkm).2
  lists_nodup := h.lists_nodup
  free_lists i p hfree hlist := by
    -- the new page is above every page in use
    have hpage := h.pages_next p.1 (h.lists_pages i p hlist)
    obtain ⟨k, -, rfl⟩ := List.mem_map.mp hfree
    exact Nat.lt_irrefl _ hpage
  lists_lists := h.lists_lists
  free_pages p hp := by
    obtain ⟨k, -, rfl⟩ := List.mem_map.mp hp
    exact List.mem_append_right _ (List.mem_singleton.mpr rfl)
  lists_pages i p hp := List.mem_append_left _ (h.lists_pages i p hp)
  pages_next q hq := by
    rcases List.mem_append.mp hq with hq | hq
    · exact Nat.lt_succ_of_lt (h.pages_next q hq)
    · rw [List.mem_singleton.mp hq]
      exact Nat.lt_succ_self _
  off hoff := by
    rw [on] at hoff
    cases hoff

theorem Inv.forget (h : a.Inv) {lists : ι → List Block}
    (sub : ∀ i, lists i = a.lists i ∨ lists i = []) : Inv { a with lists } := by
  have hold : ∀ j q, q ∈ lists j → q ∈ a.lists j := by
    intro j q hq
    rcases sub j with hj | hj
    · rwa [hj] at hq
    · rw [hj] at hq
      cases hq
  have hnd : ∀ j, (lists j).Nodup := by
    intro j
    rcases sub j with hj | hj
    · rw [hj]
      exact h.lists_nodup j
    · rw [hj]
      exact List.nodup_nil
  exact
    { h with
      lists_nodup := hnd
      free_lists := fun j q hq hmem => h.free_lists j hq (hold j q hmem)
      lists_lists := fun j k hjk q hj hk => h.lists_lists j k hjk (hold j q hj) (hold k q hk)
      lists_pages := fun j q hq => h.lists_pages j q (hold j q hq) }

theorem Unlinked.inv_exit (h : a.Unlinked) (on : Bool) : (a.exit on).Inv where
  free_nodup := List.nodup_nil
  lists_nodup i := by
    show (a.lists i).Nodup
    rw [h i]
    exact List.nodup_nil
  free_lists i p hp := absurd hp List.not_mem_nil
  lists_lists i j _ p hp := by
    have hi : p ∈ a.lists i := hp
    rw [h i] at hi
    exact absurd hi List.not_mem_nil
  free_pages p hp := absurd hp List.not_mem_nil
  lists_pages i p hp := by
    have hi : p ∈ a.lists i := hp
    rw [h i] at hi
    exact absurd hi List.not_mem_nil
  pages_next q hq := absurd hq List.not_mem_nil
  off _ := rfl

/-- The pages can be released exactly when no block is linked. -/
theorem sound_exit_iff {on : Bool} : (a.exit on).Sound ↔ a.Unlinked := by
  constructor
  · intro h
    exact h.unlinked rfl
  · intro h
    exact (h.inv_exit on).toSound

end

section
variable [DecidableEq ι] {a b c : Slab ι} {i : ι} {p : Block} {l : List Block}

theorem steps_of_eq (h : b = a) : Steps a b := by
  rw [h]
  exact .refl

theorem Step.steps (h : Step a b) : Steps a b := .single h

theorem Steps.trans (h₁ : Steps a b) (h₂ : Steps b c) : Steps a c :=
  Relation.ReflTransGen.trans h₁ h₂

/-- A list after an update is its new value, or as it was. -/
theorem nodup_update {f : ι → List Block} (hf : ∀ j, (f j).Nodup) (hl : l.Nodup) (j : ι) :
    (Function.update f i l j).Nodup := by
  by_cases hj : j = i
  · rw [hj, Function.update_self]
    exact hl
  · rw [Function.update_of_ne hj]
    exact hf j

theorem mem_update_append {f : ι → List Block} {j : ι} {q : Block}
    (h : q ∈ Function.update f i (f i ++ [p]) j) : q ∈ f j ∨ (j = i ∧ q = p) := by
  by_cases hj : j = i
  · subst hj
    rw [Function.update_self] at h
    rcases List.mem_append.mp h with hq | hq
    · exact .inl hq
    · exact .inr ⟨rfl, List.mem_singleton.mp hq⟩
  · rw [Function.update_of_ne hj] at h
    exact .inl h

theorem Inv.link (h : a.Inv) (i : ι) {ps : List Block} (free : a.free = p :: ps) :
    Inv { a with free := ps, lists := Function.update a.lists i (a.lists i ++ [p]) } := by
  have hnd := h.free_nodup
  rw [free] at hnd
  obtain ⟨hp, hps⟩ := List.nodup_cons.mp hnd
  have hpfree : p ∈ a.free := by rw [free]; exact List.mem_cons_self
  have hsub : ∀ q ∈ ps, q ∈ a.free := fun q hq => by rw [free]; exact List.mem_cons_of_mem _ hq
  have hone : (a.lists i ++ [p]).Nodup := by
    apply (h.lists_nodup i).append (List.nodup_singleton p)
    intro q hq hqp
    rw [List.mem_singleton.mp hqp] at hq
    exact h.free_lists i hpfree hq
  have hfree : ∀ j, ps.Disjoint (Function.update a.lists i (a.lists i ++ [p]) j) := by
    intro j q hq hmem
    rcases mem_update_append hmem with hmem | ⟨-, rfl⟩
    · exact h.free_lists j (hsub q hq) hmem
    · exact hp hq
  have hlists : ∀ j k, j ≠ k → (Function.update a.lists i (a.lists i ++ [p]) j).Disjoint
      (Function.update a.lists i (a.lists i ++ [p]) k) := by
    intro j k hjk q hj hk
    -- the new block was free, so no other list has it
    rcases mem_update_append hj with hqj | ⟨hji, hqp⟩
    · rcases mem_update_append hk with hqk | ⟨-, hqp⟩
      · exact h.lists_lists j k hjk hqj hqk
      · rw [hqp] at hqj
        exact h.free_lists j hpfree hqj
    · rcases mem_update_append hk with hqk | ⟨hki, -⟩
      · rw [hqp] at hqk
        exact h.free_lists k hpfree hqk
      · exact hjk (hji.trans hki.symm)
  have hpages : ∀ j, ∀ q ∈ Function.update a.lists i (a.lists i ++ [p]) j, q.1 ∈ a.pages := by
    intro j q hq
    rcases mem_update_append hq with hq | ⟨-, rfl⟩
    · exact h.lists_pages j q hq
    · exact h.free_pages q hpfree
  exact
    { h with
      free_nodup := hps
      lists_nodup := nodup_update h.lists_nodup hone
      free_lists := hfree
      lists_lists := hlists
      free_pages := fun q hq => h.free_pages q (hsub q hq)
      lists_pages := hpages }

theorem Inv.release (h : a.Inv) (perm : (a.lists i).Perm (p :: l)) :
    Inv { a with free := p :: a.free, lists := Function.update a.lists i l } := by
  obtain ⟨hp, hl⟩ := List.nodup_cons.mp (perm.nodup (h.lists_nodup i))
  have hpi : p ∈ a.lists i := perm.mem_iff.mpr List.mem_cons_self
  have hold : ∀ j q, q ∈ Function.update a.lists i l j → q ∈ a.lists j ∧ q ≠ p := by
    intro j q hq
    by_cases hj : j = i
    · rw [hj, Function.update_self] at hq
      rw [hj]
      exact ⟨perm.mem_iff.mpr (List.mem_cons_of_mem _ hq), fun hqp => hp (hqp ▸ hq)⟩
    · rw [Function.update_of_ne hj] at hq
      exact ⟨hq, fun hqp => h.lists_lists j i hj hq (hqp ▸ hpi)⟩
  have hfree : ∀ j, (p :: a.free).Disjoint (Function.update a.lists i l j) := by
    intro j q hq hmem
    obtain ⟨hmem, hne⟩ := hold j q hmem
    rcases List.mem_cons.mp hq with hq | hq
    · exact hne hq
    · exact h.free_lists j hq hmem
  have hpages : ∀ q ∈ p :: a.free, q.1 ∈ a.pages := by
    intro q hq
    rcases List.mem_cons.mp hq with rfl | hq
    · exact h.lists_pages i q hpi
    · exact h.free_pages q hq
  exact
    { h with
      free_nodup := List.nodup_cons.mpr ⟨fun hf => h.free_lists i hf hpi, h.free_nodup⟩
      lists_nodup := nodup_update h.lists_nodup hl
      free_lists := hfree
      lists_lists := fun j k hjk q hj hk => h.lists_lists j k hjk (hold j q hj).1 (hold k q hk).1
      free_pages := hpages
      lists_pages := fun j q hq => h.lists_pages j q (hold j q hq).1 }

theorem Inv.step (h : a.Inv) (hstep : Step a b) : b.Inv := by
  cases hstep with
  | grow n on _ => exact h.grow n on
  | link i free => exact h.link i free
  | release perm => exact h.release perm
  | forget sub => exact h.forget sub

theorem Inv.steps (h : a.Inv) (hsteps : Steps a b) : b.Inv := by
  induction hsteps with
  | refl => exact h
  | tail _ hstep ih => exact ih.step hstep

end
end Slab
end UniCache.Base
