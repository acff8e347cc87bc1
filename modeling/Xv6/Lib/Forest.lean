import Mathlib

namespace Xv6.Lib

/-!
# Library — forests of pointers

Blocks hold pointers to blocks, and 0 is the null pointer.  `E p i` is the pointer with the index
`i` in the block `p`, and `R r` is the pointer in the root `r`.  A cell is a root and a path of
indices below it.

* `follow`, `value` — the pointer that is in a cell;
* `Forest` — no two cells of a prefix-closed set hold the same pointer;
* `value_congr` — the cells depend only on the blocks that are reached;
* `value_graft`, `Forest.graft` — a fresh, empty block is put into one cell, and the other cells
  are as before.
-/

variable {α ρ ι : Type*} [Zero α] [DecidableEq α]

/-- The pointer that is reached from `p` along a path. -/
def follow (E : α → ι → α) : α → List ι → α
  | p, [] => p
  | p, i :: is => if p = 0 then 0 else follow E (E p i) is

/-- The pointer in a cell. -/
def value (E : α → ι → α) (R : ρ → α) (c : ρ × List ι) : α := follow E (R c.1) c.2

variable {E E' : α → ι → α} {R R' : ρ → α} {C : ρ × List ι → Prop} {c g : ρ × List ι} {b p : α}
  {r : ρ} {i : ι} {is js : List ι}

@[simp] theorem follow_nil : follow E p [] = p := rfl

@[simp] theorem follow_zero : follow E 0 is = 0 := by
  cases is with
  | nil => rfl
  | cons i is => exact if_pos rfl

theorem follow_cons (hp : p ≠ 0) : follow E p (i :: is) = follow E (E p i) is := if_neg hp

theorem follow_append : follow E p (is ++ js) = follow E (follow E p is) js := by
  induction is generalizing p with
  | nil => rfl
  | cons i is ih =>
    by_cases hp : p = 0
    · subst hp
      simp
    · rw [List.cons_append, follow_cons hp, follow_cons hp, ih]

@[simp] theorem value_nil : value E R (r, []) = R r := rfl

/-- A cell below another one. -/
theorem value_append : value E R (r, is ++ js) = follow E (value E R (r, is)) js := follow_append

theorem value_concat (h : value E R (r, is) ≠ 0) :
    value E R (r, is ++ [i]) = E (value E R (r, is)) i := by
  rw [value_append, follow_cons h, follow_nil]

theorem value_concat_zero (h : value E R (r, is) = 0) : value E R (r, is ++ [i]) = 0 := by
  rw [value_append, h, follow_zero]

/-- All cells above a cell that holds a pointer hold one. -/
theorem value_prefix_ne_zero (h : value E R (r, is ++ js) ≠ 0) : value E R (r, is) ≠ 0 := by
  intro h0
  rw [value_append, h0, follow_zero] at h
  exact h rfl

/-- A set of cells that contains the cells above its members. -/
def PrefixClosed (C : ρ × List ι → Prop) : Prop := ∀ r is i, C (r, is ++ [i]) → C (r, is)

theorem PrefixClosed.append (hC : PrefixClosed C) (h : C (r, is ++ js)) : C (r, is) := by
  induction js using List.reverseRecOn with
  | nil => rwa [List.append_nil] at h
  | append_singleton js j ih =>
    rw [← List.append_assoc] at h
    exact ih (hC r (is ++ js) j h)

/-- The cells depend only on the roots and on the blocks that are reached. -/
theorem value_congr (hC : PrefixClosed C) (hR : ∀ is, C (r, is) → R' r = R r)
    (hE : ∀ is i, C (r, is ++ [i]) → value E R (r, is) ≠ 0 →
      E' (value E R (r, is)) i = E (value E R (r, is)) i)
    (hc : C (r, is)) : value E' R' (r, is) = value E R (r, is) := by
  induction is using List.reverseRecOn with
  | nil => exact hR [] hc
  | append_singleton is i ih =>
    have hsame := ih (hC r is i hc)
    by_cases h0 : value E R (r, is) = 0
    · rw [value_concat_zero h0, value_concat_zero (hsame.trans h0)]
    · rw [value_concat h0, value_concat (hsame ▸ h0), hsame, hE is i hc h0]

/-- A fresh block without pointers is put into the cell `g`. -/
structure Graft (E : α → ι → α) (R : ρ → α) (C : ρ × List ι → Prop) (E' : α → ι → α) (R' : ρ → α)
    (g : ρ × List ι) (b : α) : Prop where
  ne_zero : b ≠ 0
  empty : value E R g = 0
  parent : ∀ r is i, g = (r, is ++ [i]) → value E R (r, is) ≠ 0
  root_self : ∀ r, g = (r, []) → R' r = b
  root : ∀ r, C (r, []) → g ≠ (r, []) → R' r = R r
  self : ∀ r is i, g = (r, is ++ [i]) → E' (value E R (r, is)) i = b
  other : ∀ r is i, C (r, is ++ [i]) → g ≠ (r, is ++ [i]) → value E R (r, is) ≠ 0 →
    E' (value E R (r, is)) i = E (value E R (r, is)) i
  new : ∀ i, E' b i = 0

/-- No other cell changes. -/
theorem Graft.value_eq (h : Graft E R C E' R' g b) (hC : PrefixClosed C) (hc : C (r, is)) :
    (g = (r, is) → value E' R' (r, is) = b) ∧
    (g ≠ (r, is) → value E' R' (r, is) = value E R (r, is)) := by
  induction is using List.reverseRecOn with
  | nil => exact ⟨h.root_self r, h.root r hc⟩
  | append_singleton is i ih =>
    obtain ⟨hself, hother⟩ := ih (hC r is i hc)
    by_cases hg : g = (r, is)
    · -- The cell is below the new block.
      have hne : g ≠ (r, is ++ [i]) := by
        rw [hg]
        intro heq
        have hlen := congrArg List.length (Prod.mk.inj heq).2
        simp at hlen
      have hold : value E R (r, is) = 0 := by
        rw [← hg]
        exact h.empty
      refine ⟨fun heq => absurd heq hne, fun _ => ?_⟩
      rw [value_concat_zero hold, value_concat (by rw [hself hg]; exact h.ne_zero), hself hg, h.new]
    · have hsame := hother hg
      constructor
      · intro heq
        have hparent := h.parent r is i heq
        rw [value_concat (hsame ▸ hparent), hsame, h.self r is i heq]
      · intro hne
        by_cases h0 : value E R (r, is) = 0
        · rw [value_concat_zero h0, value_concat_zero (hsame.trans h0)]
        · rw [value_concat h0, value_concat (hsame ▸ h0), hsame, h.other r is i hc hne h0]

/-- No two cells of the set hold the same pointer. -/
def Forest (E : α → ι → α) (R : ρ → α) (C : ρ × List ι → Prop) : Prop :=
  ∀ c c', C c → C c' → value E R c = value E R c' → value E R c ≠ 0 → c = c'

/-- A forest into which a fresh block is put is a forest. -/
theorem Forest.graft (h : Forest E R C) (hg : Graft E R C E' R' g b) (hC : PrefixClosed C)
    (hfresh : ∀ c, C c → value E R c ≠ b) : Forest E' R' C := by
  intro c c' hc hc' heq hne
  obtain ⟨hself, hother⟩ := hg.value_eq hC hc
  obtain ⟨hself', hother'⟩ := hg.value_eq hC hc'
  by_cases hgc : g = c
  · by_cases hgc' : g = c'
    · rw [← hgc, hgc']
    · rw [hself hgc, hother' hgc'] at heq
      exact absurd heq.symm (hfresh c' hc')
  · by_cases hgc' : g = c'
    · rw [hother hgc, hself' hgc'] at heq
      exact absurd heq (hfresh c hc)
    · rw [hother hgc] at heq hne
      rw [hother' hgc'] at heq
      exact h c c' hc hc' heq hne

/-! ### Missing pointers -/

/-- The number of pointers that are missing on a path below `p`. -/
def missing (E : α → ι → α) : α → List ι → Nat
  | _, [] => 0
  | p, i :: is => if E p i = 0 then is.length + 1 else missing E (E p i) is

theorem missing_le : missing E p is ≤ is.length := by
  induction is generalizing p with
  | nil => exact Nat.le_refl _
  | cons i is ih =>
    rw [missing, List.length_cons]
    split
    · exact Nat.le_refl _
    · exact Nat.le_succ_of_le ih

theorem missing_eq_zero (hp : p ≠ 0) : missing E p is = 0 ↔ follow E p is ≠ 0 := by
  induction is generalizing p with
  | nil => simp [missing, hp]
  | cons i is ih =>
    rw [missing, follow_cons hp]
    split
    · rename_i h0
      simp [h0]
    · rename_i h0
      exact ih h0

end Xv6.Lib
