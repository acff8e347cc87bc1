import Mathlib

namespace Xv6.Lib

/-!
# Library — accounting for the items of an indexed family

A structure that holds items under the indices below a bound is described by the list of all its
items, `(List.range n).flatMap f`.  When the items under one index change, the whole list changes
by as much.

* `flatMap_range_erase` — the items under one index, and those under the other ones;
* `perm_flatMap_range` — a change under one index carries over to the whole;
* `card_update` — how many members of a finite family have a property, when one member changes;
* `Partition` / `Partition.exchange` — every item has one owner, also after an exchange between two.
-/

open scoped List

variable {α : Type*} {n i : Nat} {f g : Nat → List α}

/-- The items under one index first, then those under all other ones. -/
theorem flatMap_range_erase (hi : i < n) :
    ((List.range n).flatMap f).Perm (f i ++ ((List.range n).erase i).flatMap f) := by
  have hperm : (List.range n).Perm (i :: (List.range n).erase i) :=
    List.perm_cons_erase (List.mem_range.mpr hi)
  simpa using hperm.flatMap_right f

/-- If what is exchanged for something else under the index `i` is given back outside the family,
    then nothing is lost in the whole. -/
theorem perm_flatMap_range (hi : i < n) (hne : ∀ j, j < n → j ≠ i → g j = f j) {xs ys : List α}
    (h : (xs ++ f i).Perm (ys ++ g i)) :
    (xs ++ (List.range n).flatMap f).Perm (ys ++ (List.range n).flatMap g) := by
  have hrest : ((List.range n).erase i).flatMap g = ((List.range n).erase i).flatMap f := by
    refine List.flatMap_congr fun j hj => ?_
    obtain ⟨hji, hj⟩ := (List.nodup_range.mem_erase_iff).mp hj
    exact hne j (List.mem_range.mp hj) hji
  calc
    xs ++ (List.range n).flatMap f
      ~ xs ++ (f i ++ ((List.range n).erase i).flatMap f) := (flatMap_range_erase hi).append_left xs
    _ = xs ++ f i ++ ((List.range n).erase i).flatMap f := (List.append_assoc ..).symm
    _ ~ ys ++ g i ++ ((List.range n).erase i).flatMap f := h.append_right _
    _ = ys ++ (g i ++ ((List.range n).erase i).flatMap g) := by rw [List.append_assoc, hrest]
    _ ~ ys ++ (List.range n).flatMap g := (flatMap_range_erase hi).symm.append_left ys

/-- The members with a property, after an assignment to one of them. -/
theorem card_update {ι β : Type*} [Fintype ι] [DecidableEq ι] (P : β → Prop) [DecidablePred P]
    (g : ι → β) (i : ι) (b : β) :
    ((Finset.univ.filter fun x => P (Function.update g i b x)).card : Int) =
      (Finset.univ.filter fun x => P (g x)).card - (if P (g i) then 1 else 0) + if P b then 1 else 0 := by
  have hcount : ∀ g : ι → β, ((Finset.univ.filter fun x => P (g x)).card : Int) =
      (if P (g i) then 1 else 0) + ∑ x ∈ Finset.univ.erase i, if P (g x) then 1 else 0 := by
    intro g
    rw [Finset.card_filter, Nat.cast_sum, ← Finset.add_sum_erase _ _ (Finset.mem_univ i)]
    simp only [Nat.cast_ite, Nat.cast_one, Nat.cast_zero]
  have hrest : ∀ x ∈ Finset.univ.erase i, (if P (Function.update g i b x) then (1 : Int) else 0) =
      if P (g x) then 1 else 0 := fun x hx => by
    rw [Function.update_of_ne (Finset.ne_of_mem_erase hx)]
  rw [hcount, hcount g, Finset.sum_congr rfl hrest, Function.update_self]
  omega

/-- Every item is held at most once, by one owner. -/
structure Partition {ι : Type*} (f : ι → List α) : Prop where
  nodup : ∀ i, (f i).Nodup
  owner : ∀ {x i j}, x ∈ f i → x ∈ f j → i = j

theorem Partition.pair {ι : Type*} {f : ι → List α} (h : Partition f) {i j : ι} (hij : i ≠ j) :
    (f i ++ f j).Nodup :=
  List.nodup_append'.mpr ⟨h.nodup i, h.nodup j, fun _ hi hj => hij (h.owner hi hj)⟩

/-- Two owners exchange items among them. -/
theorem Partition.exchange {ι : Type*} {f g : ι → List α} {i j : ι} (h : Partition f) (hij : i ≠ j)
    (hperm : (g i ++ g j).Perm (f i ++ f j)) (hother : ∀ o, o ≠ i → o ≠ j → g o = f o) :
    Partition g ∧ ∀ x, (∃ o, x ∈ g o) ↔ ∃ o, x ∈ f o := by
  obtain ⟨hi, hj, hdisj⟩ := List.nodup_append'.mp (hperm.nodup_iff.mpr (h.pair hij))
  have hmem : ∀ x, x ∈ g i ∨ x ∈ g j ↔ x ∈ f i ∨ x ∈ f j := fun x => by
    simpa only [List.mem_append] using hperm.mem_iff (a := x)
  have hpair : ∀ {e : ι → List α} {o x}, x ∈ e o → o = i ∨ o = j → x ∈ e i ∨ x ∈ e j := by
    rintro e o x hx (rfl | rfl)
    · exact .inl hx
    · exact .inr hx
  have houtside : ∀ {o}, ¬ (o = i ∨ o = j) → g o = f o := fun {o} ho =>
    hother o (fun hi => ho (.inl hi)) fun hj => ho (.inr hj)
  have hfar : ∀ {o o' x}, x ∈ g o → (o = i ∨ o = j) → x ∈ g o' → o' = i ∨ o' = j := by
    intro o o' x hx ho hx'
    by_contra ho'
    rw [houtside ho'] at hx'
    exact ho' (((hmem x).mp (hpair hx ho)).imp (h.owner hx') (h.owner hx'))
  refine ⟨⟨fun o => ?_, fun {x o o'} hx hx' => ?_⟩, fun x => ⟨fun ⟨o, hx⟩ => ?_, fun ⟨o, hx⟩ => ?_⟩⟩
  · by_cases ho : o = i ∨ o = j
    · rcases ho with rfl | rfl
      · exact hi
      · exact hj
    · rw [houtside ho]
      exact h.nodup o
  · by_cases ho : o = i ∨ o = j
    · rcases ho, hfar hx ho hx' with ⟨rfl | rfl, rfl | rfl⟩
      · rfl
      · exact absurd hx' (hdisj hx)
      · exact absurd hx (hdisj hx')
      · rfl
    · have ho' : ¬ (o' = i ∨ o' = j) := fun ho' => ho (hfar hx' ho' hx)
      rw [houtside ho] at hx
      rw [houtside ho'] at hx'
      exact h.owner hx hx'
  · by_cases ho : o = i ∨ o = j
    · exact ((hmem x).mp (hpair hx ho)).elim (fun hx => ⟨i, hx⟩) fun hx => ⟨j, hx⟩
    · exact ⟨o, houtside ho ▸ hx⟩
  · by_cases ho : o = i ∨ o = j
    · exact ((hmem x).mpr (hpair hx ho)).elim (fun hx => ⟨i, hx⟩) fun hx => ⟨j, hx⟩
    · exact ⟨o, (houtside ho).symm ▸ hx⟩

end Xv6.Lib
