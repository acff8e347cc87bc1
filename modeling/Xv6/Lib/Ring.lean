import Mathlib

namespace Xv6.Lib

/-!
# Library — ring buffers with 32-bit counters

An array of `N` cells with a read counter `r` and a write counter `w`, which only grow and wrap around
at `2 ^ 32`; cell number `i % N` belongs to counter value `i`.

* `slot` — the cell of a counter value;
* `Window buf r w xs` — the cells from `r` to `w` hold the list `xs`;
* `Window.empty_iff`, `full_iff` — the comparisons of the counters that C programs make;
* `Window.push`, `pop`, `unpush` — a cell more at the end, at the beginning, and one less at the end.
-/

variable {α : Type*} {N : Nat} [NeZero N] {buf : Fin N → α} {r w : UInt32} {x : α} {xs : List α} {i j : Nat}

/-- The cell of a counter value. -/
def slot (N : Nat) [NeZero N] (i : UInt32) : Fin N := ⟨i.toNat % N, Nat.mod_lt _ (Nat.pos_of_neZero N)⟩

/-- The cells from `r` to `w` hold the list `xs`. -/
structure Window (buf : Fin N → α) (r w : UInt32) (xs : List α) : Prop where
  length : xs.length ≤ N
  counter : w = r + UInt32.ofNat xs.length
  get : ∀ i (h : i < xs.length), buf (slot N (r + UInt32.ofNat i)) = xs[i]

theorem add_ofNat_add (r : UInt32) (i j : Nat) :
    r + UInt32.ofNat i + UInt32.ofNat j = r + UInt32.ofNat (i + j) := by
  apply UInt32.toNat_inj.mp
  simp only [UInt32.toNat_add, UInt32.toNat_ofNat']
  omega

omit [NeZero N] in
/-- Different counters of a window are different numbers. -/
theorem add_ofNat_inj (hN : N < 2 ^ 32) (hi : i ≤ N) (hj : j ≤ N)
    (h : r + UInt32.ofNat i = r + UInt32.ofNat j) : i = j := by
  have hr : r.toNat < 2 ^ 32 := r.toNat_lt
  have h := congrArg UInt32.toNat h
  simp only [UInt32.toNat_add, UInt32.toNat_ofNat'] at h
  omega

/-- The cells of a window are different. -/
theorem slot_inj (hN : N ∣ 2 ^ 32) (hi : i < N) (hj : j < N)
    (h : slot N (r + UInt32.ofNat i) = slot N (r + UInt32.ofNat j)) : i = j := by
  have h : (r.toNat + i % 2 ^ 32) % 2 ^ 32 % N = (r.toNat + j % 2 ^ 32) % 2 ^ 32 % N := by
    have h := congrArg Fin.val h
    simpa only [slot, UInt32.toNat_add, UInt32.toNat_ofNat'] using h
  rw [Nat.mod_mod_of_dvd _ hN, Nat.mod_mod_of_dvd _ hN] at h
  have hle : N ≤ 2 ^ 32 := Nat.le_of_dvd (by decide) hN
  rw [Nat.mod_eq_of_lt (show i < 2 ^ 32 by omega), Nat.mod_eq_of_lt (show j < 2 ^ 32 by omega)] at h
  have hmod : Nat.ModEq N i j := Nat.ModEq.add_left_cancel' r.toNat h
  exact hmod.eq_of_lt_of_lt hi hj

theorem Window.nil (buf : Fin N → α) (r : UInt32) : Window buf r r [] :=
  ⟨Nat.zero_le N, by simp, fun i h => absurd h (Nat.not_lt_zero i)⟩

/-- `r == w`. -/
theorem Window.empty_iff (h : Window buf r w xs) (hN : N < 2 ^ 32) : r = w ↔ xs = [] := by
  constructor
  · intro heq
    rw [h.counter] at heq
    have hzero : r + UInt32.ofNat 0 = r + UInt32.ofNat xs.length := by simpa using heq
    exact List.length_eq_zero_iff.mp (add_ofNat_inj hN (Nat.zero_le N) h.length hzero).symm
  · rintro rfl
    simpa using h.counter.symm

/-- `w == r + N`. -/
theorem Window.full_iff (h : Window buf r w xs) (hN : N < 2 ^ 32) :
    w = r + UInt32.ofNat N ↔ xs.length = N := by
  constructor
  · intro heq
    rw [h.counter] at heq
    exact add_ofNat_inj hN h.length (Nat.le_refl N) heq
  · intro heq
    rw [h.counter, heq]

/-- `w - r < N`. -/
theorem Window.sub_lt_iff (h : Window buf r w xs) (hN : N < 2 ^ 32) :
    w - r < UInt32.ofNat N ↔ xs.length < N := by
  have hlen := h.length
  have hsub : w - r = UInt32.ofNat xs.length := by
    rw [h.counter, UInt32.add_comm, UInt32.add_sub_cancel]
  rw [hsub, UInt32.lt_iff_toNat_lt, UInt32.toNat_ofNat', UInt32.toNat_ofNat',
    Nat.mod_eq_of_lt hN, Nat.mod_eq_of_lt (show xs.length < 2 ^ 32 by omega)]

/-- `buf[w++ % N] = x`. -/
theorem Window.push (h : Window buf r w xs) (hN : N ∣ 2 ^ 32) (hlen : xs.length < N) (x : α) :
    Window (Function.update buf (slot N w) x) r (w + 1) (xs ++ [x]) := by
  refine ⟨by rw [List.length_append]; exact hlen, ?_, fun i hi => ?_⟩
  · rw [h.counter, List.length_append]
    exact add_ofNat_add r xs.length 1
  · rw [List.length_append, List.length_singleton] at hi
    by_cases hlast : i = xs.length
    · subst hlast
      rw [h.counter, Function.update_self, List.getElem_concat_length rfl]
    · rw [Function.update_of_ne, h.get i (by omega), List.getElem_append_left]
      rw [h.counter]
      exact fun heq => hlast (slot_inj hN (by omega) hlen heq)

/-- `x = buf[r++ % N]`. -/
theorem Window.pop (h : Window buf r w (x :: xs)) :
    buf (slot N r) = x ∧ Window buf (r + 1) w xs := by
  have hlen := h.length
  rw [List.length_cons] at hlen
  refine ⟨?_, by omega, ?_, fun i hi => ?_⟩
  · have hfirst := h.get 0 (by simp)
    simpa using hfirst
  · rw [h.counter, List.length_cons, Nat.add_comm]
    exact (add_ofNat_add r 1 xs.length).symm
  · have hnext := h.get (i + 1) (by simpa using hi)
    have hshift : r + UInt32.ofNat (i + 1) = r + 1 + UInt32.ofNat i := by
      rw [Nat.add_comm]
      exact (add_ofNat_add r 1 i).symm
    rw [hshift] at hnext
    exact hnext

/-- `w--`, and the cell that it leaves. -/
theorem Window.unpush (h : Window buf r w (xs ++ [x])) :
    buf (slot N (w - 1)) = x ∧ Window buf r (w - 1) xs := by
  have hlen := h.length
  rw [List.length_append, List.length_singleton] at hlen
  have hcounter : w - 1 = r + UInt32.ofNat xs.length := by
    rw [h.counter, List.length_append, List.length_singleton, ← add_ofNat_add]
    exact UInt32.add_sub_cancel _ _
  refine ⟨?_, by omega, hcounter, fun i hi => ?_⟩
  · have hlast := h.get xs.length (by simp)
    rw [hcounter, hlast, List.getElem_concat_length rfl]
  · rw [h.get i (by simp; omega), List.getElem_append_left hi]

/-- Only the first cells. -/
theorem Window.left {ys : List α} (h : Window buf r w (xs ++ ys)) :
    Window buf r (r + UInt32.ofNat xs.length) xs := by
  have hlen := h.length
  rw [List.length_append] at hlen
  refine ⟨by omega, rfl, fun i hi => ?_⟩
  rw [h.get i (by rw [List.length_append]; omega), List.getElem_append_left hi]

end Xv6.Lib
