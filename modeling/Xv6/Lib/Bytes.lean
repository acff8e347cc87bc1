import Mathlib

namespace Xv6.Lib

/-!
# Library — little-endian fields in a block of bytes

A block of `n` bytes is a function `Fin n → UInt8`.  An integer field of `w` bytes at offset
`off` is read by `le` and written by `setLe`, least significant byte first.

* `le_setLe_self` — a written field is read back, modulo `256 ^ w`;
* `le_setLe_of_disjoint` — a write does not change a disjoint field;
* `getFields` / `setFields` — consecutive fields, that is an array of integers;
* `getFields_setFields` — a written array is read back;
* `sub` / `splice` — a part of a block as a block of its own.
-/

/-- A block of `n` bytes. -/
abbrev Bytes (n : Nat) := Fin n → UInt8

namespace Bytes

variable {n : Nat}

/-- The byte at an offset; 0 outside the block. -/
def get (d : Bytes n) (i : Nat) : UInt8 := if h : i < n then d ⟨i, h⟩ else 0

/-- Write one byte; nothing happens outside the block. -/
def set (d : Bytes n) (i : Nat) (v : UInt8) : Bytes n := fun j => if j.val = i then v else d j

theorem ext_get {d e : Bytes n} (h : ∀ i, i < n → d.get i = e.get i) : d = e := by
  funext j
  have := h j.val j.isLt
  simpa [get] using this

@[simp] theorem get_set_self {d : Bytes n} {i : Nat} {v : UInt8} (h : i < n) :
    (d.set i v).get i = v := by
  simp [get, set, h]

@[simp] theorem get_set_of_ne {d : Bytes n} {i j : Nat} {v : UInt8} (h : j ≠ i) :
    (d.set i v).get j = d.get j := by
  simp [get, set, h]

/-- The integer in the `w` bytes at `off`. -/
def le (d : Bytes n) : Nat → Nat → Nat
  | _, 0 => 0
  | off, w + 1 => (d.get off).toNat + 256 * le d (off + 1) w

/-- Write an integer into the `w` bytes at `off`. -/
def setLe (d : Bytes n) : Nat → Nat → Nat → Bytes n
  | _, 0, _ => d
  | off, w + 1, v => setLe (d.set off (UInt8.ofNat v)) (off + 1) w (v / 256)

theorem get_setLe_of_lt {d : Bytes n} {off w v i : Nat} (h : i < off ∨ off + w ≤ i) :
    (setLe d off w v).get i = d.get i := by
  induction w generalizing d off v with
  | zero => rfl
  | succ w ih =>
    rw [setLe, ih (by omega), get_set_of_ne (by omega)]

theorem le_congr {d e : Bytes n} {off w : Nat}
    (h : ∀ i, off ≤ i → i < off + w → d.get i = e.get i) : d.le off w = e.le off w := by
  induction w generalizing off with
  | zero => rfl
  | succ w ih =>
    rw [le, le, h off (by omega) (by omega), ih fun i h1 h2 => h i (by omega) (by omega)]

theorem le_lt (d : Bytes n) (off w : Nat) : d.le off w < 256 ^ w := by
  induction w generalizing off with
  | zero => simp [le]
  | succ w ih =>
    have h1 := (d.get off).toNat_lt
    have h2 := ih (off + 1)
    rw [le, pow_succ]
    omega

/-- A written field is read back, modulo its width. -/
theorem le_setLe_self {d : Bytes n} {off w v : Nat} (h : off + w ≤ n) :
    (setLe d off w v).le off w = v % 256 ^ w := by
  induction w generalizing d off v with
  | zero => simp [le, Nat.mod_one]
  | succ w ih =>
    rw [setLe, le, ih (by omega), get_setLe_of_lt (by omega), get_set_self (by omega), pow_succ,
      UInt8.toNat_ofNat', Nat.mul_comm (256 ^ w) 256, Nat.mod_mul]

/-- A write does not change a disjoint field. -/
theorem le_setLe_of_disjoint {d : Bytes n} {off w v off' w' : Nat}
    (h : off' + w' ≤ off ∨ off + w ≤ off') : (setLe d off w v).le off' w' = d.le off' w' :=
  le_congr fun i h1 h2 => get_setLe_of_lt (by omega)

/-! ### Arrays of fields -/

/-- `k` consecutive fields of `w` bytes. -/
def getFields (d : Bytes n) (w : Nat) : Nat → Nat → List Nat
  | _, 0 => []
  | off, k + 1 => d.le off w :: getFields d w (off + w) k

/-- Write consecutive fields of `w` bytes. -/
def setFields (d : Bytes n) (w : Nat) : Nat → List Nat → Bytes n
  | _, [] => d
  | off, v :: vs => setFields (d.setLe off w v) w (off + w) vs

theorem get_setFields_of_lt {d : Bytes n} {w off i : Nat} {vs : List Nat}
    (h : i < off ∨ off + w * vs.length ≤ i) : (setFields d w off vs).get i = d.get i := by
  induction vs generalizing d off with
  | nil => rfl
  | cons v vs ih =>
    rw [List.length_cons, Nat.mul_add, Nat.mul_one] at h
    rw [setFields, ih (by omega), get_setLe_of_lt (by omega)]

theorem le_setFields_of_disjoint {d : Bytes n} {w off off' w' : Nat} {vs : List Nat}
    (h : off' + w' ≤ off ∨ off + w * vs.length ≤ off') :
    (setFields d w off vs).le off' w' = d.le off' w' :=
  le_congr fun i h1 h2 => get_setFields_of_lt (by omega)

/-- A written array is read back. -/
theorem getFields_setFields {d : Bytes n} {w off : Nat} {vs : List Nat}
    (hn : off + w * vs.length ≤ n) (hv : ∀ v ∈ vs, v < 256 ^ w) :
    getFields (setFields d w off vs) w off vs.length = vs := by
  induction vs generalizing d off with
  | nil => rfl
  | cons v vs ih =>
    rw [List.length_cons, Nat.mul_add, Nat.mul_one] at hn
    rw [setFields, List.length_cons, getFields, ih (by omega) fun u hu => hv u (by simp [hu]),
      le_setFields_of_disjoint (by omega), le_setLe_self (by omega),
      Nat.mod_eq_of_lt (hv v (by simp))]

theorem length_getFields (d : Bytes n) (w off k : Nat) : (d.getFields w off k).length = k := by
  induction k generalizing off with
  | zero => rfl
  | succ k ih => rw [getFields, List.length_cons, ih]

/-! ### Parts of a block -/

/-- The `m` bytes at `off`. -/
def sub (d : Bytes n) (off m : Nat) : Bytes m := fun i => d.get (off + i.val)

/-- Write the first `m` bytes of `f` at `off`. -/
def splice (d : Bytes n) (off m : Nat) (f : Nat → UInt8) : Bytes n := fun j =>
  if off ≤ j.val ∧ j.val < off + m then f (j.val - off) else d j

theorem get_splice_self {d : Bytes n} {off m i : Nat} {f : Nat → UInt8} (hm : i < m)
    (hn : off + i < n) : (d.splice off m f).get (off + i) = f i := by
  have hin : off ≤ off + i ∧ off + i < off + m := by omega
  rw [get, dif_pos hn, splice, if_pos hin, Nat.add_sub_cancel_left]

theorem get_splice_of_lt {d : Bytes n} {off m i : Nat} {f : Nat → UInt8}
    (h : i < off ∨ off + m ≤ i) : (d.splice off m f).get i = d.get i := by
  have hout : ¬ (off ≤ i ∧ i < off + m) := by omega
  rw [get, get]
  split
  · exact if_neg hout
  · rfl

theorem le_splice_of_disjoint {d : Bytes n} {off m off' w : Nat} {f : Nat → UInt8}
    (h : off' + w ≤ off ∨ off + m ≤ off') : (d.splice off m f).le off' w = d.le off' w :=
  le_congr fun i h1 h2 => get_splice_of_lt (by omega)

/-- A part that is written is read back. -/
theorem sub_splice_self {d : Bytes n} {off m : Nat} (a : Bytes m) (h : off + m ≤ n) :
    (d.splice off m a.get).sub off m = a := by
  funext i
  have hi := i.isLt
  rw [sub, get_splice_self hi (by omega), get, dif_pos hi]

theorem sub_congr {d e : Bytes n} {off m : Nat} (h : ∀ i, off ≤ i → i < off + m → d.get i = e.get i) :
    d.sub off m = e.sub off m := by
  funext i
  exact h _ (Nat.le_add_right ..) (Nat.add_lt_add_left i.isLt _)

end Bytes

end Xv6.Lib
