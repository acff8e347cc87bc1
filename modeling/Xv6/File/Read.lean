import Xv6.File.Entries
import Xv6.File.Map

namespace Xv6.File

open Xv6.Lib
open Xv6.Fs (Block BSIZE Stop)

/-!
# Files — reading a file without holes

* `Leads` — a path through pointer blocks of the disk, without a null pointer;
* `Readable` — an inode with a block for every offset below its size;
* `fileByte` — the byte at an offset;
* `wp_bmap_mapped`, `wp_readData` — `bmap` and `readi` give the blocks and the bytes, and change
  nothing.
-/

variable {S : Nat → Prop} {data : Nat → Block} {t : Mem} {ip : Ip} {q : Inode} {bn i k n off p : Nat}
  {is : List Nat}

/-- The blocks on the path from `p` on are blocks of the disk. -/
def Leads (S : Nat → Prop) (data : Nat → Block) : Nat → List Nat → Prop
  | p, [] => p ≠ 0 ∧ S p
  | p, i :: is => p ≠ 0 ∧ S p ∧ Leads S data (entries data p i) is

/-- The block of the disk for the block `bn` of an inode. -/
def blockOf (data : Nat → Block) (q : Inode) (bn : Nat) : Nat :=
  follow (entries data) (q.addr (place bn).1) (place bn).2

/-- There is a block for every offset below the size. -/
structure Readable (S : Nat → Prop) (data : Nat → Block) (q : Inode) : Prop where
  size : q.size ≤ MAXFILE * BSIZE
  leads : ∀ bn, bn * BSIZE < q.size → Leads S data (q.addr (place bn).1) (place bn).2

/-- The byte at an offset. -/
def fileByte (data : Nat → Block) (q : Inode) (i : Nat) : UInt8 :=
  (data (blockOf data q (i / BSIZE))).get (i % BSIZE)

/-- The `n` bytes from an offset on. -/
def fileBytes (data : Nat → Block) (q : Inode) (off n : Nat) : List UInt8 :=
  (List.range n).map fun i => fileByte data q (off + i)

theorem Leads.ne_zero (h : Leads S data p is) : p ≠ 0 := by
  cases is with
  | nil => exact h.1
  | cons i is => exact h.1

theorem Leads.last (h : Leads S data p is) : S (follow (entries data) p is) := by
  induction is generalizing p with
  | nil => exact h.2
  | cons i is ih =>
    rw [follow_cons h.1]
    exact ih h.2.2

theorem Readable.at (h : Readable S data q) (hi : i < q.size) :
    Leads S data (q.addr (place (i / BSIZE)).1) (place (i / BSIZE)).2 ∧ i / BSIZE < MAXFILE := by
  have hdiv : i / BSIZE * BSIZE ≤ i := Nat.div_mul_le_self i BSIZE
  refine ⟨h.leads _ (Nat.lt_of_le_of_lt hdiv hi), ?_⟩
  exact Nat.div_lt_of_lt_mul (by rw [Nat.mul_comm]; exact Nat.lt_of_lt_of_le hi h.size)

/-! ### `bmap` -/

variable [DecidablePred S]

theorem wp_path (h : Leads S data p is) :
    wp ((is.foldlM mapEntry p).run (array S))
      (fun b s => b = follow (entries data) p is ∧ s = (t, ⟨data, []⟩)) (fun _ _ => False)
      (t, ⟨data, []⟩) := by
  induction is generalizing p with
  | nil => exact ⟨rfl, rfl⟩
  | cons i is ih =>
    obtain ⟨hne, hS, hrest⟩ := h
    have hentry : entry (data p) i ≠ 0 := hrest.ne_zero
    rw [List.foldlM_cons, wp_run_bind, mapEntry, wp_run_bind]
    refine (Flat.wp_bread hS List.not_mem_nil).mpr ?_
    rw [if_neg hentry, wp_run_bind]
    refine (Flat.wp_brelse List.not_mem_nil).mpr ?_
    rw [wp_run_pure, follow_cons hne]
    exact ih hrest

/-- `bmap` for a block that is there. -/
theorem wp_bmap_mapped (hbn : bn < MAXFILE)
    (h : Leads S data ((t.inode ip).addr (place bn).1) (place bn).2) :
    wp ((bmap ip bn).run (array S))
      (fun b s => b = blockOf data (t.inode ip) bn ∧ s = (t, ⟨data, []⟩)) (fun _ _ => False)
      (t, ⟨data, []⟩) := by
  rw [bmap_eq hbn, wp_run_bind, mapAddr, wp_run_bind, wp_run_inodeOf]
  rw [if_neg h.ne_zero, wp_run_pure]
  exact wp_path h

/-! ### `readi` -/

/-- The bytes of one round, and the rest. -/
theorem fileBytes_split {m : Nat} (hm : m ≤ n) (hblock : off % BSIZE + m ≤ BSIZE) :
    (List.range m).map (fun i => (data (blockOf data q (off / BSIZE))).get (off % BSIZE + i)) ++
      fileBytes data q (off + m) (n - m) = fileBytes data q off n := by
  have hfirst : (List.range m).map (fun i =>
      (data (blockOf data q (off / BSIZE))).get (off % BSIZE + i)) = fileBytes data q off m := by
    refine List.map_congr_left fun i hi => ?_
    rw [List.mem_range] at hi
    have hplace : (off + i) / BSIZE = off / BSIZE ∧ (off + i) % BSIZE = off % BSIZE + i := by
      simp only [BSIZE] at hblock ⊢
      omega
    rw [fileByte, hplace.1, hplace.2]
  rw [hfirst, fileBytes, fileBytes, fileBytes]
  obtain ⟨l, rfl⟩ := Nat.exists_eq_add_of_le hm
  rw [Nat.add_sub_cancel_left, List.range_add, List.map_append, List.map_map]
  congr 1
  refine List.map_congr_left fun i _ => ?_
  rw [Function.comp, Nat.add_assoc]

theorem wp_readLoop (h : ∀ i, off ≤ i → i < off + n →
      Leads S data ((t.inode ip).addr (place (i / BSIZE)).1) (place (i / BSIZE)).2 ∧
        i / BSIZE < MAXFILE) (hk : n ≠ 0 → off % BSIZE + n ≤ k * BSIZE) :
    wp ((readLoop ip k off n).run (array S))
      (fun bs s => bs = fileBytes data (t.inode ip) off n ∧ s = (t, ⟨data, []⟩)) (fun _ _ => False)
      (t, ⟨data, []⟩) := by
  induction k generalizing off n with
  | zero =>
    have hn : n = 0 := by omega
    subst hn
    exact ⟨rfl, rfl⟩
  | succ k ih =>
    rw [readLoop]
    by_cases hn : n = 0
    · subst hn
      rw [if_pos rfl, wp_run_pure]
      exact ⟨rfl, rfl⟩
    obtain ⟨hleads, hbn⟩ := h off (Nat.le_refl off) (by omega)
    rw [if_neg hn, wp_run_bind]
    refine wp_mono (wp_bmap_mapped hbn hleads) ?_ fun _ _ he => he
    rintro b _ ⟨rfl, rfl⟩
    rw [wp_run_bind]
    refine (Flat.wp_bread hleads.last List.not_mem_nil).mpr ?_
    rw [wp_run_bind]
    refine (Flat.wp_brelse List.not_mem_nil).mpr ?_
    obtain ⟨m, hm⟩ : ∃ m, m = min n (BSIZE - off % BSIZE) := ⟨_, rfl⟩
    rw [wp_run_bind, ← hm]
    have hround : m ≤ n ∧ off % BSIZE + m ≤ BSIZE ∧ 0 < m := by
      have hmod := Nat.mod_lt off (show 0 < BSIZE by decide)
      omega
    -- The rest starts at a block, or there is no rest.
    have hrest : n - m ≠ 0 → (off + m) % BSIZE + (n - m) ≤ k * BSIZE := by
      intro hmore
      have hfull : off % BSIZE + m = BSIZE := by omega
      have hzero : (off + m) % BSIZE = 0 := by
        simp only [BSIZE] at hfull ⊢
        omega
      have hk' := hk hn
      rw [Nat.add_mul, Nat.one_mul] at hk'
      omega
    refine wp_mono (ih (fun i h1 h2 => h i (by omega) (by omega)) hrest) ?_ fun _ _ he => he
    rintro rest _ ⟨rfl, rfl⟩
    rw [wp_run_pure]
    exact ⟨fileBytes_split hround.1 hround.2.1, rfl⟩

/-- `readi` on a file without holes: the bytes up to the size, and nothing changes. -/
theorem wp_readData (htype : (t.inode ip).type ≠ T_DEV) (h : Readable S data (t.inode ip)) :
    wp ((readData ip off n).run (array S)) (fun r s => s = (t, ⟨data, []⟩) ∧
      r = if (t.inode ip).size < off ∨ (off + n) % 2 ^ 32 < off then ((-1 : Int), [])
        else (((min n ((t.inode ip).size - off) : Nat) : Int),
          fileBytes data (t.inode ip) off (min n ((t.inode ip).size - off))))
      (fun _ _ => False) (t, ⟨data, []⟩) := by
  rw [readData, wp_run_bind, wp_run_inodeOf]
  dsimp only
  rw [if_neg htype]
  by_cases hbad : (t.inode ip).size < off ∨ (off + n) % 2 ^ 32 < off
  · rw [if_pos hbad, if_pos hbad]
    exact ⟨rfl, rfl⟩
  rw [if_neg hbad, if_neg hbad, wp_run_bind]
  rw [not_or, Nat.not_lt] at hbad
  obtain ⟨m, hm⟩ : ∃ m, m = min n ((t.inode ip).size - off) := ⟨_, rfl⟩
  have hclip : (if (t.inode ip).size < off + n then (t.inode ip).size - off else n) = m := by
    split <;> omega
  rw [hclip, ← hm]
  refine wp_mono (wp_readLoop (fun i h1 h2 => h.at (by omega)) fun _ => ?_) ?_ fun _ _ he => he
  · simp only [BSIZE]
    omega
  · rintro bs _ ⟨rfl, rfl⟩
    exact ⟨rfl, rfl⟩

end Xv6.File
