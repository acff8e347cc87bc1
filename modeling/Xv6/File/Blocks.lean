import Xv6.File.Inode

namespace Xv6.File

open Xv6.Lib
open Xv6.Fs (Block BSIZE Stop)

/-!
# Files — the block allocator on an array of blocks

* `used` — the bit of a block in the free bit map;
* `wp_balloc_least` — `balloc` marks the smallest free block and zeroes it;
* `wp_bfree_used` — `bfree` takes the mark away;
* `wp_execCalls` — no sequence of calls hands out a block that is still allocated.
-/

/-- The array of blocks that offers the blocks `S`. -/
abbrev array (S : Nat → Prop) [DecidablePred S] : Device Block Stop (Flat Block) :=
  Flat.device S .deadlock (.panic "incorrect blockno")

section Rules

variable {σ : Type} {D : Device Block Stop σ} {E : Stop → Mem × σ → Prop} {s : Mem × σ} {ip : Ip}

theorem wp_run_inodeOf {Q : Inode → Mem × σ → Prop} :
    wp ((inodeOf ip).run D) Q E s ↔ Q (s.1.inode ip) s := Iff.rfl

theorem wp_run_setInode {Q : PUnit → Mem × σ → Prop} (f : Inode → Inode) :
    wp ((setInode ip f).run D) Q E s ↔
      Q ⟨⟩ ({ s.1 with inode := Function.update s.1.inode ip (f (s.1.inode ip)) }, s.2) := Iff.rfl

end Rules

/-! ### Bits -/

theorem and_bitMask_ne_zero {x : UInt8} {j : Nat} (hj : j < 8) :
    x &&& UInt8.ofNat (1 <<< j) ≠ 0 ↔ x.toNat.testBit j = true := by
  have hmask : (UInt8.ofNat (1 <<< j)).toNat = 2 ^ j := by
    rw [UInt8.toNat_ofNat', Nat.one_shiftLeft]
    exact Nat.mod_eq_of_lt (Nat.pow_lt_pow_right (by decide) hj)
  rw [ne_eq, ← UInt8.toNat_inj, UInt8.toNat_and, hmask, Nat.and_two_pow]
  cases x.toNat.testBit j <;> simp

theorem bitUsed_eq (d : Block) (bi : Nat) :
    bitUsed d bi = (d.get (bi / 8)).toNat.testBit (bi % 8) := by
  have hbit := and_bitMask_ne_zero (x := d.get (bi / 8)) (Nat.mod_lt bi (by decide : 0 < 8))
  rw [bitUsed, bitMask]
  cases h : (d.get (bi / 8)).toNat.testBit (bi % 8) with
  | false => exact decide_eq_false fun hne => by simp [hbit.mp hne] at h
  | true => exact decide_eq_true (hbit.mpr h)

theorem toNat_bitMask (bi : Nat) : (bitMask bi).toNat = 2 ^ (bi % 8) := by
  rw [bitMask, UInt8.toNat_ofNat', Nat.one_shiftLeft]
  exact Nat.mod_eq_of_lt (Nat.pow_lt_pow_right (by decide) (Nat.mod_lt _ (by decide)))

/-- Two bits are the same if they are the same bit of the same byte. -/
theorem bit_eq {bi bj : Nat} (hdiv : bj / 8 = bi / 8) (hmod : bj % 8 = bi % 8) : bj = bi := by
  omega

theorem byte_lt {bi : Nat} (h : bi < BPB) : bi / 8 < BSIZE := by
  simp only [BPB, BSIZE] at *
  omega

theorem bitUsed_markUsed (d : Block) {bi bj : Nat} (hi : bi < BPB) :
    bitUsed (markUsed d bi) bj = (decide (bj = bi) || bitUsed d bj) := by
  rw [bitUsed_eq, bitUsed_eq, markUsed]
  by_cases hdiv : bj / 8 = bi / 8
  · rw [hdiv, Bytes.get_set_self (byte_lt hi), UInt8.toNat_or, Nat.testBit_or, toNat_bitMask,
      Nat.testBit_two_pow, Bool.or_comm]
    congr 1
    rw [decide_eq_decide]
    exact ⟨fun h => bit_eq hdiv h.symm, fun h => by rw [h]⟩
  · have hne : bj ≠ bi := fun h => hdiv (by rw [h])
    rw [Bytes.get_set_of_ne hdiv]
    simp [hne]

theorem bitUsed_markFree (d : Block) {bi bj : Nat} (hi : bi < BPB) :
    bitUsed (markFree d bi) bj = (decide (bj ≠ bi) && bitUsed d bj) := by
  rw [bitUsed_eq, bitUsed_eq, markFree]
  by_cases hdiv : bj / 8 = bi / 8
  · have hlt : bj % 8 < 8 := Nat.mod_lt _ (by decide)
    have hnot : (~~~bitMask bi).toNat.testBit (bj % 8) = decide (bj ≠ bi) := by
      have hsub : (~~~bitMask bi).toNat = 2 ^ 8 - (2 ^ (bi % 8) + 1) := by
        rw [UInt8.toNat_not, toNat_bitMask]
        simp only [UInt8.size]
        omega
      have hpow : 2 ^ (bi % 8) < 2 ^ 8 :=
        Nat.pow_lt_pow_right (by decide) (Nat.mod_lt _ (by decide))
      rw [hsub, Nat.testBit_two_pow_sub_succ hpow, Nat.testBit_two_pow]
      by_cases h : bj = bi
      · subst h
        simp
      · have hmod : bi % 8 ≠ bj % 8 := fun hmod => h (bit_eq hdiv hmod.symm)
        simp [h, hmod, hlt]
    rw [hdiv, Bytes.get_set_self (byte_lt hi), UInt8.toNat_and, Nat.testBit_and, hnot, Bool.and_comm]
  · have hne : bj ≠ bi := fun h => hdiv (by rw [h])
    rw [Bytes.get_set_of_ne hdiv]
    simp [hne]

/-! ### The free bit map -/

/-- The first block of the data area. -/
def Superblock.dataStart (sb : Superblock) : Nat := sb.bmapstart + (sb.size / BPB + 1)

/-- The areas of the disk follow each other, and the file system may use all of them but the boot
    block, the super block and the log.  A block number fits in an `int`. -/
structure Layout (S : Nat → Prop) (sb : Superblock) : Prop where
  inodes : sb.inodestart + (sb.ninodes / IPB + 1) ≤ sb.bmapstart
  size_lt : sb.size < 2 ^ 31
  offers : ∀ b, sb.inodestart ≤ b → b < sb.dataStart ∨ b < sb.size → S b

/-- The bit of a block. -/
def used (sb : Superblock) (data : Nat → Block) (b : Nat) : Bool :=
  bitUsed (data (bblock sb b)) (b % BPB)

/-- What `balloc` does when it allocates a block. -/
def allocate (sb : Superblock) (data : Nat → Block) (b : Nat) : Nat → Block :=
  Function.update (Function.update data (bblock sb b) (markUsed (data (bblock sb b)) (b % BPB))) b
    fun _ => 0

/-- What `bfree` does. -/
def release (sb : Superblock) (data : Nat → Block) (b : Nat) : Nat → Block :=
  Function.update data (bblock sb b) (markFree (data (bblock sb b)) (b % BPB))

variable {S : Nat → Prop} {sb : Superblock} {data : Nat → Block} {t : Mem}
  {held : List Nat} {b x : Nat}

/-- The bits are in front of the data area. -/
theorem bblock_lt (hb : b < sb.size) : sb.bmapstart ≤ bblock sb b ∧ bblock sb b < sb.dataStart := by
  have hdiv : b / BPB ≤ sb.size / BPB := Nat.div_le_div_right hb.le
  exact ⟨Nat.le_add_left .., by rw [bblock, Superblock.dataStart]; omega⟩

theorem Superblock.bmapstart_lt (sb : Superblock) : sb.bmapstart < sb.dataStart :=
  Nat.lt_add_of_pos_right (Nat.succ_pos _)

theorem Layout.le (hl : Layout S sb) : sb.inodestart ≤ sb.bmapstart :=
  (Nat.le_add_right ..).trans hl.inodes

theorem mod_BPB_lt (b : Nat) : b % BPB < BPB := Nat.mod_lt _ (by decide)

/-- A block is determined by the place of its bit. -/
theorem bit_place (hblock : bblock sb x = bblock sb b) (hmod : x % BPB = b % BPB) : x = b := by
  have hdiv : x / BPB = b / BPB := Nat.add_right_cancel hblock
  rw [← Nat.div_add_mod x BPB, ← Nat.div_add_mod b BPB, hdiv, hmod]

theorem used_congr {data' : Nat → Block} (h : data' (bblock sb x) = data (bblock sb x)) :
    used sb data' x = used sb data x := by
  rw [used, used, h]

theorem used_allocate (hx : x < sb.size) (hb : sb.dataStart ≤ b) :
    used sb (allocate sb data b) x = (decide (x = b) || used sb data x) := by
  have hne : bblock sb x ≠ b := fun h => by
    have := (bblock_lt hx).2
    omega
  rw [used, allocate, Function.update_of_ne hne]
  by_cases hblock : bblock sb x = bblock sb b
  · rw [hblock, Function.update_self, bitUsed_markUsed _ (mod_BPB_lt b), used, hblock]
    congr 1
    rw [decide_eq_decide]
    exact ⟨bit_place hblock, fun h => by rw [h]⟩
  · have hxb : x ≠ b := fun h => hblock (by rw [h])
    rw [Function.update_of_ne hblock, used]
    simp [hxb]

theorem used_release :
    used sb (release sb data b) x = (decide (x ≠ b) && used sb data x) := by
  rw [used, release]
  by_cases hblock : bblock sb x = bblock sb b
  · rw [hblock, Function.update_self, bitUsed_markFree _ (mod_BPB_lt b), used, hblock]
    congr 1
    rw [decide_eq_decide]
    exact not_congr ⟨bit_place hblock, fun h => by rw [h]⟩
  · have hxb : x ≠ b := fun h => hblock (by rw [h])
    rw [Function.update_of_ne hblock, used]
    simp [hxb]

theorem allocate_other (hx : x ≠ b) (hblock : x ≠ bblock sb b) : allocate sb data b x = data x := by
  rw [allocate, Function.update_of_ne hx, Function.update_of_ne hblock]

/-- The number of free blocks. -/
def freeBlocks (sb : Superblock) (data : Nat → Block) : Nat :=
  ((Finset.range sb.size).filter fun b => used sb data b = false).card

theorem exists_free (h : 0 < freeBlocks sb data) : ∃ b, b < sb.size ∧ used sb data b = false := by
  obtain ⟨b, hb⟩ := Finset.card_pos.mp h
  rw [Finset.mem_filter, Finset.mem_range] at hb
  exact ⟨b, hb⟩

theorem freeBlocks_allocate (hb : b < sb.size) (hdata : sb.dataStart ≤ b)
    (hfree : used sb data b = false) :
    freeBlocks sb (allocate sb data b) + 1 = freeBlocks sb data := by
  have herase : ((Finset.range sb.size).filter fun x => used sb (allocate sb data b) x = false) =
      ((Finset.range sb.size).filter fun x => used sb data x = false).erase b := by
    ext x
    rw [Finset.mem_erase, Finset.mem_filter, Finset.mem_filter, Finset.mem_range]
    constructor
    · rintro ⟨hx, hused⟩
      rw [used_allocate hx hdata, Bool.or_eq_false_iff, decide_eq_false_iff_not] at hused
      exact ⟨hused.1, hx, hused.2⟩
    · rintro ⟨hne, hx, hused⟩
      rw [used_allocate hx hdata, hused]
      exact ⟨hx, by simpa using hne⟩
  rw [freeBlocks, freeBlocks, herase]
  exact Finset.card_erase_add_one (Finset.mem_filter.mpr ⟨Finset.mem_range.mpr hb, hfree⟩)

/-! ### `balloc` and `bfree` -/

section Allocator

variable [DecidablePred S] {Q : Nat → Mem × Flat Block → Prop} {E : Stop → Mem × Flat Block → Prop}

/-- `bzero` zeroes a block. -/
theorem wp_bzero {Q : Unit → Mem × Flat Block → Prop} (hS : S b) (hb : b ∉ held)
    (hQ : Q () (t, ⟨Function.update data b fun _ => 0, held⟩)) :
    wp ((bzero b).run (array S)) Q E (t, ⟨data, held⟩) := by
  rw [bzero, wp_run_bind]
  refine (Flat.wp_bread hS hb).mpr ?_
  rw [wp_run_bind]
  refine (Flat.wp_store List.mem_cons_self).mpr ?_
  exact (Flat.wp_brelse hb).mpr hQ

/-- The blocks in front of the data area are marked. -/
def MetaUsed (sb : Superblock) (data : Nat → Block) : Prop :=
  ∀ b, b < sb.size → b < sb.dataStart → used sb data b = true

/-- The free blocks. -/
def free (sb : Superblock) (data : Nat → Block) : Set Nat :=
  fun b => b < sb.size ∧ used sb data b = false

/-- The bits of the bitmap block with the first bit `b`. -/
theorem used_add {bi : Nat} (hmod : b % BPB = 0) (hbi : bi < BPB) :
    bblock sb (b + bi) = bblock sb b ∧ (b + bi) % BPB = bi ∧
      used sb data (b + bi) = bitUsed (data (bblock sb b)) bi := by
  have hplace : (b + bi) / BPB = b / BPB ∧ (b + bi) % BPB = bi := by
    simp only [BPB, BSIZE] at hmod hbi ⊢
    omega
  have hblock : bblock sb (b + bi) = bblock sb b := by rw [bblock, bblock, hplace.1]
  exact ⟨hblock, hplace.2, by rw [used, hblock, hplace.2]⟩

/-- The first free bit of a bitmap block. -/
theorem firstFree_eq_some {d : Block} {n bi : Nat} (h : firstFree d n = some bi) :
    bi < n ∧ bitUsed d bi = false ∧ ∀ bj < bi, bitUsed d bj = true := by
  have hlt := List.mem_range.mp (List.mem_of_find?_eq_some h)
  have hfound := List.find?_some h
  obtain ⟨-, as, bs, happend, hbefore⟩ := List.find?_eq_some_iff_append.mp h
  refine ⟨hlt, by simpa using hfound, fun bj hbj => ?_⟩
  -- The bits in front of the first free one are the first part of the range.
  have hlen : as.length = bi := by
    have hat : (List.range n)[as.length]? = some bi := by
      rw [happend, List.getElem?_append_right (Nat.le_refl _)]
      simp
    rw [List.getElem?_eq_some_iff] at hat
    obtain ⟨_, hat⟩ := hat
    rwa [List.getElem_range] at hat
  have hmem : bj ∈ as := by
    have hat : (List.range n)[bj]? = some bj := List.getElem?_range (by omega)
    rw [happend, List.getElem?_append_left (by omega)] at hat
    exact List.mem_of_getElem? hat
  simpa using hbefore bj hmem

/-- The search for a free block while some used blocks of the data area are locked. -/
theorem wp_ballocLoop {bs : List Nat} (hl : Layout S sb) (hmeta : MetaUsed sb data)
    (hheld : ∀ x ∈ held, sb.dataStart ≤ x ∧ x < sb.size ∧ used sb data x = true)
    (hbs : ∀ b ∈ bs, b % BPB = 0 ∧ b < sb.size) (hsorted : bs.Pairwise (· < ·)) :
    wp ((ballocLoop sb bs).run (array S))
      (fun b s => (b < sb.size ∧ used sb data b = false ∧
        ∀ c ∈ bs, ∀ bi < min BPB (sb.size - c), c + bi < b → used sb data (c + bi) = true) ∧
        s = (t, ⟨allocate sb data b, held⟩))
      (fun e s => (∀ c ∈ bs, ∀ bi < min BPB (sb.size - c), used sb data (c + bi) = true) ∧
        e = .panic "balloc: out of blocks" ∧ s = (t, ⟨data, held⟩)) (t, ⟨data, held⟩) := by
  induction bs with
  | nil =>
    rw [ballocLoop, panic, wp_run_stop]
    exact ⟨nofun, rfl, rfl⟩
  | cons b bs ih =>
    obtain ⟨hmod, hlt⟩ := hbs b List.mem_cons_self
    obtain ⟨hlow, hhigh⟩ := bblock_lt hlt
    have hinodes := hl.le
    have hS : S (bblock sb b) := hl.offers _ (by omega) (.inl hhigh)
    have hnot : bblock sb b ∉ held := fun hmem => by
      have := (hheld _ hmem).1
      omega
    obtain ⟨hfirst, hsorted⟩ := List.pairwise_cons.mp hsorted
    rw [ballocLoop, wp_run_bind]
    refine (Flat.wp_bread hS hnot).mpr ?_
    cases hfind : firstFree (data (bblock sb b)) (min BPB (sb.size - b)) with
    | none =>
      -- The whole bitmap block is used.
      have hall : ∀ bi < min BPB (sb.size - b), used sb data (b + bi) = true := by
        intro bi hbi
        have := List.find?_eq_none.mp hfind bi (List.mem_range.mpr hbi)
        rw [(used_add hmod (by omega)).2.2]
        simpa using this
      dsimp only
      rw [wp_run_bind]
      refine (Flat.wp_brelse hnot).mpr ?_
      refine wp_mono (ih (fun x hx => hbs x (List.mem_cons_of_mem _ hx)) hsorted) ?_ ?_
      · rintro c s ⟨⟨hsize, hfree, hleast⟩, rfl⟩
        refine ⟨⟨hsize, hfree, fun c' hc' bi hbi hlt' => ?_⟩, rfl⟩
        rcases List.mem_cons.mp hc' with rfl | hc'
        · exact hall bi hbi
        · exact hleast c' hc' bi hbi hlt'
      · rintro e s ⟨hused, hes⟩
        refine ⟨fun c' hc' bi hbi => ?_, hes⟩
        rcases List.mem_cons.mp hc' with rfl | hc'
        · exact hall bi hbi
        · exact hused c' hc' bi hbi
    | some bi =>
      obtain ⟨hbi, hfree, hbefore⟩ := firstFree_eq_some hfind
      have hbi' : bi < BPB := by omega
      obtain ⟨hblock, hplace, hused⟩ : bblock sb (b + bi) = bblock sb b ∧ (b + bi) % BPB = bi ∧
          used sb data (b + bi) = bitUsed (data (bblock sb b)) bi := used_add hmod hbi'
      rw [← hused] at hfree
      have hsize : b + bi < sb.size := by omega
      have hnew : b + bi ∉ held := fun hmem => by
        rw [(hheld _ hmem).2.2] at hfree
        cases hfree
      have hdata : sb.dataStart ≤ b + bi := by
        by_contra hlow
        rw [hmeta _ hsize (by omega)] at hfree
        cases hfree
      dsimp only
      rw [wp_run_bind]
      refine (Flat.wp_store List.mem_cons_self).mpr ?_
      rw [wp_run_bind]
      refine (Flat.wp_brelse hnot).mpr ?_
      rw [wp_run_bind]
      refine wp_bzero (hl.offers _ (by omega) (.inr hsize)) hnew ?_
      refine ⟨⟨hsize, hfree, fun c hc bj hbj hlt' => ?_⟩, ?_⟩
      · rcases List.mem_cons.mp hc with rfl | hc
        · rw [(used_add hmod (by omega)).2.2]
          exact hbefore bj (by omega)
        · -- A later bitmap block is about later blocks.
          have hlater := hfirst c hc
          have hcmod := (hbs c (List.mem_cons_of_mem _ hc)).1
          simp only [BPB, BSIZE] at hmod hcmod hbi'
          omega
      · rw [allocate, hblock, hplace]

/-- The values of `b` in `balloc`. -/
theorem mem_starts {c : Nat} :
    c ∈ (List.range ((sb.size + BPB - 1) / BPB)).map (fun i => i * BPB) ↔
      c % BPB = 0 ∧ c < sb.size := by
  rw [List.mem_map]
  constructor
  · rintro ⟨i, hi, rfl⟩
    rw [List.mem_range] at hi
    refine ⟨Nat.mul_mod_left i BPB, ?_⟩
    simp only [BPB, BSIZE] at hi ⊢
    omega
  · rintro ⟨hmod, hlt⟩
    refine ⟨c / BPB, List.mem_range.mpr ?_, Nat.div_mul_cancel (Nat.dvd_of_mod_eq_zero hmod)⟩
    simp only [BPB, BSIZE] at hmod ⊢
    omega

theorem starts_sorted :
    ((List.range ((sb.size + BPB - 1) / BPB)).map fun i => i * BPB).Pairwise (· < ·) := by
  rw [List.pairwise_map]
  refine List.pairwise_lt_range.imp fun hlt => ?_
  exact Nat.mul_lt_mul_of_pos_right hlt (by decide)

/-- The bit of a block is in the bitmap block that starts at a multiple of `BPB`. -/
theorem start_add (hx : x < sb.size) : ∃ c bi, c + bi = x ∧ bi < min BPB (sb.size - c) ∧
    c ∈ (List.range ((sb.size + BPB - 1) / BPB)).map fun i => i * BPB := by
  have hmod := mod_BPB_lt x
  have hdiv := Nat.div_add_mod x BPB
  rw [Nat.mul_comm] at hdiv
  exact ⟨x / BPB * BPB, x % BPB, hdiv, by omega, mem_starts.mpr ⟨Nat.mul_mod_left .., by omega⟩⟩

/-- `balloc` allocates the smallest free block, or stops if there is none. -/
theorem wp_balloc_least (hl : Layout S t.sb) (hmeta : MetaUsed t.sb data)
    (hheld : ∀ x ∈ held, t.sb.dataStart ≤ x ∧ x < t.sb.size ∧ used t.sb data x = true) :
    wp (balloc.run (array S))
      (fun b s => IsLeast (free t.sb data) b ∧ s = (t, ⟨allocate t.sb data b, held⟩))
      (fun e s => free t.sb data = ∅ ∧ e = .panic "balloc: out of blocks" ∧ s = (t, ⟨data, held⟩))
      (t, ⟨data, held⟩) := by
  rw [balloc, wp_run_bind, wp_run_get]
  refine wp_mono (wp_ballocLoop hl hmeta hheld (fun c hc => mem_starts.mp hc) starts_sorted) ?_ ?_
  · rintro b s ⟨⟨hsize, hfree, hleast⟩, rfl⟩
    refine ⟨⟨⟨hsize, hfree⟩, fun x hx => ?_⟩, rfl⟩
    obtain ⟨c, bi, rfl, hbi, hc⟩ := start_add hx.1
    by_contra hlt
    have hused := hleast c hc bi hbi (by omega)
    rw [hx.2] at hused
    cases hused
  · rintro e s ⟨hall, he, rfl⟩
    refine ⟨Set.eq_empty_of_forall_notMem fun x hx => ?_, he, rfl⟩
    obtain ⟨c, bi, rfl, hbi, hc⟩ := start_add hx.1
    have hused := hall c hc bi hbi
    rw [hx.2] at hused
    cases hused

/-- The free blocks are in the data area. -/
theorem MetaUsed.dataStart_le (hmeta : MetaUsed sb data) (hb : b ∈ free sb data) :
    sb.dataStart ≤ b := by
  by_contra hlow
  have hused := hmeta b hb.1 (by omega)
  rw [hb.2] at hused
  cases hused

/-- `balloc` allocates a free block of the data area. -/
theorem wp_balloc (hl : Layout S t.sb) (hmeta : MetaUsed t.sb data)
    (hheld : ∀ x ∈ held, t.sb.dataStart ≤ x ∧ x < t.sb.size ∧ used t.sb data x = true)
    (hfree : 0 < freeBlocks t.sb data) :
    wp (balloc.run (array S))
      (fun b s => (t.sb.dataStart ≤ b ∧ b < t.sb.size ∧ used t.sb data b = false) ∧
        s = (t, ⟨allocate t.sb data b, held⟩)) E (t, ⟨data, held⟩) := by
  refine wp_mono (wp_balloc_least hl hmeta hheld) ?_ ?_
  · rintro b s ⟨⟨hb, -⟩, rfl⟩
    exact ⟨⟨hmeta.dataStart_le hb, hb.1, hb.2⟩, rfl⟩
  · rintro e s ⟨hempty, -⟩
    obtain ⟨b, hb, hused⟩ := exists_free hfree
    have hmem : b ∈ free t.sb data := ⟨hb, hused⟩
    rw [hempty] at hmem
    exact hmem.elim

/-- `bfree` takes the mark of a block away, or stops if there is none. -/
theorem wp_bfree_used (hl : Layout S t.sb) (hb : b < t.sb.size)
    (hheld : ∀ x ∈ held, t.sb.dataStart ≤ x) :
    wp ((bfree b).run (array S))
      (fun _ s => used t.sb data b = true ∧ s = (t, ⟨release t.sb data b, held⟩))
      (fun e _ => used t.sb data b = false ∧ e = .panic "freeing free block") (t, ⟨data, held⟩) := by
  obtain ⟨hlow, hhigh⟩ := bblock_lt hb
  have hinodes := hl.le
  have hnot : bblock t.sb b ∉ held := fun hmem => by
    have := hheld _ hmem
    omega
  rw [bfree, wp_run_bind, wp_run_get, wp_run_bind]
  refine (Flat.wp_bread (hl.offers _ (by omega) (.inl hhigh)) hnot).mpr ?_
  refine wp_run_ite (fun hbit => ?_) fun hbit => ?_
  · rw [panic, wp_run_stop]
    exact ⟨hbit, rfl⟩
  · rw [wp_run_bind]
    refine (Flat.wp_store List.mem_cons_self).mpr ?_
    refine (Flat.wp_brelse hnot).mpr ⟨?_, rfl⟩
    rwa [Bool.not_eq_false] at hbit

/-- `bfree` of a used block of the data area. -/
theorem wp_bfree {Q : Unit → Mem × Flat Block → Prop} (hl : Layout S t.sb) (hb : b < t.sb.size)
    (hheld : ∀ x ∈ held, t.sb.dataStart ≤ x) (hused : used t.sb data b = true)
    (hQ : Q () (t, ⟨release t.sb data b, held⟩)) :
    wp ((bfree b).run (array S)) Q E (t, ⟨data, held⟩) := by
  refine wp_mono (wp_bfree_used hl hb hheld) ?_ ?_
  · rintro _ s ⟨-, rfl⟩
    exact hQ
  · rintro e s ⟨hfree, -⟩
    rw [hused] at hfree
    cases hfree

end Allocator

/-! ### The free bit map as a set of bits -/

/-- The bit of the block `b` has got the value `v`, and nothing else has changed.  The bits are those
    of all bitmap blocks, also the bits behind the last block of the disk. -/
structure BitSet (sb : Superblock) (data data' : Nat → Block) (b : Nat) (v : Bool) : Prop where
  bits : ∀ x, x / BPB ≤ sb.size / BPB → used sb data' x = if x = b then v else used sb data x
  blocks : ∀ x, x ≠ bblock sb b → data' x = data x

theorem bitSet_release : BitSet sb data (release sb data b) b false where
  bits x _ := by
    rw [used_release]
    by_cases h : x = b <;> simp [h]
  blocks x hx := Function.update_of_ne hx _ _

/-- The mark that `balloc` sets. -/
theorem bitSet_mark : BitSet sb data
    (Function.update data (bblock sb b) (markUsed (data (bblock sb b)) (b % BPB))) b true where
  bits x _ := by
    rw [used]
    by_cases hblock : bblock sb x = bblock sb b
    · rw [hblock, Function.update_self, bitUsed_markUsed _ (mod_BPB_lt b), used, hblock]
      by_cases h : x = b
      · simp [h]
      · have hmod : x % BPB ≠ b % BPB := fun hmod => h (bit_place hblock hmod)
        simp [h, hmod]
    · have h : x ≠ b := fun h => hblock (by rw [h])
      rw [Function.update_of_ne hblock, if_neg h, used]
  blocks x hx := Function.update_of_ne hx _ _

/-- A block is determined by its bits. -/
theorem block_ext {d e : Block} (h : ∀ bi < BPB, bitUsed d bi = bitUsed e bi) : d = e := by
  refine Bytes.ext_get fun i hi => ?_
  rw [← UInt8.toNat_inj]
  refine Nat.eq_of_testBit_eq fun j => ?_
  by_cases hj : j < 8
  · have hbit : (8 * i + j) / 8 = i ∧ (8 * i + j) % 8 = j := by omega
    have hsame := h (8 * i + j) (by simp only [BPB, BSIZE] at hi ⊢; omega)
    rwa [bitUsed_eq, bitUsed_eq, hbit.1, hbit.2] at hsame
  · have hhigh : ∀ x : UInt8, x.toNat.testBit j = false := fun x =>
      Nat.testBit_lt_two_pow (x.toNat_lt.trans_le (Nat.pow_le_pow_right (by decide) (by omega)))
    rw [hhigh, hhigh]

/-- The mark that is set and taken away again. -/
theorem markFree_markUsed {d : Block} {bi : Nat} (hbi : bi < BPB) (hfree : bitUsed d bi = false) :
    markFree (markUsed d bi) bi = d := by
  refine block_ext fun bj _ => ?_
  rw [bitUsed_markFree _ hbi, bitUsed_markUsed _ hbi]
  by_cases h : bj = bi
  · rw [h, hfree]
    simp
  · simp [h]

/-- After `balloc` and `bfree` only the contents of the block are new. -/
theorem release_allocate (hb : b < sb.size) (hdata : sb.dataStart ≤ b)
    (hfree : used sb data b = false) :
    release sb (allocate sb data b) b = Function.update data b fun _ => 0 := by
  have hne : bblock sb b ≠ b := fun h => by
    have := (bblock_lt hb).2
    omega
  funext x
  rw [release]
  by_cases hblock : x = bblock sb b
  · rw [hblock, Function.update_self, Function.update_of_ne hne, allocate, Function.update_of_ne hne,
      Function.update_self, markFree_markUsed (mod_BPB_lt b) hfree]
  · rw [Function.update_of_ne hblock, allocate]
    by_cases hx : x = b
    · rw [hx, Function.update_self, Function.update_self]
    · rw [Function.update_of_ne hx, Function.update_of_ne hblock, Function.update_of_ne hx]

/-! ### A file system with one empty file -/

/-- An empty file has been created, and is locked by nobody. -/
def newFile : Mem where
  sb := ⟨200, 4, 2, 3⟩
  inode ip := if ip = 0 then { inum := 1, ref := 1, valid := true, type := T_FILE, nlink := 1 } else {}
  file _ := {}
  ofile _ := none
  cwd := 0
  console _ := none

/-- The first four blocks of the disk are marked. -/
def newDisk (b : Nat) : Block := if b = 3 then fun i => if i.val = 0 then 15 else 0 else fun _ => 0

theorem newFile_layout : Layout (fun _ => True) newFile.sb :=
  ⟨by decide, by decide, fun _ _ _ => trivial⟩

theorem newFile_metaUsed : MetaUsed newFile.sb newDisk := by
  have hall : ∀ b < 4, used newFile.sb newDisk b = true := by decide +kernel
  exact fun b _ hb => hall b hb

/-! ### Sequences of calls -/

/-- A call of the allocator. -/
inductive Call where
  | balloc
  | bfree (b : Nat)

/-- What a call has done. -/
inductive Event where
  | allocated (b : Nat)
  | freed (b : Nat)

def Call.exec : Call → FsM Event
  | .balloc => do
    let b ← File.balloc
    pure (.allocated b)
  | .bfree b => do
    File.bfree b
    pure (.freed b)

/-- Calls one after the other. -/
def execCalls : List Call → FsM (List Event)
  | [] => pure []
  | c :: cs => do
    let e ← c.exec
    let es ← execCalls cs
    pure (e :: es)

/-- The blocks that are allocated after a call. -/
def Event.apply (u : Nat → Bool) : Event → Nat → Bool
  | .allocated b => Function.update u b true
  | .freed b => Function.update u b false

/-- No event hands out a block that is still allocated. -/
def Exclusive : (Nat → Bool) → List Event → Prop
  | _, [] => True
  | u, e :: es => (∀ b, e = .allocated b → u b = false) ∧ Exclusive (e.apply u) es

/-- Only blocks of the data area are freed, so that the metadata blocks stay marked. -/
def Call.Legal (sb : Superblock) : Call → Prop
  | .balloc => True
  | .bfree b => sb.dataStart ≤ b ∧ b < sb.size

section Calls

variable [DecidablePred S] {E : Stop → Mem × Flat Block → Prop}

/-- What one call does. -/
theorem wp_exec {c : Call} (hl : Layout S t.sb) (hmeta : MetaUsed t.sb data) (hc : c.Legal t.sb) :
    wp (c.exec.run (array S)) (fun e s => (∀ b, e = .allocated b → b ∈ free t.sb data) ∧
      ∃ data', s = (t, ⟨data', []⟩) ∧ MetaUsed t.sb data' ∧
        ∀ x < t.sb.size, used t.sb data' x = e.apply (used t.sb data) x)
      (fun _ _ => True) (t, ⟨data, []⟩) := by
  cases c with
  | balloc =>
    rw [Call.exec, wp_run_bind]
    refine wp_mono (wp_balloc_least hl hmeta nofun) ?_ fun _ _ _ => trivial
    rintro b _ ⟨⟨hfree, -⟩, rfl⟩
    have hused : ∀ x < t.sb.size, used t.sb (allocate t.sb data b) x =
        (Event.allocated b).apply (used t.sb data) x := by
      intro x hx
      rw [used_allocate hx (hmeta.dataStart_le hfree), Event.apply]
      by_cases h : x = b <;> simp [h]
    rw [wp_run_pure]
    refine ⟨fun b' hb' => ?_, _, rfl, fun x hx hlow => ?_, hused⟩
    · rw [Event.allocated.injEq] at hb'
      exact hb' ▸ hfree
    · rw [used_allocate hx (hmeta.dataStart_le hfree), hmeta x hx hlow, Bool.or_true]
  | bfree b =>
    rw [Call.exec, wp_run_bind]
    refine wp_mono (wp_bfree_used hl hc.2 nofun) ?_ fun _ _ _ => trivial
    rintro _ _ ⟨-, rfl⟩
    have hused : ∀ x < t.sb.size, used t.sb (release t.sb data b) x =
        (Event.freed b).apply (used t.sb data) x := by
      intro x _
      rw [used_release, Event.apply]
      by_cases h : x = b <;> simp [h]
    rw [wp_run_pure]
    refine ⟨nofun, _, rfl, fun x hx hlow => ?_, hused⟩
    have hne : x ≠ b := fun h => by
      have := hc.1
      omega
    rw [used_release, hmeta x hx hlow]
    simp [hne]

theorem Event.apply_congr {u v : Nat → Bool} {e : Event} (h : u x = v x) : e.apply u x = e.apply v x := by
  cases e <;> rw [Event.apply, Event.apply, Function.update_apply, Function.update_apply, h]

theorem foldl_apply_congr {u v : Nat → Bool} {es : List Event} (h : u x = v x) :
    es.foldl Event.apply u x = es.foldl Event.apply v x := by
  induction es generalizing u v with
  | nil => exact h
  | cons e es ih => exact ih (Event.apply_congr h)

theorem exclusive_congr {u v : Nat → Bool} {es : List Event} {n : Nat} (h : ∀ x < n, u x = v x)
    (hlt : ∀ b, .allocated b ∈ es → b < n) (hu : Exclusive u es) : Exclusive v es := by
  induction es generalizing u v with
  | nil => trivial
  | cons e es ih =>
    refine ⟨fun b hb => ?_, ih (fun x hx => Event.apply_congr (h x hx))
      (fun b hb => hlt b (List.mem_cons_of_mem _ hb)) hu.2⟩
    rw [← h b (hlt b (hb ▸ List.mem_cons_self))]
    exact hu.1 b hb

/-- A sequence of calls hands out only blocks that are not allocated. -/
theorem wp_execCalls {cs : List Call} (hl : Layout S t.sb) (hmeta : MetaUsed t.sb data)
    (hcs : ∀ c ∈ cs, c.Legal t.sb) :
    wp ((execCalls cs).run (array S)) (fun es s => Exclusive (used t.sb data) es ∧
      (∀ b, .allocated b ∈ es → b < t.sb.size) ∧ ∃ data', s = (t, ⟨data', []⟩) ∧
        ∀ x < t.sb.size, used t.sb data' x = es.foldl Event.apply (used t.sb data) x)
      (fun _ _ => True) (t, ⟨data, []⟩) := by
  induction cs generalizing data with
  | nil =>
    rw [execCalls, wp_run_pure]
    exact ⟨trivial, nofun, data, rfl, fun _ _ => rfl⟩
  | cons c cs ih =>
    rw [execCalls, wp_run_bind]
    refine wp_mono (wp_exec hl hmeta (hcs c List.mem_cons_self)) ?_ fun _ _ _ => trivial
    rintro e _ ⟨hfree, data₁, rfl, hmeta₁, hused⟩
    rw [wp_run_bind]
    refine wp_mono (ih hmeta₁ fun c hc => hcs c (List.mem_cons_of_mem _ hc)) ?_ fun _ _ _ => trivial
    rintro es _ ⟨hexcl, hlt, data', rfl, hused'⟩
    rw [wp_run_pure]
    refine ⟨⟨fun b hb => (hfree b hb).2, exclusive_congr hused hlt hexcl⟩, fun b hb => ?_, data', rfl,
      fun x hx => ?_⟩
    · rcases List.mem_cons.mp hb with heq | hb
      · exact (hfree b heq.symm).1
      · exact hlt b hb
    · rw [hused' x hx, List.foldl_cons]
      exact foldl_apply_congr (hused x hx)

/-- The block allocator: `balloc` hands out the smallest free block, `bfree` takes it back. -/
theorem allocator_correct (hl : Layout S t.sb) (hmeta : MetaUsed t.sb data)
    (hheld : ∀ x ∈ held, t.sb.dataStart ≤ x ∧ x < t.sb.size ∧ used t.sb data x = true) :
    ((∃ e s, balloc.run (array S) (t, ⟨data, held⟩) = .error e s) ↔ free t.sb data = ∅) ∧
    (∀ e s, balloc.run (array S) (t, ⟨data, held⟩) = .error e s → e = .panic "balloc: out of blocks") ∧
    (∀ b s, balloc.run (array S) (t, ⟨data, held⟩) = .ok b s → IsLeast (free t.sb data) b ∧
      ∃ marked, BitSet t.sb data marked b true ∧
        s = (t, ⟨Function.update marked b fun _ => 0, held⟩) ∧
        (bfree b).run (array S) s = .ok () (t, ⟨Function.update data b fun _ => 0, held⟩)) ∧
    (∀ b < t.sb.size,
      ((∃ e s, (bfree b).run (array S) (t, ⟨data, held⟩) = .error e s) ↔ used t.sb data b = false) ∧
      (∀ e s, (bfree b).run (array S) (t, ⟨data, held⟩) = .error e s →
        e = .panic "freeing free block") ∧
      ∀ s, (bfree b).run (array S) (t, ⟨data, held⟩) = .ok () s →
        ∃ data', BitSet t.sb data data' b false ∧ s = (t, ⟨data', held⟩)) ∧
    (∀ cs es s, (∀ c ∈ cs, Call.Legal t.sb c) →
      (execCalls cs).run (array S) (t, ⟨data, []⟩) = .ok es s → Exclusive (used t.sb data) es) := by
  have hspec := wp_balloc_least hl hmeta hheld
  refine ⟨⟨?_, fun hempty => ?_⟩, fun e s hrun => (wp_error hspec hrun).2.1, fun b s hrun => ?_,
    fun b hb => ?_, fun cs es s hcs hrun => (wp_ok (wp_execCalls hl hmeta hcs) hrun).1⟩
  · rintro ⟨e, s, hrun⟩
    exact (wp_error hspec hrun).1
  · cases hrun : balloc.run (array S) (t, ⟨data, held⟩) with
    | error e s => exact ⟨e, s, rfl⟩
    | ok b s =>
      have hmem := (wp_ok hspec hrun).1.1
      rw [hempty] at hmem
      exact hmem.elim
  · obtain ⟨hleast, rfl⟩ := wp_ok hspec hrun
    have hdata := hmeta.dataStart_le hleast.1
    obtain ⟨hb, hfree⟩ := hleast.1
    refine ⟨hleast, _, bitSet_mark, rfl, ?_⟩
    have hused : used t.sb (allocate t.sb data b) b = true := by
      rw [used_allocate hb hdata]
      simp
    have hback : wp ((bfree b).run (array S))
        (fun _ s => s = (t, ⟨release t.sb (allocate t.sb data b) b, held⟩)) (fun _ _ => False)
        (t, ⟨allocate t.sb data b, held⟩) := wp_bfree hl hb (fun x hx => (hheld x hx).1) hused rfl
    obtain ⟨_, s, hrun', rfl⟩ := wp_returns hback
    rw [release_allocate hb hdata hfree] at hrun'
    exact hrun'
  · have hfrees : wp ((bfree b).run (array S)) _ _ (t, ⟨data, held⟩) :=
      wp_bfree_used hl hb fun x hx => (hheld x hx).1
    refine ⟨⟨?_, fun hfree => ?_⟩, fun e s hrun => (wp_error hfrees hrun).2, fun s hrun => ?_⟩
    · rintro ⟨e, s, hrun⟩
      exact (wp_error hfrees hrun).1
    · cases hrun : (bfree b).run (array S) (t, ⟨data, held⟩) with
      | error e s => exact ⟨e, s, rfl⟩
      | ok _ s =>
        have hused := (wp_ok hfrees hrun).1
        rw [hfree] at hused
        cases hused
    · exact ⟨_, bitSet_release, (wp_ok hfrees hrun).2⟩

theorem allocator_correct_new : ∃ s, balloc.run (array fun _ => True) (newFile, ⟨newDisk, []⟩) = .ok 4 s ∧
    (bfree 4).run (array fun _ => True) s =
      .ok () (newFile, ⟨Function.update newDisk 4 fun _ => 0, []⟩) := by
  obtain ⟨hpanic, -, hok, -⟩ := allocator_correct newFile_layout newFile_metaUsed
    (t := newFile) (S := fun _ => True) fun _ hx => absurd hx List.not_mem_nil
  have hfree : 4 ∈ free newFile.sb newDisk := ⟨by decide, by decide +kernel⟩
  cases hrun : balloc.run (array fun _ => True) (newFile, ⟨newDisk, []⟩) with
  | error e s =>
    rw [hpanic.mp ⟨e, s, hrun⟩] at hfree
    exact hfree.elim
  | ok b s =>
    obtain ⟨hleast, -, -, -, hback⟩ := hok b s hrun
    have hb : b = 4 :=
      Nat.le_antisymm (hleast.2 hfree) (newFile_metaUsed.dataStart_le hleast.1)
    subst hb
    exact ⟨s, rfl, hback⟩

end Calls

end Xv6.File
