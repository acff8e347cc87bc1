import Xv6.File.Blocks
import Xv6.Lib.Forest

namespace Xv6.File

open Xv6.Lib
open Xv6.Fs (Block BSIZE Stop)

/-!
# Files — the block trees of the inodes

A file system is the state in memory and the blocks of the disk.  An inode is the entry of the
inode cache, if there is one, and else the inode on the disk.

* `Mem.current` — the inode with a given number;
* `pointer` — the block number in a cell of a block tree: in `addrs`, or in a pointer block;
* `WellFormed` — no two cells hold the same block number;
* `Mapped` — what changes when the cells on a path are filled.
-/

variable {S : Nat → Prop} {sb : Superblock} {data data' : Nat → Block} {t t' : Mem} {ip : Ip}
  {b i inum slot x : Nat} {is js : List Nat}

/-! ### Inodes -/

/-- The entry of the inode cache for an inode. -/
def cached (t : Mem) (inum : Nat) : Option Ip :=
  (List.finRange NINODE).find? fun i => 0 < (t.inode i).ref ∧ (t.inode i).inum = inum

/-- The inode with a number. -/
def Mem.current (t : Mem) (data : Nat → Block) (inum : Nat) : Inode :=
  match cached t inum with
  | some ip =>
    if (t.inode ip).valid then t.inode ip else readDinode (data (iblock t.sb inum)) (t.inode ip)
  | none => readDinode (data (iblock t.sb inum)) { inum := inum }

/-- Assign to `ip->addrs`. -/
def Mem.withAddrs (t : Mem) (ip : Ip) (a : Bytes ADDRSIZE) : Mem :=
  { t with inode := Function.update t.inode ip { t.inode ip with addrs := a } }

/-- The entry `ip` of the inode cache is the one for its inode, and has been read. -/
structure Valid (t : Mem) (ip : Ip) : Prop where
  cached : cached t (t.inode ip).inum = some ip
  valid : (t.inode ip).valid = true
  lt : (t.inode ip).inum < t.sb.ninodes

theorem Valid.current (h : Valid t ip) : t.current data (t.inode ip).inum = t.inode ip := by
  rw [Mem.current, h.cached]
  exact if_pos h.valid

theorem withAddrs_self (t : Mem) (ip : Ip) : t.withAddrs ip (t.inode ip).addrs = t := by
  simp [Mem.withAddrs]

theorem withAddrs_twice (t : Mem) (ip : Ip) (a a' : Bytes ADDRSIZE) :
    (t.withAddrs ip a).withAddrs ip a' = t.withAddrs ip a' := by
  simp [Mem.withAddrs]

theorem cached_withAddrs (a : Bytes ADDRSIZE) : cached (t.withAddrs ip a) inum = cached t inum := by
  have hsame : (fun i => decide (0 < ((t.withAddrs ip a).inode i).ref ∧
      ((t.withAddrs ip a).inode i).inum = inum)) =
      fun i => decide (0 < (t.inode i).ref ∧ (t.inode i).inum = inum) := by
    funext i
    by_cases hi : i = ip
    · subst hi
      simp [Mem.withAddrs]
    · simp [Mem.withAddrs, hi]
  rw [cached, cached, hsame]

theorem Valid.withAddrs (h : Valid t ip) (a : Bytes ADDRSIZE) : Valid (t.withAddrs ip a) ip := by
  have hinode : (t.withAddrs ip a).inode ip = { t.inode ip with addrs := a } :=
    Function.update_self ..
  refine ⟨?_, by rw [hinode]; exact h.valid, by rw [hinode]; exact h.lt⟩
  rw [cached_withAddrs, hinode]
  exact h.cached

/-- The blocks of the inodes are in front of the bit map. -/
theorem iblock_lt (hl : Layout S sb) (h : inum < sb.ninodes) : iblock sb inum < sb.bmapstart := by
  have hdiv : inum / IPB ≤ sb.ninodes / IPB := Nat.div_le_div_right h.le
  have hinodes := hl.inodes
  rw [iblock]
  omega

/-- The inodes depend only on the inode cache and on the blocks of the inodes. -/
theorem current_congr (hl : Layout S t.sb) (h : ∀ x, x < t.sb.bmapstart → data' x = data x)
    (hlt : inum < t.sb.ninodes) : t.current data' inum = t.current data inum := by
  have hblock := h _ (iblock_lt hl hlt)
  rw [Mem.current, Mem.current, hblock]

theorem current_withAddrs (hv : Valid t ip) (a : Bytes ADDRSIZE) :
    (t.withAddrs ip a).current data inum =
      if inum = (t.inode ip).inum then { t.inode ip with addrs := a } else t.current data inum := by
  split
  · rename_i heq
    have hinum : ((t.withAddrs ip a).inode ip).inum = (t.inode ip).inum := by
      simp [Mem.withAddrs]
    rw [heq, ← hinum, (hv.withAddrs a).current]
    exact Function.update_self ..
  · rename_i hne
    rw [Mem.current, Mem.current, cached_withAddrs]
    cases hc : cached t inum with
    | none => rfl
    | some j =>
      have hj : j ≠ ip := by
        rintro rfl
        have hfound := List.find?_some hc
        simp only [decide_eq_true_eq] at hfound
        exact hne hfound.2.symm
      have hinode : (t.withAddrs ip a).inode j = t.inode j := Function.update_of_ne hj _ _
      dsimp only
      rw [hinode]
      rfl

/-! ### Cells -/

/-- The levels of pointer blocks below an entry of `addrs`. -/
def height (slot : Nat) : Nat := slot + 1 - NDIRECT

/-- An inode number with an index into `addrs`, and indices into pointer blocks. -/
abbrev Cell := (Nat × Nat) × List Nat

/-- A cell of the block tree of a file or a directory. -/
structure IsCell (t : Mem) (data : Nat → Block) (c : Cell) : Prop where
  type : (t.current data c.1.1).type = T_FILE ∨ (t.current data c.1.1).type = T_DIR
  inum : c.1.1 < t.sb.ninodes
  slot : c.1.2 < NDIRECT + 3
  depth : c.2.length ≤ height c.1.2
  path : ∀ i ∈ c.2, i < NINDIRECT

/-- The block numbers in a block. -/
def entries (data : Nat → Block) (b i : Nat) : Nat := entry (data b) i

/-- The block numbers in the inodes. -/
def root (t : Mem) (data : Nat → Block) (r : Nat × Nat) : Nat := (t.current data r.1).addr r.2

/-- The block number in a cell. -/
def pointer (t : Mem) (data : Nat → Block) (c : Cell) : Nat := value (entries data) (root t data) c

/-- A file system in which all block numbers in the trees are different, in the data area and
    marked as used. -/
structure WellFormed (t : Mem) (data : Nat → Block) : Prop where
  metaUsed : MetaUsed t.sb data
  forest : Forest (entries data) (root t data) (IsCell t data)
  block : ∀ c, IsCell t data c → pointer t data c ≠ 0 → t.sb.dataStart ≤ pointer t data c ∧
    pointer t data c < t.sb.size ∧ used t.sb data (pointer t data c) = true

theorem prefixClosed (t : Mem) (data : Nat → Block) : PrefixClosed (IsCell t data) := by
  rintro r is i ⟨htype, hinum, hslot, hdepth, hpath⟩
  refine ⟨htype, hinum, hslot, ?_, fun j hj => hpath j (List.mem_append_left _ hj)⟩
  simp only [List.length_append, List.length_cons] at hdepth
  exact Nat.le_of_succ_le hdepth

theorem entry_zero (i : Nat) : entry (fun _ => 0) i = 0 := by
  have hle : ∀ off w, Bytes.le (fun _ => 0 : Block) off w = 0 := by
    intro off w
    induction w generalizing off with
    | zero => rfl
    | succ w ih =>
      rw [Bytes.le, ih, Bytes.get]
      split <;> rfl
  exact hle _ _

theorem entry_setLe_self (d : Block) (hi : i < NINDIRECT) (hb : b < 2 ^ 32) :
    entry (d.setLe (4 * i) 4 b) i = b := by
  rw [entry, Bytes.le_setLe_self (by simp only [NINDIRECT, BSIZE] at *; omega)]
  exact Nat.mod_eq_of_lt hb

theorem entry_setLe_other (d : Block) {j : Nat} (h : j ≠ i) :
    entry (d.setLe (4 * i) 4 b) j = entry d j :=
  Bytes.le_setLe_of_disjoint (by omega)

theorem addr_setAddr_self (q : Inode) (hs : slot < NDIRECT + 3) (hb : b < 2 ^ 32) :
    (q.setAddr slot b).addr slot = b := by
  rw [Inode.setAddr, Inode.addr, Bytes.le_setLe_self (by simp only [ADDRSIZE]; omega)]
  exact Nat.mod_eq_of_lt hb

theorem addr_setAddr_other (q : Inode) {slot' : Nat} (h : slot' ≠ slot) :
    (q.setAddr slot b).addr slot' = q.addr slot' :=
  Bytes.le_setLe_of_disjoint (by omega)

/-- The cells depend only on the types of the inodes. -/
theorem isCell_eq (hl : Layout S t.sb) (hv : Valid t ip) (a : Bytes ADDRSIZE)
    (hlow : ∀ x, x < t.sb.bmapstart → data' x = data x) :
    IsCell (t.withAddrs ip a) data' = IsCell t data := by
  funext c
  have hcurrent : c.1.1 < t.sb.ninodes →
      ((t.withAddrs ip a).current data' c.1.1).type = (t.current data c.1.1).type := by
    intro hlt
    rw [current_withAddrs hv]
    split
    · rename_i heq
      rw [heq, hv.current]
    · rw [current_congr hl hlow hlt]
  refine propext ⟨fun h => ?_, fun h => ?_⟩
  · exact ⟨(hcurrent h.inum) ▸ h.type, h.inum, h.slot, h.depth, h.path⟩
  · exact ⟨(hcurrent h.inum).symm ▸ h.type, h.inum, h.slot, h.depth, h.path⟩

/-! ### Filling cells -/

/-- The cells on the path to `c`, and `c` itself. -/
def OnPath (c' c : Cell) : Prop := c'.1 = c.1 ∧ c'.2 <+: c.2

/-- The cells on the path to `c`. -/
def Above (c' c : Cell) : Prop := OnPath c' c ∧ c'.2.length < c.2.length

/-- A free block has been put into the cell `g`. -/
structure Grown (t : Mem) (data : Nat → Block) (t' : Mem) (data' : Nat → Block) (ip : Ip) (g : Cell)
    (b : Nat) : Prop where
  mem : ∃ a, t' = t.withAddrs ip a
  graft : Graft (entries data) (root t data) (IsCell t data) (entries data') (root t' data') g b
  fresh : t.sb.dataStart ≤ b ∧ b < t.sb.size ∧ used t.sb data b = false
  used : ∀ x, x < t.sb.size → used t.sb data' x = (decide (x = b) || used t.sb data x)
  low : ∀ x, x < t.sb.bmapstart → data' x = data x
  content : ∀ c, IsCell t data c → pointer t data c ≠ 0 → ¬ Above c g →
    data' (pointer t data c) = data (pointer t data c)

/-- Cells on the path to `c` have been filled with blocks that were free. -/
structure Mapped (t : Mem) (data : Nat → Block) (t' : Mem) (data' : Nat → Block) (ip : Ip) (c : Cell) :
    Prop where
  mem : ∃ a, t' = t.withAddrs ip a
  wellFormed : WellFormed t' data'
  cells : IsCell t' data' = IsCell t data
  old : ∀ c', IsCell t data c' → pointer t data c' ≠ 0 → pointer t' data' c' = pointer t data c'
  new : ∀ c', IsCell t data c' → pointer t data c' = 0 → pointer t' data' c' ≠ 0 → OnPath c' c ∧
    Xv6.File.used t.sb data (pointer t' data' c') = false
  used : ∀ x, x < t.sb.size → (Xv6.File.used t.sb data' x = true ↔ Xv6.File.used t.sb data x = true ∨
    ∃ c', IsCell t data c' ∧ pointer t data c' = 0 ∧ pointer t' data' c' = x ∧ x ≠ 0)
  low : ∀ x, x < t.sb.bmapstart → data' x = data x
  content : ∀ c', IsCell t data c' → pointer t data c' ≠ 0 → ¬ Above c' c →
    data' (pointer t data c') = data (pointer t data c')

theorem withAddrs_sb (a : Bytes ADDRSIZE) : (t.withAddrs ip a).sb = t.sb := rfl

theorem Mapped.sb_eq {c : Cell} (h : Mapped t data t' data' ip c) : t'.sb = t.sb := by
  obtain ⟨a, rfl⟩ := h.mem
  rfl

theorem Mapped.refl (hwf : WellFormed t data) (c : Cell) : Mapped t data t data ip c where
  mem := ⟨_, (withAddrs_self t ip).symm⟩
  wellFormed := hwf
  cells := rfl
  old := fun _ _ _ => rfl
  new := fun _ _ h0 hne => absurd h0 hne
  used := fun _ _ => ⟨.inl, fun h => h.elim id fun ⟨_, _, h0, hx, hne⟩ => absurd (h0.symm.trans hx).symm hne⟩
  low := fun _ _ => rfl
  content := fun _ _ _ _ => rfl

/-- First the cells on the path to one cell are filled, and then those on the way on. -/
theorem Mapped.trans {t₂ : Mem} {data₂ : Nat → Block} {c₁ c₂ : Cell}
    (h : Mapped t data t' data' ip c₁) (h' : Mapped t' data' t₂ data₂ ip c₂) (hpath : OnPath c₁ c₂) :
    Mapped t data t₂ data₂ ip c₂ := by
  have hsb := h.sb_eq
  have hcells := h.cells
  have hzero : ∀ c', IsCell t data c' → pointer t' data' c' = 0 → pointer t data c' = 0 := by
    intro c' hc' h0
    by_contra hne
    exact hne ((h.old c' hc' hne).symm.trans h0)
  have hon : ∀ c', OnPath c' c₁ → OnPath c' c₂ := fun c' hc' =>
    ⟨hc'.1.trans hpath.1, hc'.2.trans hpath.2⟩
  refine ⟨?_, h'.wellFormed, h'.cells.trans hcells, fun c' hc' hne => ?_, fun c' hc' h0 hne => ?_,
    fun x hx => ?_, fun x hx => ?_, fun c' hc' hne habove => ?_⟩
  · obtain ⟨a, rfl⟩ := h.mem
    obtain ⟨a', ha'⟩ := h'.mem
    exact ⟨a', by rw [ha', withAddrs_twice]⟩
  · have hold := h.old c' hc' hne
    rw [h'.old c' (hcells ▸ hc') (hold ▸ hne), hold]
  · by_cases h1 : pointer t' data' c' = 0
    · obtain ⟨hc₂, hfree⟩ := h'.new c' (hcells ▸ hc') h1 hne
      refine ⟨hc₂, ?_⟩
      by_contra hused
      rw [Bool.not_eq_false] at hused
      by_cases hlt : pointer t₂ data₂ c' < t.sb.size
      · rw [hsb, ((h.used _ hlt).mpr (.inl hused))] at hfree
        cases hfree
      · have hlt' := (h'.wellFormed.block c' (by rw [h'.cells, hcells]; exact hc') hne).2.1
        rw [h'.sb_eq, hsb] at hlt'
        exact hlt hlt'
    · have hold := h'.old c' (hcells ▸ hc') h1
      rw [hold]
      exact ⟨hon c' (h.new c' hc' h0 h1).1, (h.new c' hc' h0 h1).2⟩
  · have hused := h'.used x (hsb ▸ hx)
    rw [hsb] at hused
    rw [hused, h.used x hx]
    constructor
    · rintro ((hu | ⟨c', hc', h0, hx', hne⟩) | ⟨c', hc', h0, hx', hne⟩)
      · exact .inl hu
      · refine .inr ⟨c', hc', h0, ?_, hne⟩
        rw [h'.old c' (hcells ▸ hc') (hx' ▸ hne), hx']
      · rw [hcells] at hc'
        exact .inr ⟨c', hc', hzero c' hc' h0, hx', hne⟩
    · rintro (hu | ⟨c', hc', h0, hx', hne⟩)
      · exact .inl (.inl hu)
      · by_cases h1 : pointer t' data' c' = 0
        · exact .inr ⟨c', hcells ▸ hc', h1, hx', hne⟩
        · refine .inl (.inr ⟨c', hc', h0, ?_, hne⟩)
          rw [← h'.old c' (hcells ▸ hc') h1, hx']
  · rw [h'.low x (hsb ▸ hx), h.low x hx]
  · have hold := h.old c' hc' hne
    have habove₁ : ¬ Above c' c₁ := fun ha =>
      habove ⟨hon c' ha.1, ha.2.trans_le hpath.2.length_le⟩
    have hsecond := h'.content c' (hcells ▸ hc') (hold ▸ hne) habove
    rw [hold] at hsecond
    rw [hsecond, h.content c' hc' hne habove₁]

/-- The cell gets the block, all other cells are as before. -/
theorem Grown.pointer_eq {g c : Cell} (h : Grown t data t' data' ip g b) (hc : IsCell t data c) :
    pointer t' data' c = if g = c then b else pointer t data c := by
  obtain ⟨hself, hother⟩ := h.graft.value_eq (prefixClosed t data) hc
  by_cases hg : g = c
  · rw [if_pos hg]
    exact hself hg
  · rw [if_neg hg]
    exact hother hg

theorem Grown.mapped {g : Cell} (h : Grown t data t' data' ip g b) (hl : Layout S t.sb)
    (hv : Valid t ip) (hwf : WellFormed t data) (hg : IsCell t data g) :
    Mapped t data t' data' ip g := by
  obtain ⟨a, ha⟩ := h.mem
  obtain ⟨hlow, hlt, hfree⟩ := h.fresh
  have hsb : t'.sb = t.sb := by rw [ha, withAddrs_sb]
  have hcells : IsCell t' data' = IsCell t data := by
    rw [ha]
    exact isCell_eq hl hv a h.low
  have hempty : pointer t data g = 0 := h.graft.empty
  have hfresh : ∀ c, IsCell t data c → pointer t data c ≠ b := by
    rintro c hc rfl
    have hused := (hwf.block c hc h.graft.ne_zero).2.2
    rw [hfree] at hused
    cases hused
  refine ⟨⟨a, ha⟩, ⟨fun x hx hmeta => ?_, ?_, fun c hc hne => ?_⟩, hcells, fun c hc hne => ?_,
    fun c hc h0 hne => ?_, fun x hx => ?_, h.low, h.content⟩
  · rw [hsb] at hx hmeta ⊢
    rw [h.used x hx, hwf.metaUsed x hx hmeta, Bool.or_true]
  · rw [hcells]
    exact hwf.forest.graft h.graft (prefixClosed t data) hfresh
  · rw [hcells] at hc
    rw [h.pointer_eq hc] at hne ⊢
    rw [hsb]
    split
    · exact ⟨hlow, hlt, by rw [h.used b hlt, decide_eq_true rfl, Bool.true_or]⟩
    · rename_i hgc
      rw [if_neg hgc] at hne
      obtain ⟨hlow', hlt', hused'⟩ := hwf.block c hc hne
      exact ⟨hlow', hlt', by rw [h.used _ hlt', hused', Bool.or_true]⟩
  · rw [h.pointer_eq hc, if_neg]
    rintro rfl
    exact hne hempty
  · rw [h.pointer_eq hc] at hne ⊢
    split
    · rename_i hgc
      exact ⟨hgc ▸ ⟨rfl, List.prefix_refl _⟩, hfree⟩
    · rename_i hgc
      rw [if_neg hgc] at hne
      exact absurd h0 hne
  · rw [h.used x hx, Bool.or_eq_true, decide_eq_true_eq]
    constructor
    · rintro (rfl | hu)
      · exact .inr ⟨g, hg, hempty, by rw [h.pointer_eq hg, if_pos rfl], h.graft.ne_zero⟩
      · exact .inl hu
    · rintro (hu | ⟨c, hc, h0, hx', hne⟩)
      · exact .inr hu
      · rw [h.pointer_eq hc] at hx'
        split at hx'
        · exact .inl hx'.symm
        · exact absurd (h0.symm.trans hx').symm hne

/-! ### One block more -/

section Fill

variable {r : Nat × Nat}

/-- A free block is none of the blocks in the trees, and no block of the bit map. -/
theorem WellFormed.ne_new (hwf : WellFormed t data) (hb : b < t.sb.size)
    (hfree : used t.sb data b = false) {c : Cell} (hc : IsCell t data c) (hne : pointer t data c ≠ 0) :
    pointer t data c ≠ b ∧ pointer t data c ≠ bblock t.sb b := by
  obtain ⟨hlow, -, hused⟩ := hwf.block c hc hne
  constructor
  · rintro rfl
    rw [hfree] at hused
    cases hused
  · intro heq
    have hblock := (bblock_lt hb).2
    omega

theorem WellFormed.allocate_pointer (hwf : WellFormed t data) (hb : b < t.sb.size)
    (hfree : used t.sb data b = false) {c : Cell} (hc : IsCell t data c) (hne : pointer t data c ≠ 0) :
    allocate t.sb data b (pointer t data c) = data (pointer t data c) := by
  obtain ⟨hnew, hblock⟩ := hwf.ne_new hb hfree hc hne
  exact allocate_other hnew hblock

/-- The blocks in front of the bit map stay as they are. -/
theorem allocate_low (hb : b < t.sb.size) (hdata : t.sb.dataStart ≤ b) (hx : x < t.sb.bmapstart) :
    allocate t.sb data b x = data x := by
  obtain ⟨hlow, hhigh⟩ := bblock_lt hb
  exact allocate_other (by omega) (by omega)

/-- A free block is put into `ip->addrs`. -/
theorem grown_root (hl : Layout S t.sb) (hv : Valid t ip) (hwf : WellFormed t data)
    (hs : slot < NDIRECT + 3) (hempty : (t.inode ip).addr slot = 0)
    (hb : t.sb.dataStart ≤ b ∧ b < t.sb.size ∧ used t.sb data b = false) :
    Grown t data (t.withAddrs ip ((t.inode ip).setAddr slot b).addrs) (allocate t.sb data b) ip
      (((t.inode ip).inum, slot), []) b := by
  obtain ⟨hdata, hlt, hfree⟩ := hb
  have hbmap := t.sb.bmapstart_lt
  have hsize := hl.size_lt
  have hlow : ∀ x, x < t.sb.bmapstart → allocate t.sb data b x = data x :=
    fun x hx => allocate_low hlt hdata hx
  have hroot : ∀ r : Nat × Nat, r.1 < t.sb.ninodes →
      root (t.withAddrs ip ((t.inode ip).setAddr slot b).addrs) (allocate t.sb data b) r =
        if r = ((t.inode ip).inum, slot) then b else root t data r := by
    rintro ⟨inum, slot'⟩ hinum
    rw [root, current_withAddrs hv]
    by_cases hi : inum = (t.inode ip).inum
    · rw [if_pos hi]
      subst hi
      show ((t.inode ip).setAddr slot b).addr slot' = _
      by_cases hs' : slot' = slot
      · subst hs'
        rw [addr_setAddr_self _ hs (by omega), if_pos rfl]
      · have hne : ((t.inode ip).inum, slot') ≠ ((t.inode ip).inum, slot) :=
          fun h => hs' (Prod.mk.inj h).2
        rw [addr_setAddr_other _ hs', if_neg hne, root, hv.current]
    · have hne : (inum, slot') ≠ ((t.inode ip).inum, slot) := fun h => hi (Prod.mk.inj h).1
      rw [if_neg hi, if_neg hne, current_congr hl hlow hinum, root]
  refine ⟨⟨_, rfl⟩, ⟨by omega, ?_, ?_, ?_, ?_, ?_, ?_, ?_⟩, ⟨hdata, hlt, hfree⟩,
    fun x hx => used_allocate hx hdata, hlow, fun c hc hne _ => hwf.allocate_pointer hlt hfree hc hne⟩
  · rw [value_nil, root, hv.current]
    exact hempty
  · intro r is i heq
    simp at heq
  · intro r heq
    rw [← (Prod.mk.inj heq).1, hroot _ hv.lt, if_pos rfl]
  · intro r hc hne
    have hr : r ≠ ((t.inode ip).inum, slot) := fun h => hne (by rw [h])
    rw [hroot r hc.inum, if_neg hr]
  · intro r is i heq
    simp at heq
  · intro r is i hc _ hne
    show entry (allocate t.sb data b (pointer t data (r, is))) i = _
    rw [hwf.allocate_pointer hlt hfree (prefixClosed t data r is i hc) hne]
    rfl
  · intro i
    show entry (allocate t.sb data b b) i = 0
    rw [allocate, Function.update_self]
    exact entry_zero i

/-- A free block is put into a pointer block. -/
theorem grown_entry (hl : Layout S t.sb) (hwf : WellFormed t data)
    (hc : IsCell t data (r, is ++ [i])) (hne : pointer t data (r, is) ≠ 0)
    (hempty : entry (data (pointer t data (r, is))) i = 0)
    (hb : t.sb.dataStart ≤ b ∧ b < t.sb.size ∧ used t.sb data b = false) :
    Grown t data t (Function.update (allocate t.sb data b) (pointer t data (r, is))
      ((data (pointer t data (r, is))).setLe (4 * i) 4 b)) ip (r, is ++ [i]) b := by
  obtain ⟨hdata, hlt, hfree⟩ := hb
  have hbmap := t.sb.bmapstart_lt
  have hsize := hl.size_lt
  have hparent := prefixClosed t data r is i hc
  have hnew := hwf.ne_new hlt hfree hparent hne
  obtain ⟨hplow, -, -⟩ := hwf.block _ hparent hne
  have hi : i < NINDIRECT := hc.path i (by simp)
  -- What is in the blocks of the trees afterwards.
  have hself : Function.update (allocate t.sb data b) (pointer t data (r, is))
      ((data (pointer t data (r, is))).setLe (4 * i) 4 b) (pointer t data (r, is)) =
        (data (pointer t data (r, is))).setLe (4 * i) 4 b := Function.update_self ..
  have hrest : ∀ x, x ≠ pointer t data (r, is) → Function.update (allocate t.sb data b)
      (pointer t data (r, is)) ((data (pointer t data (r, is))).setLe (4 * i) 4 b) x =
        allocate t.sb data b x := fun x hx => Function.update_of_ne hx _ _
  generalize Function.update (allocate t.sb data b) (pointer t data (r, is))
    ((data (pointer t data (r, is))).setLe (4 * i) 4 b) = data₁ at *
  have hother : ∀ c, IsCell t data c → pointer t data c ≠ 0 → c ≠ (r, is) →
      data₁ (pointer t data c) = data (pointer t data c) := by
    intro c hc' hne' hcp
    have hpc : pointer t data c ≠ pointer t data (r, is) := fun h =>
      hcp (hwf.forest c (r, is) hc' hparent h hne')
    rw [hrest _ hpc, hwf.allocate_pointer hlt hfree hc' hne']
  have hlow : ∀ x, x < t.sb.bmapstart → data₁ x = data x := by
    intro x hx
    rw [hrest x (by omega), allocate_low hlt hdata hx]
  refine ⟨⟨_, (withAddrs_self t ip).symm⟩, ⟨by omega, ?_, ?_, ?_, ?_, ?_, ?_, ?_⟩,
    ⟨hdata, hlt, hfree⟩, fun x hx => ?_, hlow, fun c hc' hne' habove => ?_⟩
  · exact (value_concat hne).trans hempty
  · intro r' is' i' heq
    obtain ⟨rfl, hpath⟩ := Prod.mk.inj heq
    obtain ⟨rfl, -⟩ := List.append_inj' hpath rfl
    exact hne
  · intro r' heq
    simp at heq
  · intro r' hc' _
    rw [root, root, current_congr hl hlow hc'.inum]
  · intro r' is' i' heq
    obtain ⟨rfl, hpath⟩ := Prod.mk.inj heq
    obtain ⟨rfl, hi'⟩ := List.append_inj' hpath rfl
    obtain rfl : i = i' := by simpa using hi'
    show entry (data₁ (pointer t data (r, is))) i = b
    rw [hself]
    exact entry_setLe_self _ hi (by omega)
  · intro r' is' i' hc' hg hne'
    show entry (data₁ (pointer t data (r', is'))) i' = entry (data (pointer t data (r', is'))) i'
    by_cases hcp : (r', is') = (r, is)
    · obtain ⟨rfl, rfl⟩ := Prod.mk.inj hcp
      have hi' : i' ≠ i := fun h => hg (by rw [h])
      rw [hself, entry_setLe_other _ hi']
    · rw [hother (r', is') (prefixClosed t data r' is' i' hc') hne' hcp]
  · intro j
    show entry (data₁ b) j = 0
    rw [hrest b hnew.1.symm, allocate, Function.update_self]
    exact entry_zero j
  · have hblock : bblock t.sb x ≠ pointer t data (r, is) := by
      have := (bblock_lt hx).2
      omega
    rw [← used_allocate hx hdata]
    exact used_congr (hrest _ hblock)
  · refine hother c hc' hne' ?_
    rintro rfl
    exact habove ⟨⟨rfl, List.prefix_append ..⟩, by simp⟩

end Fill

end Xv6.File
