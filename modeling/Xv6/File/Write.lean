import Xv6.File.Dinode
import Xv6.File.Read

namespace Xv6.File

open Xv6.Lib
open Xv6.Fs (Block BSIZE Stop)

/-!
# Files — writing

* `SameTrees` — the trees of all inodes are as before, whatever has been written to other blocks;
* `holes` — the cells that a write fills, so that the free blocks it needs are counted exactly;
* `Written` — the bytes of a file after a write, and what stays as it was;
* `wp_writeLoop` — the loop of `writei` writes its bytes.
-/

variable {S : Nat → Prop} {data data' data₂ : Nat → Block} {t t' t₂ : Mem} {ip : Ip} {f : Nat → UInt8}
  {bn i inum n m off b x N : Nat}

/-! ### What does not touch the trees -/

/-- The trees of the inodes, and the bits of the blocks, are the same. -/
structure SameTrees (t : Mem) (data : Nat → Block) (t' : Mem) (data' : Nat → Block) : Prop where
  sb : t'.sb = t.sb
  cells : IsCell t' data' = IsCell t data
  pointers : ∀ c, IsCell t data c → pointer t' data' c = pointer t data c
  bits : ∀ x, x < t.sb.size → used t.sb data' x = used t.sb data x

/-- It is enough that the inodes and the pointer blocks are the same. -/
theorem sameTrees (hsb : t'.sb = t.sb)
    (hcurrent : ∀ inum, inum < t.sb.ninodes → (t'.current data' inum).type = (t.current data inum).type ∧
      (t'.current data' inum).addrs = (t.current data inum).addrs)
    (hblocks : ∀ c i, IsCell t data (c.1, c.2 ++ [i]) → pointer t data c ≠ 0 →
      data' (pointer t data c) = data (pointer t data c))
    (hused : ∀ x, x < t.sb.size → used t.sb data' x = used t.sb data x) :
    SameTrees t data t' data' := by
  refine ⟨hsb, ?_, ?_, hused⟩
  · funext c
    refine propext ⟨fun h => ?_, fun h => ?_⟩
    · have hinum : c.1.1 < t.sb.ninodes := hsb ▸ h.inum
      exact ⟨(hcurrent _ hinum).1 ▸ h.type, hinum, h.slot, h.depth, h.path⟩
    · exact ⟨(hcurrent _ h.inum).1.symm ▸ h.type, hsb.symm ▸ h.inum, h.slot, h.depth, h.path⟩
  · rintro ⟨r, is⟩ hc
    refine value_congr (prefixClosed t data) (fun is' h => ?_) (fun is' i h hne => ?_) hc
    · rw [root, root, Inode.addr, Inode.addr, (hcurrent r.1 h.inum).2]
    · have hblock := hblocks (r, is') i h hne
      show entry (data' _) i = entry (data _) i
      exact congrArg (entry · i) hblock

theorem SameTrees.wellFormed (h : SameTrees t data t' data') (hwf : WellFormed t data) :
    WellFormed t' data' := by
  refine ⟨fun x hx hlow => ?_, fun c c' hc hc' heq hne => ?_, fun c hc hne => ?_⟩
  · rw [h.sb] at hx hlow ⊢
    rw [h.bits x hx, hwf.metaUsed x hx hlow]
  · rw [h.cells] at hc hc'
    have heq : pointer t' data' c = pointer t' data' c' := heq
    have hne : pointer t' data' c ≠ 0 := hne
    rw [h.pointers c hc] at heq hne
    rw [h.pointers c' hc'] at heq
    exact hwf.forest c c' hc hc' heq hne
  · rw [h.cells] at hc
    rw [h.pointers c hc] at hne ⊢
    obtain ⟨hlow, hlt, hu⟩ := hwf.block c hc hne
    rw [h.sb]
    exact ⟨hlow, hlt, (h.bits _ hlt).trans hu⟩

/-- A block of a file is no pointer block. -/
theorem WellFormed.leaf_ne (hwf : WellFormed t data) (hbn : bn < MAXFILE)
    (hc : IsCell t data (blockCell inum bn)) (hne : mapping t data inum bn ≠ 0) {c : Cell}
    (hc' : IsCell t data (c.1, c.2 ++ [i])) : pointer t data c ≠ mapping t data inum bn := by
  intro heq
  have hparent := prefixClosed t data c.1 c.2 i hc'
  obtain ⟨hslot, hdepth, -⟩ := place_leaf hbn
  have hparent_ne : pointer t data c ≠ 0 := by rwa [heq]
  have hcell := hwf.forest _ _ hparent hc heq hparent_ne
  obtain ⟨hr, his⟩ := Prod.mk.inj hcell
  have hlong := hc'.depth
  rw [List.length_append, List.length_singleton, his, hdepth, hr] at hlong
  exact absurd hlong (by simp)

/-- A write to a block of a file leaves the trees. -/
theorem sameTrees_store (hl : Layout S t.sb) (hwf : WellFormed t data) (hbn : bn < MAXFILE)
    (hc : IsCell t data (blockCell inum bn)) (hne : mapping t data inum bn ≠ 0) (d : Block) :
    SameTrees t data t (Function.update data (mapping t data inum bn) d) := by
  obtain ⟨hlow, -, -⟩ := hwf.block _ hc hne
  have hbmap := t.sb.bmapstart_lt
  have hlow : t.sb.dataStart ≤ mapping t data inum bn := hlow
  have hother : ∀ x, x < t.sb.dataStart →
      Function.update data (mapping t data inum bn) d x = data x := fun x hx =>
    Function.update_of_ne (by omega) _ _
  refine sameTrees rfl (fun inum' hinum => ?_) (fun c i hc' _ => ?_) fun x hx => ?_
  · rw [current_congr hl (fun x hx => hother x (by omega)) hinum]
    exact ⟨rfl, rfl⟩
  · exact Function.update_of_ne (hwf.leaf_ne hbn hc hne hc') _ _
  · exact used_congr (hother _ (bblock_lt hx).2)

/-! ### The cells that are filled -/

/-- The cells on the path to a block. -/
def pathCells (inum bn : Nat) : Finset Cell :=
  (Finset.range ((place bn).2.length + 1)).image fun k => ((inum, (place bn).1), (place bn).2.take k)

theorem mem_pathCells {c : Cell} : c ∈ pathCells inum bn ↔ OnPath c (blockCell inum bn) := by
  obtain ⟨r, is⟩ := c
  rw [pathCells, Finset.mem_image, OnPath, blockCell]
  constructor
  · rintro ⟨k, -, hk⟩
    obtain ⟨rfl, rfl⟩ := Prod.mk.inj hk
    exact ⟨rfl, List.take_prefix _ _⟩
  · rintro ⟨rfl, hpre⟩
    refine ⟨is.length, Finset.mem_range.mpr (Nat.lt_succ_of_le hpre.length_le), ?_⟩
    rw [← List.prefix_iff_eq_take.mp hpre]

/-- The blocks of a file that `n` bytes from `off` on are in. -/
def blocksOf (off n : Nat) : Finset Nat := (Finset.Ico off (off + n)).image (· / BSIZE)

/-- The empty cells on the paths to these blocks. -/
def holes (t : Mem) (data : Nat → Block) (inum off n : Nat) : Finset Cell :=
  ((blocksOf off n).biUnion (pathCells inum)).filter fun c => pointer t data c = 0

/-- The missing pointers on a path are counted. -/
theorem missing_eq_count {p : Nat} {is : List Nat} (hp : p ≠ 0) : missing (entries data) p is =
    Nat.count (fun k => follow (entries data) p (is.take k) = 0) (is.length + 1) := by
  induction is generalizing p with
  | nil => simp [missing, hp]
  | cons i is ih =>
    have hfirst : ¬ follow (entries data) p ((i :: is).take 0) = 0 := hp
    have hnext : (fun k => follow (entries data) p ((i :: is).take (k + 1)) = 0) =
        fun k => follow (entries data) (entries data p i) (is.take k) = 0 := by
      funext k
      rw [List.take_succ_cons, follow_cons hp]
    rw [Nat.count_succ', List.length_cons, if_neg hfirst, Nat.add_zero, missing]
    simp only [hnext]
    by_cases h0 : entries data p i = 0
    · simp [h0, Nat.count_true]
    · rw [if_neg h0, ih h0]

theorem needed_eq (hv : Valid t ip) : needed data (t.inode ip) bn =
    ((pathCells (t.inode ip).inum bn).filter fun c => pointer t data c = 0).card := by
  have hpointer : ∀ k, pointer t data (((t.inode ip).inum, (place bn).1), (place bn).2.take k) =
      follow (entries data) ((t.inode ip).addr (place bn).1) ((place bn).2.take k) := fun k => by
    rw [pointer, value, root, hv.current]
  have hinj : Set.InjOn (fun k => (((t.inode ip).inum, (place bn).1), (place bn).2.take k))
      (Finset.range ((place bn).2.length + 1)) := by
    intro k hk k' hk' heq
    rw [Finset.coe_range, Set.mem_Iio] at hk hk'
    have hlen := congrArg List.length (Prod.mk.inj heq).2
    rw [List.length_take, List.length_take] at hlen
    omega
  rw [pathCells, Finset.filter_image, Finset.card_image_of_injOn fun k hk k' hk' =>
    hinj (Finset.mem_of_mem_filter k hk) (Finset.mem_of_mem_filter k' hk')]
  simp only [hpointer]
  rw [← Nat.count_eq_card_filter_range, needed]
  split
  · rename_i h0
    simp [h0, Nat.count_true]
  · rename_i h0
    exact missing_eq_count h0

theorem isCell_path {c : Cell} (hv : Valid t ip)
    (htype : (t.inode ip).type = T_FILE ∨ (t.inode ip).type = T_DIR) (hbn : bn < MAXFILE)
    (hc : c ∈ pathCells (t.inode ip).inum bn) : IsCell t data c := by
  obtain ⟨r, is⟩ := c
  obtain ⟨rfl, js, hjs⟩ := mem_pathCells.mp hc
  have hfull : IsCell t data ((blockCell (t.inode ip).inum bn).1, is ++ js) := by
    rw [hjs]
    exact isCell_block (by rwa [hv.current]) hv.lt hbn
  exact (prefixClosed t data).append hfull

theorem mem_holes {c : Cell} : c ∈ holes t data inum off n ↔
    (∃ x ∈ blocksOf off n, c ∈ pathCells inum x) ∧ pointer t data c = 0 := by
  rw [holes, Finset.mem_filter, Finset.mem_biUnion]

theorem blocksOf_lt (hmax : off + n ≤ MAXFILE * BSIZE) (hx : x ∈ blocksOf off n) : x < MAXFILE := by
  obtain ⟨i, hi, rfl⟩ := Finset.mem_image.mp hx
  rw [Finset.mem_Ico] at hi
  exact Nat.div_lt_of_lt_mul (by rw [Nat.mul_comm]; omega)

theorem mem_blocksOf (hn : 0 < n) : off / BSIZE ∈ blocksOf off n :=
  Finset.mem_image_of_mem _ (Finset.mem_Ico.mpr ⟨Nat.le_refl off, by omega⟩)

theorem blocksOf_subset (hm : m ≤ n) : blocksOf (off + m) (n - m) ⊆ blocksOf off n :=
  Finset.image_subset_image (Finset.Ico_subset_Ico (by omega) (by omega))

/-- The cells that `bmap` fills are among the empty ones. -/
theorem pathCells_subset (hbn : bn ∈ blocksOf off n) :
    (pathCells inum bn).filter (fun c => pointer t data c = 0) ⊆ holes t data inum off n := by
  intro c hc
  rw [Finset.mem_filter] at hc
  exact mem_holes.mpr ⟨⟨bn, hbn, hc.1⟩, hc.2⟩

theorem needed_le_holes (hv : Valid t ip) (hbn : bn ∈ blocksOf off n) :
    needed data (t.inode ip) bn ≤ (holes t data (t.inode ip).inum off n).card := by
  rw [needed_eq hv]
  exact Finset.card_le_card (pathCells_subset hbn)

/-- A block is filled, and the rest is left. -/
theorem card_holes (hv : Valid t ip) (hfill : Filled t data t' data' ip
      (blockCell (t.inode ip).inum bn) N b)
    (htype : (t.inode ip).type = T_FILE ∨ (t.inode ip).type = T_DIR)
    (hmax : off + n ≤ MAXFILE * BSIZE) (hbn : bn ∈ blocksOf off n) (hm : m ≤ n) :
    needed data (t.inode ip) bn + (holes t' data' (t.inode ip).inum (off + m) (n - m)).card ≤
      (holes t data (t.inode ip).inum off n).card := by
  have hrest : holes t' data' (t.inode ip).inum (off + m) (n - m) ⊆
      holes t data (t.inode ip).inum off n \
        (pathCells (t.inode ip).inum bn).filter (fun c => pointer t data c = 0) := by
    intro c hc
    obtain ⟨⟨x, hx, hpath⟩, h0⟩ := mem_holes.mp hc
    have hx' := blocksOf_subset hm hx
    have hzero : pointer t data c = 0 := by
      by_contra hne
      rw [hfill.mapped.old c (isCell_path hv htype (blocksOf_lt hmax hx') hpath) hne] at h0
      exact hne h0
    rw [Finset.mem_sdiff, mem_holes, Finset.mem_filter]
    refine ⟨⟨⟨x, hx', hpath⟩, hzero⟩, fun hin => ?_⟩
    -- The cells on the path to the block are filled now.
    obtain ⟨r, is⟩ := c
    obtain ⟨rfl, js, hjs⟩ := mem_pathCells.mp hin.1
    have hne : pointer t' data' ((blockCell (t.inode ip).inum bn).1, is ++ js) ≠ 0 := by
      rw [hjs]
      exact hfill.at_cell.trans_ne hfill.ne_zero
    exact value_prefix_ne_zero hne h0
  rw [needed_eq hv, ← Finset.card_sdiff_add_card_eq_card (pathCells_subset hbn)]
  have hle := Finset.card_le_card hrest
  omega

theorem SameTrees.holes_eq (h : SameTrees t data t' data') (hv : Valid t ip)
    (htype : (t.inode ip).type = T_FILE ∨ (t.inode ip).type = T_DIR)
    (hmax : off + n ≤ MAXFILE * BSIZE) :
    holes t' data' (t.inode ip).inum off n = holes t data (t.inode ip).inum off n := by
  ext c
  rw [mem_holes, mem_holes]
  refine and_congr_right fun ⟨x, hx, hc⟩ => ?_
  rw [h.pointers c (isCell_path hv htype (blocksOf_lt hmax hx) hc)]

/-! ### The bytes of a file -/

/-- The byte of a file at an offset, if there is a block for it. -/
def content (t : Mem) (data : Nat → Block) (inum i : Nat) : UInt8 :=
  (data (mapping t data inum (i / BSIZE))).get (i % BSIZE)

/-- The bytes `f off`, …, `f (off + n - 1)` have been written to the inode of `ip`. -/
structure Written (t : Mem) (data : Nat → Block) (t' : Mem) (data' : Nat → Block) (ip : Ip)
    (f : Nat → UInt8) (off n : Nat) : Prop where
  mem : ∃ a, t' = t.withAddrs ip a
  wellFormed : WellFormed t' data'
  cells : IsCell t' data' = IsCell t data
  old : ∀ c, IsCell t data c → pointer t data c ≠ 0 → pointer t' data' c = pointer t data c
  low : ∀ x, x < t.sb.bmapstart → data' x = data x
  other : ∀ c, IsCell t data c → c.1.1 ≠ (t.inode ip).inum → pointer t' data' c = pointer t data c ∧
    (pointer t data c ≠ 0 → data' (pointer t data c) = data (pointer t data c))
  keeps : ∀ i, i < MAXFILE * BSIZE → mapping t data (t.inode ip).inum (i / BSIZE) ≠ 0 →
    ¬ (off ≤ i ∧ i < off + n) →
      content t' data' (t.inode ip).inum i = content t data (t.inode ip).inum i
  writes : ∀ i, off ≤ i → i < off + n → mapping t' data' (t.inode ip).inum (i / BSIZE) ≠ 0 ∧
    content t' data' (t.inode ip).inum i = f i
  same : (∀ i, off ≤ i → i < off + n → mapping t data (t.inode ip).inum (i / BSIZE) ≠ 0) → t' = t

theorem withAddrs_inode (t : Mem) (ip : Ip) (a : Bytes ADDRSIZE) :
    (t.withAddrs ip a).inode ip = { t.inode ip with addrs := a } := Function.update_self ..

theorem Written.inode (h : Written t data t' data' ip f off n) :
    ∃ a, t'.inode ip = { t.inode ip with addrs := a } := by
  obtain ⟨a, rfl⟩ := h.mem
  exact ⟨a, withAddrs_inode t ip a⟩

theorem Written.sb_eq (h : Written t data t' data' ip f off n) : t'.sb = t.sb := by
  obtain ⟨a, rfl⟩ := h.mem
  rfl

theorem written_nothing (hwf : WellFormed t data) : Written t data t data ip f off 0 where
  mem := ⟨_, (withAddrs_self t ip).symm⟩
  wellFormed := hwf
  cells := rfl
  old := fun _ _ _ => rfl
  low := fun _ _ => rfl
  other := fun _ _ _ => ⟨rfl, fun _ => rfl⟩
  keeps := fun _ _ _ _ => rfl
  writes := fun i h1 h2 => absurd h2 (by omega)
  same := fun _ => rfl

theorem div_lt_MAXFILE (h : i < MAXFILE * BSIZE) : i / BSIZE < MAXFILE :=
  Nat.div_lt_of_lt_mul (by rwa [Nat.mul_comm])

/-- First some bytes are written, and then the ones behind them. -/
theorem Written.trans (hv : Valid t ip)
    (htype : (t.inode ip).type = T_FILE ∨ (t.inode ip).type = T_DIR)
    (h : Written t data t' data' ip f off m) (h' : Written t' data' t₂ data₂ ip f (off + m) n)
    (hmax : off + m + n ≤ MAXFILE * BSIZE) : Written t data t₂ data₂ ip f off (m + n) := by
  obtain ⟨a, ha⟩ := h.inode
  have hinum : (t'.inode ip).inum = (t.inode ip).inum := by rw [ha]
  have hsb := h.sb_eq
  have hcell : ∀ i, i < MAXFILE * BSIZE → IsCell t data (blockCell (t.inode ip).inum (i / BSIZE)) :=
    fun i hi => isCell_block (by rwa [hv.current]) hv.lt (div_lt_MAXFILE hi)
  refine ⟨?_, h'.wellFormed, h'.cells.trans h.cells, fun c hc hne => ?_, fun x hx => ?_,
    fun c hc hne => ?_, fun i hi hne hout => ?_, fun i h1 h2 => ?_, fun hall => ?_⟩
  · obtain ⟨a, rfl⟩ := h.mem
    obtain ⟨a', ha'⟩ := h'.mem
    exact ⟨a', by rw [ha', withAddrs_twice]⟩
  · have hold := h.old c hc hne
    rw [h'.old c (h.cells ▸ hc) (hold ▸ hne), hold]
  · rw [h'.low x (hsb ▸ hx), h.low x hx]
  · obtain ⟨hp, hd⟩ := h.other c hc hne
    obtain ⟨hp', hd'⟩ := h'.other c (h.cells ▸ hc) (hinum ▸ hne)
    rw [hp] at hp' hd'
    exact ⟨hp', fun h0 => (hd' h0).trans (hd h0)⟩
  · have hold : mapping t' data' (t.inode ip).inum (i / BSIZE) ≠ 0 := by
      rw [mapping, h.old _ (hcell i hi) hne]
      exact hne
    have hsecond := h'.keeps i hi (hinum ▸ hold) (by omega)
    rw [hinum] at hsecond
    rw [hsecond, h.keeps i hi hne (by omega)]
  · by_cases hfirst : i < off + m
    · obtain ⟨hne, hbyte⟩ := h.writes i h1 hfirst
      have hkeep := h'.keeps i (by omega) (hinum ▸ hne) (by omega)
      have hold := h'.old _ (h.cells ▸ hcell i (by omega)) hne
      rw [hinum] at hkeep
      exact ⟨hold.trans_ne hne, hkeep.trans hbyte⟩
    · have hlast := h'.writes i (by omega) (by omega)
      rwa [hinum] at hlast
  · have hfirst := h.same fun i h1 h2 => hall i h1 (by omega)
    have hpointer : ∀ i, off + m ≤ i → i < off + m + n →
        mapping t' data' (t'.inode ip).inum (i / BSIZE) ≠ 0 := fun i h1 h2 => by
      rw [hinum, mapping, h.old _ (hcell i (by omega)) (hall i (by omega) (by omega))]
      exact hall i (by omega) (by omega)
    exact (h'.same hpointer).trans hfirst

/-- A write to the block that `bmap` has returned leaves the trees. -/
theorem Filled.sameTrees (h : Filled t data t' data' ip (blockCell (t.inode ip).inum bn) N b)
    (hl : Layout S t.sb) (hv : Valid t ip)
    (htype : (t.inode ip).type = T_FILE ∨ (t.inode ip).type = T_DIR) (hbn : bn < MAXFILE) (d : Block) :
    SameTrees t' data' t' (Function.update data' b d) := by
  have hc : IsCell t data (blockCell (t.inode ip).inum bn) :=
    isCell_block (by rwa [hv.current]) hv.lt hbn
  have hb : mapping t' data' (t.inode ip).inum bn = b := h.at_cell
  have hstore := sameTrees_store (h.mapped.sb_eq ▸ hl) h.mapped.wellFormed hbn (h.mapped.cells ▸ hc)
    (hb.trans_ne h.ne_zero) d
  rwa [hb] at hstore

/-- The block `bn` is there now, and some of its bytes are written. -/
theorem Filled.written {g : Nat → UInt8} (h : Filled t data t' data' ip
      (blockCell (t.inode ip).inum (off / BSIZE)) N b) (hl : Layout S t.sb) (hv : Valid t ip)
    (htype : (t.inode ip).type = T_FILE ∨ (t.inode ip).type = T_DIR) (hbn : off / BSIZE < MAXFILE)
    (hm : off % BSIZE + m ≤ BSIZE) (hpos : 0 < m) (hg : ∀ i, i < m → g i = f (off + i)) :
    Written t data t' (Function.update data' b ((data' b).splice (off % BSIZE) m g)) ip f off m := by
  have hc : IsCell t data (blockCell (t.inode ip).inum (off / BSIZE)) :=
    isCell_block (by rwa [hv.current]) hv.lt hbn
  have hmap := h.mapped
  have hsb := hmap.sb_eq
  have hb : mapping t' data' (t.inode ip).inum (off / BSIZE) = b := h.at_cell
  have hstore := h.sameTrees hl hv htype hbn ((data' b).splice (off % BSIZE) m g)
  have hlow : t.sb.dataStart ≤ b := by
    have hblock := hmap.wellFormed.block _ (hmap.cells ▸ hc) (hb.trans_ne h.ne_zero)
    rw [hsb] at hblock
    exact hb ▸ hblock.1
  have hbmap := t.sb.bmapstart_lt
  -- The block belongs to no other cell.
  have hrest : ∀ c, IsCell t data c → pointer t data c ≠ 0 →
      c ≠ blockCell (t.inode ip).inum (off / BSIZE) →
      ¬ Above c (blockCell (t.inode ip).inum (off / BSIZE)) →
      Function.update data' b ((data' b).splice (off % BSIZE) m g) (pointer t data c) =
        data (pointer t data c) := fun c hc' hne hcn habove => by
    have hold := hmap.old c hc' hne
    have hnb : pointer t data c ≠ b := fun heq => by
      refine hcn (hmap.wellFormed.forest _ _ (hmap.cells ▸ hc') (hmap.cells ▸ hc) ?_ (hold.trans_ne hne))
      exact hold.trans (heq.trans h.at_cell.symm)
    rw [Function.update_of_ne hnb, hmap.content c hc' hne habove]
  have hmapping : ∀ bn', IsCell t data (blockCell (t.inode ip).inum bn') →
      mapping t data (t.inode ip).inum bn' ≠ 0 →
      mapping t' (Function.update data' b ((data' b).splice (off % BSIZE) m g)) (t.inode ip).inum bn' =
        mapping t data (t.inode ip).inum bn' := fun bn' hc' hne =>
    (hstore.pointers _ (hmap.cells ▸ hc')).trans (hmap.old _ hc' hne)
  have hself : mapping t' (Function.update data' b ((data' b).splice (off % BSIZE) m g))
      (t.inode ip).inum (off / BSIZE) = b := (hstore.pointers _ (hmap.cells ▸ hc)).trans hb
  refine ⟨hmap.mem, hstore.wellFormed hmap.wellFormed, hstore.cells.trans hmap.cells,
    fun c hc' hne => (hstore.pointers c (hmap.cells ▸ hc')).trans (hmap.old c hc' hne),
    fun x hx => ?_, fun c hc' hne => ?_, fun i hi hne hout => ?_, fun i h1 h2 => ?_, fun hall => ?_⟩
  · rw [Function.update_of_ne (by omega), hmap.low x hx]
  · refine ⟨(hstore.pointers c (hmap.cells ▸ hc')).trans ?_, fun h0 => hrest c hc' h0 ?_ ?_⟩
    · by_cases h0 : pointer t data c = 0
      · by_contra hne'
        rw [h0] at hne'
        exact hne (congrArg Prod.fst (hmap.new c hc' h0 hne').1.1)
      · exact hmap.old c hc' h0
    · rintro rfl
      exact hne rfl
    · exact fun habove => hne (congrArg Prod.fst habove.1.1)
  · have hc' : IsCell t data (blockCell (t.inode ip).inum (i / BSIZE)) :=
      isCell_block (by rwa [hv.current]) hv.lt (div_lt_MAXFILE hi)
    rw [content, content, hmapping _ hc' hne]
    by_cases heq : i / BSIZE = off / BSIZE
    · -- The other bytes of the block, which has been there before.
      rw [heq] at hne ⊢
      obtain ⟨rfl, rfl⟩ := h.same hne
      have hb' : mapping t' data' (t'.inode ip).inum (off / BSIZE) = b := h.at_cell
      rw [hb', Function.update_self]
      refine Bytes.get_splice_of_lt ?_
      simp only [BSIZE] at heq hm hout ⊢
      omega
    · refine congrArg (Bytes.get · (i % BSIZE)) (hrest _ hc' hne ?_ ?_)
      · intro hcell
        exact heq (onPath_block hbn (div_lt_MAXFILE hi) ⟨congrArg Prod.fst hcell, hcell ▸ List.prefix_refl _⟩).2
      · intro habove
        exact heq (onPath_block hbn (div_lt_MAXFILE hi) habove.1).2
  · have hplace : i / BSIZE = off / BSIZE ∧ i % BSIZE = off % BSIZE + (i - off) := by
      simp only [BSIZE] at hm ⊢
      omega
    rw [content, hplace.1, hplace.2, hself, Function.update_self]
    refine ⟨h.ne_zero, ?_⟩
    rw [Bytes.get_splice_self (by omega) (by omega), hg _ (by omega), Nat.add_sub_cancel' h1]
  · exact (h.same (hall off (Nat.le_refl off) (by omega))).1

/-! ### The size of a file -/

theorem cached_setEntry {q : Inode} (hinum : q.inum = (t.inode ip).inum) (href : q.ref = (t.inode ip).ref)
    (x : Nat) : cached (t.setEntry ip q) x = cached t x := by
  have hsame : (fun i => decide (0 < ((t.setEntry ip q).inode i).ref ∧
      ((t.setEntry ip q).inode i).inum = x)) =
      fun i => decide (0 < (t.inode i).ref ∧ (t.inode i).inum = x) := by
    funext i
    by_cases hi : i = ip
    · subst hi
      rw [setEntry_self, hinum, href]
    · rw [setEntry_other hi]
  rw [cached, cached, hsame]

theorem cached_inum {j : Ip} (h : cached t x = some j) : 0 < (t.inode j).ref ∧ (t.inode j).inum = x := by
  have hfound := List.find?_some h
  rwa [decide_eq_true_eq] at hfound

/-- Another inode does not notice that the entry `ip` has been changed and written to the disk. -/
theorem current_other {q : Inode} (hinum : q.inum = (t.inode ip).inum) (href : q.ref = (t.inode ip).ref)
    (hstored : stored t.sb data' x = stored t.sb data x) (hne : x ≠ (t.inode ip).inum) :
    ((t.setEntry ip q).current data' x).dinode = (t.current data x).dinode := by
  rw [Mem.current, Mem.current, cached_setEntry hinum href]
  cases hc : cached t x with
  | none => exact hstored
  | some j =>
    have hj : (t.inode j).inum = x := (cached_inum hc).2
    have hji : j ≠ ip := by
      rintro rfl
      exact hne hj.symm
    dsimp only
    rw [setEntry_other hji]
    split
    · rfl
    · rw [dinode_readDinode, dinode_readDinode, hj]
      exact hstored

theorem Valid.setEntry {q : Inode} (hv : Valid t ip) (hinum : q.inum = (t.inode ip).inum)
    (href : q.ref = (t.inode ip).ref) (hvalid : q.valid = true) : Valid (t.setEntry ip q) ip := by
  refine ⟨?_, by rw [setEntry_self]; exact hvalid, by rw [setEntry_self, hinum]; exact hv.lt⟩
  rw [setEntry_self, cached_setEntry hinum href, hinum]
  exact hv.cached

/-- A new size that is written to the disk leaves the trees. -/
theorem sameTrees_size {q : Inode} (hl : Layout S t.sb) (hwf : WellFormed t data) (hv : Valid t ip)
    (hinum : q.inum = (t.inode ip).inum) (href : q.ref = (t.inode ip).ref) (hvalid : q.valid = true)
    (htype : q.type = (t.inode ip).type) (haddrs : q.addrs = (t.inode ip).addrs)
    (hstored : ∀ x, x ≠ (t.inode ip).inum → stored t.sb data' x = stored t.sb data x)
    (hblocks : ∀ x, x ≠ iblock t.sb (t.inode ip).inum → data' x = data x) :
    SameTrees t data (t.setEntry ip q) data' := by
  have hlow := iblock_lt hl hv.lt
  have hbmap := t.sb.bmapstart_lt
  refine sameTrees rfl (fun x hx => ?_) (fun c i hc hne => ?_) fun x hx => ?_
  · by_cases hself : x = (t.inode ip).inum
    · subst hself
      have hq : (t.setEntry ip q).current data' (t.inode ip).inum = q := by
        have hvq := hv.setEntry hinum href hvalid
        have hcur : (t.setEntry ip q).current data' ((t.setEntry ip q).inode ip).inum =
            (t.setEntry ip q).inode ip := hvq.current
        rwa [setEntry_self, hinum] at hcur
      rw [hq, hv.current]
      exact ⟨htype, haddrs⟩
    · have hother := current_other hinum href (hstored x hself) hself
      exact ⟨congrArg Dinode.type hother, congrArg Dinode.addrs hother⟩
  · have hblock := (hwf.block c (prefixClosed t data c.1 c.2 i hc) hne).1
    exact hblocks _ (by omega)
  · refine used_congr (hblocks _ ?_)
    have hbits := (bblock_lt hx).1
    omega

/-! ### `writei` -/

section Programs

variable [DecidablePred S]

/-- The loop of `writei` writes the bytes, if there are blocks for the empty cells. -/
theorem wp_writeLoop {src : Nat → UInt8} {k tot : Nat} (hl : Layout S t.sb) (hv : Valid t ip)
    (hwf : WellFormed t data) (htype : (t.inode ip).type = T_FILE ∨ (t.inode ip).type = T_DIR)
    (hmax : off + n ≤ MAXFILE * BSIZE) (hk : n ≠ 0 → off % BSIZE + n ≤ k * BSIZE)
    (hsrc : ∀ i, i < n → src (tot + i) = f (off + i))
    (hfree : (holes t data (t.inode ip).inum off n).card ≤ freeBlocks t.sb data) :
    wp ((writeLoop ip src k tot off n).run (array S)) (fun _ s => ∃ t' data', s = (t', ⟨data', []⟩) ∧
      Written t data t' data' ip f off n) (fun _ _ => False) (t, ⟨data, []⟩) := by
  induction k generalizing t data tot off n with
  | zero =>
    have hn : n = 0 := by omega
    subst hn
    exact ⟨t, data, rfl, written_nothing hwf⟩
  | succ k ih =>
    rw [writeLoop]
    by_cases hn : n = 0
    · subst hn
      rw [if_pos rfl]
      exact ⟨t, data, rfl, written_nothing hwf⟩
    rw [if_neg hn, wp_run_bind]
    have hblock : off / BSIZE ∈ blocksOf off n := mem_blocksOf (Nat.pos_of_ne_zero hn)
    have hbn := blocksOf_lt hmax hblock
    have hneeded : needed data (t.inode ip) (off / BSIZE) ≤ (holes t data (t.inode ip).inum off n).card :=
      needed_le_holes hv hblock
    have hbmap := wp_bmap (N := (holes t data (t.inode ip).inum off n).card -
      needed data (t.inode ip) (off / BSIZE)) hl hv hwf htype hbn (by omega)
    refine wp_mono hbmap ?_ fun _ _ he => he
    rintro b _ ⟨t', data', rfl, hfill⟩
    have hmap := hfill.mapped
    have hsb := hmap.sb_eq
    have hc : IsCell t data (blockCell (t.inode ip).inum (off / BSIZE)) :=
      isCell_block (by rwa [hv.current]) hv.lt hbn
    have hblk := hmap.wellFormed.block _ (hmap.cells ▸ hc) (hfill.at_cell.trans_ne hfill.ne_zero)
    rw [hfill.at_cell, hsb] at hblk
    have hS : S b := hl.offers b (by have := hl.le; have := t.sb.bmapstart_lt; omega) (.inr hblk.2.1)
    rw [wp_run_bind]
    refine (Flat.wp_bread hS List.not_mem_nil).mpr ?_
    rw [wp_run_bind]
    refine (Flat.wp_store List.mem_cons_self).mpr ?_
    rw [wp_run_bind]
    refine (Flat.wp_brelse List.not_mem_nil).mpr ?_
    obtain ⟨m, hm⟩ : ∃ m, m = min n (BSIZE - off % BSIZE) := ⟨_, rfl⟩
    rw [← hm]
    have hround : m ≤ n ∧ off % BSIZE + m ≤ BSIZE ∧ 0 < m := by
      have hmod := Nat.mod_lt off (show 0 < BSIZE by decide)
      omega
    have hwritten := hfill.written (f := f) (g := fun i => src (tot + i)) hl hv htype hbn hround.2.1
      hround.2.2 fun i hi => hsrc i (by omega)
    have hsame := hfill.sameTrees hl hv htype hbn
      ((data' b).splice (off % BSIZE) m fun i => src (tot + i))
    generalize Function.update data' b ((data' b).splice (off % BSIZE) m fun i => src (tot + i)) =
      data₁ at hwritten hsame ⊢
    obtain ⟨a, ha⟩ := hwritten.inode
    have hinum : (t'.inode ip).inum = (t.inode ip).inum := by rw [ha]
    have htype' : (t'.inode ip).type = T_FILE ∨ (t'.inode ip).type = T_DIR := by rwa [ha]
    have hv' : Valid t' ip := by
      obtain ⟨a, rfl⟩ := hwritten.mem
      exact hv.withAddrs a
    -- The rest starts at a block, or there is no rest.
    have hrest : n - m ≠ 0 → (off + m) % BSIZE + (n - m) ≤ k * BSIZE := by
      intro hmore
      have hfull : off % BSIZE + m = BSIZE := by omega
      have hzero : (off + m) % BSIZE = 0 := by
        simp only [BSIZE] at hfull ⊢
        omega
      have hk' := hk hn
      rw [Nat.add_mul, Nat.one_mul] at hk'
      omega
    have hfree' : (holes t' data₁ (t'.inode ip).inum (off + m) (n - m)).card ≤
        freeBlocks t'.sb data₁ := by
      have hcard := card_holes hv hfill htype hmax hblock hround.1
      have hspare := hfill.free
      have hcount := freeBlocks_congr fun x hx => hsame.bits x hx
      rw [hsame.holes_eq hv' htype' (by omega), hinum, hcount, hsb]
      omega
    refine wp_mono (ih (hsb ▸ hl) hv' hwritten.wellFormed htype' (by omega) hrest (fun i hi => ?_) hfree')
      ?_ fun _ _ he => he
    · rw [Nat.add_assoc, hsrc _ (by omega), Nat.add_assoc]
    · rintro _ _ ⟨t₂, data₂, rfl, hlast⟩
      have hall := hwritten.trans hv htype hlast (by omega)
      rw [Nat.add_sub_cancel' hround.1] at hall
      exact ⟨t₂, data₂, rfl, hall⟩

end Programs

end Xv6.File
