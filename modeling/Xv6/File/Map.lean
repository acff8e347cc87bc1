import Xv6.File.Cells

namespace Xv6.File

open Xv6.Lib
open Xv6.Fs (Block BSIZE Stop)

/-!
# Files — `bmap`

* `place` — the cell of the block tree for a block of a file;
* `bmap_eq` — `bmap` goes down the path to this cell;
* `wp_mapAddr`, `wp_mapEntry`, `wp_mapPath` — it fills the cells on the path;
* `bmap_maps` — `bmap` as a map from the blocks of the files to the blocks of the disk.
-/

variable {S : Nat → Prop} {data : Nat → Block} {t : Mem} {ip : Ip}
  {bn i slot N : Nat} {is js : List Nat} {r : Nat × Nat} {E : Stop → Mem × Flat Block → Prop}

/-! ### The cell of a block -/

/-- The index into `addrs`, and the indices into the pointer blocks, for the block `bn`. -/
def place (bn : Nat) : Nat × List Nat :=
  if bn < NDIRECT then (bn, [])
  else if bn - NDIRECT < NINDIRECT then (NDIRECT, [bn - NDIRECT])
  else if bn - NDIRECT - NINDIRECT < DINDIRECT then
    (NDIRECT + 1, [(bn - NDIRECT - NINDIRECT) / NINDIRECT, (bn - NDIRECT - NINDIRECT) % NINDIRECT])
  else
    (NDIRECT + 2, [(bn - NDIRECT - NINDIRECT - DINDIRECT) / (NINDIRECT * NINDIRECT),
      (bn - NDIRECT - NINDIRECT - DINDIRECT) / NINDIRECT % NINDIRECT,
      (bn - NDIRECT - NINDIRECT - DINDIRECT) % NINDIRECT])

theorem NINDIRECT_eq : NINDIRECT = 128 := rfl

theorem DINDIRECT_eq : DINDIRECT = 16384 := rfl

theorem MAXFILE_eq : MAXFILE = 2113674 := rfl

/-- The four ranges of block numbers. -/
theorem place_cases (h : bn < MAXFILE) :
    (bn < NDIRECT ∧ place bn = (bn, [])) ∨
    (∃ a, a < NINDIRECT ∧ bn = NDIRECT + a ∧ place bn = (NDIRECT, [a])) ∨
    (∃ a b, a < NINDIRECT ∧ b < NINDIRECT ∧ bn = NDIRECT + NINDIRECT + (a * NINDIRECT + b) ∧
      place bn = (NDIRECT + 1, [a, b])) ∨
    (∃ a b c, a < NINDIRECT ∧ b < NINDIRECT ∧ c < NINDIRECT ∧
      bn = NDIRECT + NINDIRECT + DINDIRECT + ((a * NINDIRECT + b) * NINDIRECT + c) ∧
      place bn = (NDIRECT + 2, [a, b, c])) := by
  rw [MAXFILE_eq] at h
  unfold place
  rw [NINDIRECT_eq, DINDIRECT_eq, NDIRECT]
  by_cases h₁ : bn < 10
  · rw [if_pos h₁]
    exact .inl ⟨h₁, rfl⟩
  rw [if_neg h₁]
  by_cases h₂ : bn - 10 < 128
  · rw [if_pos h₂]
    exact .inr (.inl ⟨bn - 10, h₂, by omega, rfl⟩)
  rw [if_neg h₂]
  by_cases h₃ : bn - 10 - 128 < 16384
  · rw [if_pos h₃]
    exact .inr (.inr (.inl ⟨_, _, by omega, by omega, by omega, rfl⟩))
  rw [if_neg h₃]
  exact .inr (.inr (.inr ⟨_, _, _, by omega, by omega, by omega, by omega, rfl⟩))

/-- The cell is a leaf of the tree, and all indices are inside the blocks. -/
theorem place_leaf (h : bn < MAXFILE) : (place bn).1 < NDIRECT + 3 ∧
    (place bn).2.length = height (place bn).1 ∧ ∀ i ∈ (place bn).2, i < NINDIRECT := by
  rcases place_cases h with ⟨h₁, hp⟩ | ⟨a, ha, -, hp⟩ | ⟨a, b, ha, hb, -, hp⟩ |
      ⟨a, b, c, ha, hb, hc, -, hp⟩
  · rw [hp, height]
    exact ⟨by omega, by simp only [List.length_nil]; omega, nofun⟩
  · rw [hp]
    exact ⟨by omega, rfl, by simpa using ha⟩
  · rw [hp]
    exact ⟨by omega, rfl, by simp [ha, hb]⟩
  · rw [hp]
    exact ⟨by omega, rfl, by simp [ha, hb, hc]⟩

/-- Different blocks of a file have different cells. -/
theorem place_inj {bn' : Nat} (h : bn < MAXFILE) (h' : bn' < MAXFILE) (heq : place bn = place bn') :
    bn = bn' := by
  rcases place_cases h with ⟨h₁, hp⟩ | ⟨a, ha, rfl, hp⟩ | ⟨a, b, ha, hb, rfl, hp⟩ |
      ⟨a, b, c, ha, hb, hc, rfl, hp⟩ <;>
    rcases place_cases h' with ⟨h₁', hp'⟩ | ⟨a', ha', rfl, hp'⟩ | ⟨a', b', ha', hb', rfl, hp'⟩ |
      ⟨a', b', c', ha', hb', hc', rfl, hp'⟩ <;>
    rw [hp, hp'] at heq <;> simp at heq <;> simp [heq]

/-- `bmap` goes down the path to the cell of the block. -/
theorem bmap_eq (h : bn < MAXFILE) :
    bmap ip bn = mapAddr ip (place bn).1 >>= fun addr => (place bn).2.foldlM mapEntry addr := by
  rw [MAXFILE_eq] at h
  have hout : bn - NDIRECT - NINDIRECT - DINDIRECT < TINDIRECT := by
    rw [NINDIRECT_eq, DINDIRECT_eq, NDIRECT, TINDIRECT]
    omega
  unfold bmap place
  by_cases h₁ : bn < NDIRECT
  · rw [if_pos h₁, if_pos h₁]
    exact (Prog.bind_pure _).symm
  rw [if_neg h₁, if_neg h₁]
  dsimp only
  by_cases h₂ : bn - NDIRECT < NINDIRECT
  · rw [if_pos h₂, if_pos h₂]
    simp only [List.foldlM_cons, List.foldlM_nil, Prog.bind_pure]
  rw [if_neg h₂, if_neg h₂]
  by_cases h₃ : bn - NDIRECT - NINDIRECT < DINDIRECT
  · rw [if_pos h₃, if_pos h₃]
    simp only [List.foldlM_cons, List.foldlM_nil, Prog.bind_pure]
  rw [if_neg h₃, if_neg h₃, if_pos hout]
  simp only [List.foldlM_cons, List.foldlM_nil, Prog.bind_pure]

/-! ### One cell -/

/-- The cells on the path to `c` have been filled, `b` is the block in `c`, and `N` blocks are still
    free. -/
structure Filled (t : Mem) (data : Nat → Block) (t' : Mem) (data' : Nat → Block) (ip : Ip) (c : Cell)
    (N b : Nat) : Prop where
  mapped : Mapped t data t' data' ip c
  at_cell : pointer t' data' c = b
  ne_zero : b ≠ 0
  same : pointer t data c ≠ 0 → t' = t ∧ data' = data
  free : N ≤ freeBlocks t.sb data'

/-- The program returns the block in the cell `c`, with the cells on the path to it filled. -/
def Fills (m : FsM Nat) (S : Nat → Prop) [DecidablePred S] (t : Mem) (data : Nat → Block) (ip : Ip)
    (c : Cell) (N : Nat) : Prop :=
  wp (m.run (array S)) (fun b s => ∃ t' data', s = (t', ⟨data', []⟩) ∧
    Filled t data t' data' ip c N b) (fun _ _ => False) (t, ⟨data, []⟩)

/-- A cell that holds a block. -/
theorem filled_refl {c : Cell} (hwf : WellFormed t data) (hne : pointer t data c ≠ 0)
    (hfree : N ≤ freeBlocks t.sb data) : Filled t data t data ip c N (pointer t data c) :=
  ⟨.refl hwf c, rfl, hne, fun _ => ⟨rfl, rfl⟩, hfree⟩

/-- A cell into which a free block has been put. -/
theorem Grown.filled {t' : Mem} {data' : Nat → Block} {g : Cell} {b : Nat}
    (h : Grown t data t' data' ip g b) (hl : Layout S t.sb) (hv : Valid t ip)
    (hwf : WellFormed t data) (hg : IsCell t data g) (hfree : N + 1 ≤ freeBlocks t.sb data)
    (hcount : freeBlocks t.sb data' + 1 = freeBlocks t.sb data) :
    Filled t data t' data' ip g N b := by
  refine ⟨h.mapped hl hv hwf hg, ?_, h.graft.ne_zero, fun hne => absurd h.graft.empty hne, by omega⟩
  rw [h.pointer_eq hg, if_pos rfl]

/-- The number of free blocks depends only on the bits. -/
theorem freeBlocks_congr {sb : Superblock} {data' : Nat → Block}
    (h : ∀ x, x < sb.size → used sb data' x = used sb data x) :
    freeBlocks sb data' = freeBlocks sb data := by
  rw [freeBlocks, freeBlocks]
  congr 1
  refine Finset.filter_congr fun x hx => ?_
  rw [h x (Finset.mem_range.mp hx)]

variable [DecidablePred S]

/-- `mapAddr` fills a cell in `addrs`. -/
theorem wp_mapAddr (hl : Layout S t.sb) (hv : Valid t ip) (hwf : WellFormed t data)
    (hc : IsCell t data (((t.inode ip).inum, slot), []))
    (hfree : (if (t.inode ip).addr slot = 0 then 1 else 0) + N ≤ freeBlocks t.sb data) :
    Fills (mapAddr ip slot) S t data ip (((t.inode ip).inum, slot), []) N := by
  have hroot : pointer t data (((t.inode ip).inum, slot), []) = (t.inode ip).addr slot := by
    rw [pointer, value_nil, root, hv.current]
  unfold Fills mapAddr inodeOf
  simp only [wp_run_bind, wp_run_get, wp_run_pure]
  by_cases hempty : (t.inode ip).addr slot = 0
  · rw [if_pos hempty] at hfree ⊢
    rw [wp_run_bind]
    refine wp_mono (wp_balloc hl hwf.metaUsed (List.forall_mem_nil _) (by omega)) ?_ fun _ _ he => he
    rintro b _ ⟨hb, rfl⟩
    rw [setInode, wp_run_bind, wp_run_modify, wp_run_pure]
    have hcount := freeBlocks_allocate hb.2.1 hb.1 hb.2.2
    exact ⟨_, _, rfl, (grown_root hl hv hwf hc.slot hempty hb).filled hl hv hwf hc (by omega) hcount⟩
  · rw [if_neg hempty] at hfree ⊢
    rw [wp_run_pure]
    refine ⟨t, data, rfl, ?_⟩
    rw [← hroot]
    exact filled_refl hwf (hroot ▸ hempty) (by omega)

/-- `mapEntry` fills a cell in a pointer block. -/
theorem wp_mapEntry (hl : Layout S t.sb) (hv : Valid t ip) (hwf : WellFormed t data)
    (hc : IsCell t data (r, is ++ [i])) (hne : pointer t data (r, is) ≠ 0)
    (hfree : (if pointer t data (r, is ++ [i]) = 0 then 1 else 0) + N ≤ freeBlocks t.sb data) :
    Fills (mapEntry (pointer t data (r, is)) i) S t data ip (r, is ++ [i]) N := by
  have hparent := prefixClosed t data r is i hc
  obtain ⟨hlow, hlt, hused⟩ := hwf.block _ hparent hne
  have hbmap := t.sb.bmapstart_lt
  have hle := hl.le
  have hS : S (pointer t data (r, is)) := hl.offers _ (by omega) (.inr hlt)
  have hcell : pointer t data (r, is ++ [i]) = entry (data (pointer t data (r, is))) i :=
    value_concat hne
  rw [hcell] at hfree
  unfold Fills mapEntry
  rw [wp_run_bind]
  refine (Flat.wp_bread hS (List.not_mem_nil)).mpr ?_
  by_cases hempty : entry (data (pointer t data (r, is))) i = 0
  · rw [if_pos hempty] at hfree ⊢
    rw [wp_run_bind]
    refine wp_mono (wp_balloc hl hwf.metaUsed ?_ (by omega)) ?_ fun _ _ he => he
    · intro x hx
      rw [List.mem_singleton] at hx
      subst hx
      exact ⟨hlow, hlt, hused⟩
    rintro b _ ⟨hb, rfl⟩
    rw [wp_run_bind]
    refine (Flat.wp_store List.mem_cons_self).mpr ?_
    rw [wp_run_bind]
    refine (Flat.wp_brelse List.not_mem_nil).mpr ?_
    rw [wp_run_pure]
    have hgrown : Grown t data t _ ip _ b := grown_entry hl hwf hc hne hempty hb
    have hcount := freeBlocks_allocate hb.2.1 hb.1 hb.2.2
    have hsame := freeBlocks_congr fun x hx => (hgrown.used x hx).trans (used_allocate hx hb.1).symm
    exact ⟨_, _, rfl, hgrown.filled hl hv hwf hc (by omega) (hsame.symm ▸ hcount)⟩
  · rw [if_neg hempty] at hfree ⊢
    rw [wp_run_bind]
    refine (Flat.wp_brelse List.not_mem_nil).mpr ?_
    rw [wp_run_pure]
    refine ⟨t, data, rfl, ?_⟩
    rw [← hcell]
    exact filled_refl hwf (hcell ▸ hempty) (by omega)

/-! ### A path -/

/-- First the cell `c₁` is filled, and then the cell `c₂` below it. -/
theorem Filled.trans {t' t₂ : Mem} {data' data₂ : Nat → Block} {c₁ c₂ : Cell} {N₁ b b₂ : Nat}
    (h : Filled t data t' data' ip c₁ N₁ b) (h' : Filled t' data' t₂ data₂ ip c₂ N b₂)
    (hpath : OnPath c₁ c₂) : Filled t data t₂ data₂ ip c₂ N b₂ := by
  refine ⟨h.mapped.trans h'.mapped hpath, h'.at_cell, h'.ne_zero, fun hne => ?_, ?_⟩
  · obtain ⟨r, is⟩ := c₁
    obtain ⟨r', is'⟩ := c₂
    obtain ⟨rfl, js, rfl⟩ : r = r' ∧ ∃ js, is ++ js = is' := hpath
    obtain ⟨rfl, rfl⟩ := h.same (value_prefix_ne_zero hne)
    exact h'.same hne
  · rw [← h.mapped.sb_eq]
    exact h'.free

/-- The pointer blocks on a path are filled one after the other. -/
theorem wp_mapPath (hl : Layout S t.sb) (hv : Valid t ip) (hwf : WellFormed t data)
    (hc : IsCell t data (r, is ++ js)) (hne : pointer t data (r, is) ≠ 0)
    (hfree : missing (entries data) (pointer t data (r, is)) js + N ≤ freeBlocks t.sb data) :
    Fills (js.foldlM mapEntry (pointer t data (r, is))) S t data ip (r, is ++ js) N := by
  induction js generalizing is t data with
  | nil =>
    rw [List.append_nil] at hc ⊢
    rw [missing] at hfree
    exact ⟨t, data, rfl, filled_refl hwf hne (by omega)⟩
  | cons j js ih =>
    have happend : is ++ j :: js = is ++ [j] ++ js := by simp
    rw [happend] at hc ⊢
    have hcell := (prefixClosed t data).append hc
    have hnext : pointer t data (r, is ++ [j]) = entries data (pointer t data (r, is)) j :=
      value_concat hne
    rw [missing, ← hnext] at hfree
    unfold Fills
    rw [List.foldlM_cons, wp_run_bind]
    have hfirst : Fills (mapEntry (pointer t data (r, is)) j) S t data ip (r, is ++ [j])
        ((if pointer t data (r, is ++ [j]) = 0 then js.length
          else missing (entries data) (pointer t data (r, is ++ [j])) js) + N) := by
      refine wp_mapEntry hl hv hwf hcell hne ?_
      by_cases h0 : pointer t data (r, is ++ [j]) = 0
      · simp only [if_pos h0] at hfree ⊢
        omega
      · simp only [if_neg h0] at hfree ⊢
        omega
    refine wp_mono hfirst ?_ fun _ _ he => he
    rintro b _ ⟨t', data', rfl, hfill⟩
    have hsb := hfill.mapped.sb_eq
    have hv' : Valid t' ip := by
      obtain ⟨a, rfl⟩ := hfill.mapped.mem
      exact hv.withAddrs a
    have hfree' : missing (entries data') (pointer t' data' (r, is ++ [j])) js + N ≤
        freeBlocks t'.sb data' := by
      have hspare := hfill.free
      rw [hsb]
      by_cases h0 : pointer t data (r, is ++ [j]) = 0
      · rw [if_pos h0] at hspare
        have hle : missing (entries data') (pointer t' data' (r, is ++ [j])) js ≤ js.length :=
          missing_le
        omega
      · rw [if_neg h0] at hspare
        obtain ⟨rfl, rfl⟩ := hfill.same h0
        exact hspare
    have hrest := ih (hsb ▸ hl) hv' hfill.mapped.wellFormed (hfill.mapped.cells ▸ hc)
      (hfill.at_cell ▸ hfill.ne_zero) hfree'
    rw [hfill.at_cell] at hrest
    refine wp_mono hrest ?_ fun _ _ he => he
    rintro b₂ _ ⟨t₂, data₂, rfl, hfill₂⟩
    exact ⟨t₂, data₂, rfl, hfill.trans hfill₂ ⟨rfl, List.prefix_append ..⟩⟩

/-! ### `bmap` -/

/-- The cell for the block `bn` of an inode. -/
def blockCell (inum bn : Nat) : Cell := ((inum, (place bn).1), (place bn).2)

/-- The block of the disk for the block `bn` of an inode, or 0. -/
def mapping (t : Mem) (data : Nat → Block) (inum bn : Nat) : Nat := pointer t data (blockCell inum bn)

/-- The number of blocks that `bmap` allocates. -/
def needed (data : Nat → Block) (q : Inode) (bn : Nat) : Nat :=
  if q.addr (place bn).1 = 0 then (place bn).2.length + 1
  else missing (entries data) (q.addr (place bn).1) (place bn).2

theorem isCell_block {inum : Nat}
    (htype : (t.current data inum).type = T_FILE ∨ (t.current data inum).type = T_DIR)
    (hinum : inum < t.sb.ninodes) (h : bn < MAXFILE) : IsCell t data (blockCell inum bn) := by
  obtain ⟨hslot, hdepth, hpath⟩ := place_leaf h
  exact ⟨htype, hinum, hslot, hdepth.le, hpath⟩

/-- `bmap` fills the cell of the block. -/
theorem wp_bmap (hl : Layout S t.sb) (hv : Valid t ip) (hwf : WellFormed t data)
    (htype : (t.inode ip).type = T_FILE ∨ (t.inode ip).type = T_DIR) (h : bn < MAXFILE)
    (hfree : needed data (t.inode ip) bn + N ≤ freeBlocks t.sb data) :
    Fills (bmap ip bn) S t data ip (blockCell (t.inode ip).inum bn) N := by
  have hc : IsCell t data (blockCell (t.inode ip).inum bn) :=
    isCell_block (by rwa [hv.current]) hv.lt h
  have hroot : pointer t data (((t.inode ip).inum, (place bn).1), []) =
      (t.inode ip).addr (place bn).1 := by
    rw [pointer, value_nil, root, hv.current]
  have hc₀ : IsCell t data (((t.inode ip).inum, (place bn).1), []) :=
    (prefixClosed t data).append (by rw [List.nil_append]; exact hc)
  unfold Fills
  rw [bmap_eq h, wp_run_bind]
  have hfirst : Fills (mapAddr ip (place bn).1) S t data ip (((t.inode ip).inum, (place bn).1), [])
      ((if (t.inode ip).addr (place bn).1 = 0 then (place bn).2.length
        else missing (entries data) ((t.inode ip).addr (place bn).1) (place bn).2) + N) := by
    refine wp_mapAddr hl hv hwf hc₀ ?_
    unfold needed at hfree
    by_cases h0 : (t.inode ip).addr (place bn).1 = 0
    · simp only [if_pos h0] at hfree ⊢
      omega
    · simp only [if_neg h0] at hfree ⊢
      omega
  refine wp_mono hfirst ?_ fun _ _ he => he
  rintro b _ ⟨t', data', rfl, hfill⟩
  have hsb := hfill.mapped.sb_eq
  have hv' : Valid t' ip := by
    obtain ⟨a, rfl⟩ := hfill.mapped.mem
    exact hv.withAddrs a
  have hfree' : missing (entries data')
      (pointer t' data' (((t.inode ip).inum, (place bn).1), [])) (place bn).2 + N ≤
        freeBlocks t'.sb data' := by
    have hspare := hfill.free
    rw [hsb]
    by_cases h0 : (t.inode ip).addr (place bn).1 = 0
    · rw [if_pos h0] at hspare
      have hle : missing (entries data')
          (pointer t' data' (((t.inode ip).inum, (place bn).1), [])) (place bn).2 ≤
            (place bn).2.length := missing_le
      omega
    · rw [if_neg h0, ← hroot] at hspare
      obtain ⟨rfl, rfl⟩ := hfill.same (hroot ▸ h0)
      exact hspare
  have hrest := wp_mapPath (hsb ▸ hl) hv' hfill.mapped.wellFormed
    (by rw [hfill.mapped.cells, List.nil_append]; exact hc) (hfill.at_cell ▸ hfill.ne_zero) hfree'
  rw [hfill.at_cell] at hrest
  refine wp_mono hrest ?_ fun _ _ he => he
  rintro b₂ _ ⟨t₂, data₂, rfl, hfill₂⟩
  exact ⟨t₂, data₂, rfl, hfill.trans hfill₂ ⟨rfl, List.nil_prefix⟩⟩

/-- A block that is mapped is mapped without a new block. -/
theorem needed_eq_zero (hv : Valid t ip) :
    needed data (t.inode ip) bn = 0 ↔ mapping t data (t.inode ip).inum bn ≠ 0 := by
  have hroot : root t data ((t.inode ip).inum, (place bn).1) = (t.inode ip).addr (place bn).1 := by
    rw [root, hv.current]
  have hmapping : mapping t data (t.inode ip).inum bn =
      follow (entries data) ((t.inode ip).addr (place bn).1) (place bn).2 := by
    rw [← hroot]
    rfl
  rw [hmapping, needed]
  split
  · rename_i h0
    simp [h0]
  · rename_i h0
    exact missing_eq_zero h0

/-- Two blocks of files are never in the same block of the disk. -/
theorem mapping_inj (hwf : WellFormed t data) {inum inum' bn' : Nat} (h : bn < MAXFILE)
    (h' : bn' < MAXFILE) (hc : IsCell t data (blockCell inum bn))
    (hc' : IsCell t data (blockCell inum' bn')) (hne : mapping t data inum bn ≠ 0)
    (heq : mapping t data inum bn = mapping t data inum' bn') : inum = inum' ∧ bn = bn' := by
  have hcell := hwf.forest _ _ hc hc' heq hne
  obtain ⟨hr, hpath⟩ := Prod.mk.inj hcell
  obtain ⟨hinum, hslot⟩ := Prod.mk.inj hr
  exact ⟨hinum, place_inj h h' (Prod.ext hslot hpath)⟩

/-- Of the cells on a path to a block, only the last one is the cell of a block. -/
theorem onPath_block {inum inum' bn' : Nat} (h : bn < MAXFILE) (h' : bn' < MAXFILE)
    (hpath : OnPath (blockCell inum' bn') (blockCell inum bn)) : inum' = inum ∧ bn' = bn := by
  obtain ⟨hr, hpre⟩ := hpath
  obtain ⟨hinum, hslot⟩ := Prod.mk.inj hr
  have hlen : (place bn').2.length = (place bn).2.length := by
    rw [(place_leaf h').2.1, (place_leaf h).2.1, hslot]
  exact ⟨hinum, place_inj h' h (Prod.ext hslot (hpre.eq_of_length hlen))⟩

/-- The file system `t'`, `data'` behind a call of `bmap(ip, bn)` that has returned `b`. -/
structure MapsTo (t : Mem) (data : Nat → Block) (t' : Mem) (data' : Nat → Block) (ip : Ip) (bn b : Nat) :
    Prop where
  block : t.sb.dataStart ≤ b ∧ b < t.sb.size
  wellFormed : WellFormed t' data'
  maps : mapping t' data' (t.inode ip).inum bn = b
  cells : IsCell t' data' = IsCell t data
  other : ∀ inum bn', bn' < MAXFILE → IsCell t data (blockCell inum bn') →
    (inum, bn') ≠ ((t.inode ip).inum, bn) → mapping t' data' inum bn' = mapping t data inum bn'
  distinct : ∀ inum inum' bn₁ bn₂, bn₁ < MAXFILE → bn₂ < MAXFILE → IsCell t' data' (blockCell inum bn₁) →
    IsCell t' data' (blockCell inum' bn₂) → mapping t' data' inum bn₁ ≠ 0 →
    mapping t' data' inum bn₁ = mapping t' data' inum' bn₂ → inum = inum' ∧ bn₁ = bn₂
  same : mapping t data (t.inode ip).inum bn ≠ 0 →
    mapping t data (t.inode ip).inum bn = b ∧ t' = t ∧ data' = data
  keeps : ∀ x, x < t.sb.size → used t.sb data x = true → used t.sb data' x = true
  takes : ∀ x, x < t.sb.size → used t.sb data x = false → used t.sb data' x = true →
    ∃ c, OnPath c (blockCell (t.inode ip).inum bn) ∧ pointer t data c = 0 ∧ pointer t' data' c = x
  new : ∀ c, IsCell t data c → pointer t data c = 0 → pointer t' data' c ≠ 0 →
    used t.sb data (pointer t' data' c) = false

/-- `bmap` is an injective, stable and growing map: with enough free blocks it returns a block, with
    indices inside the pointer blocks, and it returns the same block again. -/
theorem bmap_maps (hl : Layout S t.sb) (hv : Valid t ip) (hwf : WellFormed t data)
    (htype : (t.inode ip).type = T_FILE ∨ (t.inode ip).type = T_DIR) (h : bn < MAXFILE)
    (hfree : needed data (t.inode ip) bn ≤ freeBlocks t.sb data) :
    (bmap ip bn = mapAddr ip (place bn).1 >>= (fun addr => (place bn).2.foldlM mapEntry addr)) ∧
    (∀ i ∈ (place bn).2, i < NINDIRECT) ∧
    ∃ b t' data', (bmap ip bn).run (array S) (t, ⟨data, []⟩) = .ok b (t', ⟨data', []⟩) ∧
      MapsTo t data t' data' ip bn b ∧
      (bmap ip bn).run (array S) (t', ⟨data', []⟩) = .ok b (t', ⟨data', []⟩) := by
  refine ⟨bmap_eq h, (place_leaf h).2.2, ?_⟩
  have hc : IsCell t data (blockCell (t.inode ip).inum bn) :=
    isCell_block (by rwa [hv.current]) hv.lt h
  obtain ⟨b, s, hrun, t', data', rfl, hfill⟩ := wp_returns (wp_bmap (N := 0) hl hv hwf htype h hfree)
  have hm := hfill.mapped
  have hsb := hm.sb_eq
  have hne : mapping t' data' (t.inode ip).inum bn ≠ 0 := by
    rw [mapping, hfill.at_cell]
    exact hfill.ne_zero
  obtain ⟨a, ha⟩ := hm.mem
  have hv' : Valid t' ip := ha ▸ hv.withAddrs a
  have hinode : t'.inode ip = { t.inode ip with addrs := a } := by
    rw [ha]
    exact Function.update_self ..
  have hinum : (t'.inode ip).inum = (t.inode ip).inum := by rw [hinode]
  refine ⟨b, t', data', hrun, ?_, ?_⟩
  · refine ⟨?_, hm.wellFormed, hfill.at_cell, hm.cells, fun inum bn' hbn' hc' hother => ?_,
      fun inum inum' bn₁ bn₂ h₁ h₂ hc₁ hc₂ hne₁ heq => mapping_inj hm.wellFormed h₁ h₂ hc₁ hc₂ hne₁ heq,
      fun hne₀ => ?_, fun x hx hu => (hm.used x hx).mpr (.inl hu), fun x hx hu hu' => ?_,
      fun c hc₀ h0 hne₀ => (hm.new c hc₀ h0 hne₀).2⟩
    · have hblock := hm.wellFormed.block _ (hm.cells ▸ hc) hne
      rw [hsb] at hblock
      have hat : pointer t' data' (blockCell (t.inode ip).inum bn) = b := hfill.at_cell
      rw [hat] at hblock
      exact ⟨hblock.1, hblock.2.1⟩
    · by_cases h0 : mapping t data inum bn' = 0
      · by_contra hne'
        rw [h0] at hne'
        obtain ⟨rfl, rfl⟩ := onPath_block h hbn' (hm.new _ hc' h0 hne').1
        exact hother rfl
      · exact hm.old _ hc' h0
    · exact ⟨(hm.old _ hc hne₀).symm.trans hfill.at_cell, hfill.same hne₀⟩
    · rcases (hm.used x hx).mp hu' with hused | ⟨c, hc₀, h0, hx', hx0⟩
      · rw [hu] at hused
        cases hused
      · exact ⟨c, (hm.new c hc₀ h0 (hx' ▸ hx0)).1, h0, hx'⟩
  · -- The second call finds the block.
    have hneeded : needed data' (t'.inode ip) bn = 0 := (needed_eq_zero hv').mpr (hinum.symm ▸ hne)
    have htype' : (t'.inode ip).type = T_FILE ∨ (t'.inode ip).type = T_DIR := by rwa [hinode]
    obtain ⟨b₂, s₂, hrun₂, t₂, data₂, rfl, hfill₂⟩ :=
      wp_returns (wp_bmap (N := 0) (hsb ▸ hl) hv' hm.wellFormed htype' h (by omega))
    have hne₂ : pointer t' data' (blockCell (t'.inode ip).inum bn) ≠ 0 := hinum.symm ▸ hne
    obtain ⟨rfl, rfl⟩ := hfill₂.same hne₂
    have hb₂ := hfill₂.at_cell
    rw [hinum] at hb₂
    have hb : b₂ = b := hb₂.symm.trans hfill.at_cell
    rw [hrun₂, hb]

/-! ### A file system with one empty file -/

theorem newFile_valid : Valid newFile 0 := ⟨by decide +kernel, rfl, by decide⟩

theorem newFile_root {c : Cell} (hc : IsCell newFile newDisk c) : root newFile newDisk c.1 = 0 := by
  obtain ⟨⟨inum, slot⟩, is⟩ := c
  have hlt : inum < 4 := hc.inum
  have hslot : slot < 13 := hc.slot
  have haddr : ∀ inum < 4, ∀ slot < 13, (newFile.current newDisk inum).addr slot = 0 := by
    decide +kernel
  exact haddr inum hlt slot hslot

theorem newFile_pointer {c : Cell} (hc : IsCell newFile newDisk c) : pointer newFile newDisk c = 0 := by
  rw [pointer, value, newFile_root hc, follow_zero]

theorem newFile_wellFormed : WellFormed newFile newDisk where
  metaUsed := newFile_metaUsed
  forest := fun c _ hc _ _ hne => absurd (newFile_pointer hc) hne
  block := fun c hc hne => absurd (newFile_pointer hc) hne

theorem newFile_free : freeBlocks newFile.sb newDisk = 196 := by decide +kernel

theorem bmap_maps_new : ∃ b t' data', (bmap 0 2000000).run (array fun _ => True) (newFile, ⟨newDisk, []⟩) =
    .ok b (t', ⟨data', []⟩) ∧ MapsTo newFile newDisk t' data' 0 2000000 b := by
  have hneeded : needed newDisk (newFile.inode 0) 2000000 ≤ freeBlocks newFile.sb newDisk := by
    rw [newFile_free]
    decide +kernel
  obtain ⟨b, t', data', hrun, hmaps, -⟩ := (bmap_maps newFile_layout newFile_valid newFile_wellFormed
    (.inl rfl) (by decide) hneeded).2.2
  exact ⟨b, t', data', hrun, hmaps⟩

end Xv6.File
