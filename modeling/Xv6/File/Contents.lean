import Xv6.File.Target
import Xv6.File.Write

namespace Xv6.File

open Xv6.Lib
open Xv6.Fs (Block BSIZE Stop)

/-!
# Files — a file is an array of bytes

`readi` and `writei` on files and directories, as operations on lists of bytes.

* `readSpec`, `writeSpec` — reading and writing a list of bytes;
* `Complete` — an inode with its entry in the cache, a block for every byte, and the same fields on
  the disk;
* `wp_readi_file`, `wp_writei_file` — what `readi` and `writei` do to the bytes of such an inode;
* `files_are_arrays` — any sequence of reads and writes on any inodes gives what the lists give.
-/

variable {S : Nat → Prop} {data data' : Nat → Block} {t t' : Mem} {ip : Ip} {i n off x : Nat}

/-! ### Lists of bytes -/

/-- `bs` at the offset `off` of a list. -/
def overwrite (s : List UInt8) (off : Nat) (bs : List UInt8) : List UInt8 :=
  s.take off ++ bs ++ s.drop (off + bs.length)

theorem length_overwrite {s bs : List UInt8} (h : off ≤ s.length) :
    (overwrite s off bs).length = max s.length (off + bs.length) := by
  rw [overwrite, List.length_append, List.length_append, List.length_take, List.length_drop]
  omega

theorem getElem?_overwrite {s bs : List UInt8} (h : off ≤ s.length) :
    (overwrite s off bs)[i]? = if off ≤ i ∧ i < off + bs.length then bs[i - off]? else s[i]? := by
  rw [overwrite, List.append_assoc, List.getElem?_append, List.getElem?_append, List.getElem?_drop,
    List.getElem?_take, List.length_take, Nat.min_eq_left h]
  split_ifs <;> first | omega | rfl | skip
  congr 1
  omega

/-- `read`: the result, and the bytes. -/
def readSpec (s : List UInt8) (off n : Nat) : Int × List UInt8 :=
  if s.length < off ∨ (off + n) % 2 ^ 32 < off then (-1, [])
  else (((s.drop off).take n).length, (s.drop off).take n)

/-- `write`: the result, and the file. -/
def writeSpec (s : List UInt8) (off : Nat) (bs : List UInt8) : Int × List UInt8 :=
  if s.length < off ∨ (off + bs.length) % 2 ^ 32 < off ∨ MAXFILE * BSIZE < off + bs.length then (-1, s)
  else (bs.length, overwrite s off bs)

/-! ### The bytes of an inode -/

/-- An inode that can be read and written: its entry in the cache is the same as on the disk, and there
    is a block for every byte. -/
structure Complete (t : Mem) (data : Nat → Block) (ip : Ip) : Prop where
  valid : Valid t ip
  type : (t.inode ip).type = T_FILE ∨ (t.inode ip).type = T_DIR
  size : (t.inode ip).size ≤ MAXFILE * BSIZE
  blocks : ∀ i, i < (t.inode ip).size → mapping t data (t.inode ip).inum (i / BSIZE) ≠ 0
  stored : stored t.sb data (t.inode ip).inum = (t.inode ip).dinode

/-- The bytes of the inode. -/
def fileOf (t : Mem) (data : Nat → Block) (ip : Ip) : List UInt8 :=
  (List.range (t.inode ip).size).map (content t data (t.inode ip).inum)

theorem length_fileOf : (fileOf t data ip).length = (t.inode ip).size := by
  rw [fileOf, List.length_map, List.length_range]

theorem getElem?_fileOf : (fileOf t data ip)[i]? =
    if i < (t.inode ip).size then some (content t data (t.inode ip).inum i) else none := by
  rw [fileOf, List.getElem?_map]
  split
  · rename_i h
    rw [List.getElem?_range h]
    rfl
  · rename_i h
    rw [List.getElem?_eq_none (by rw [List.length_range]; omega)]
    rfl

theorem blockOf_eq (hv : Valid t ip) (bn : Nat) :
    blockOf data (t.inode ip) bn = mapping t data (t.inode ip).inum bn := by
  rw [mapping, pointer, value, blockCell, root, hv.current]
  rfl

/-- The blocks of the trees are blocks of the disk. -/
theorem leads_value {r : Nat × Nat} {is js : List Nat} (hl : Layout S t.sb) (hwf : WellFormed t data)
    (hc : IsCell t data (r, is ++ js)) (hne : pointer t data (r, is ++ js) ≠ 0) :
    Leads S data (pointer t data (r, is)) js := by
  have hblock : ∀ is, IsCell t data (r, is) → pointer t data (r, is) ≠ 0 →
      S (pointer t data (r, is)) := fun is hc hne => by
    obtain ⟨hlow, hlt, -⟩ := hwf.block _ hc hne
    exact hl.offers _ (by have := hl.le; have := t.sb.bmapstart_lt; omega) (.inr hlt)
  induction js generalizing is with
  | nil =>
    rw [List.append_nil] at hc hne
    exact ⟨hne, hblock is hc hne⟩
  | cons j js ih =>
    have hhere : pointer t data (r, is) ≠ 0 := value_prefix_ne_zero hne
    have happend : is ++ j :: js = is ++ [j] ++ js := by simp
    have hnext : pointer t data (r, is ++ [j]) = entries data (pointer t data (r, is)) j :=
      value_concat hhere
    refine ⟨hhere, hblock is ((prefixClosed t data).append hc) hhere, ?_⟩
    rw [← hnext]
    exact ih (happend ▸ hc) (happend ▸ hne)

theorem Complete.readable (h : Complete t data ip) (hl : Layout S t.sb) (hwf : WellFormed t data) :
    Readable S data (t.inode ip) := by
  refine ⟨h.size, fun bn hbn => ?_⟩
  have hlt : bn < MAXFILE := Nat.lt_of_mul_lt_mul_right (Nat.lt_of_lt_of_le hbn h.size)
  have hne := h.blocks _ hbn
  rw [Nat.mul_div_cancel _ (by decide)] at hne
  have hc : IsCell t data (blockCell (t.inode ip).inum bn) :=
    isCell_block (by rw [h.valid.current]; exact h.type) h.valid.lt hlt
  have hroot : pointer t data (((t.inode ip).inum, (place bn).1), []) =
      (t.inode ip).addr (place bn).1 := by
    rw [pointer, value_nil, root, h.valid.current]
  rw [← hroot]
  have hleads : Leads S data (pointer t data (((t.inode ip).inum, (place bn).1), [])) (place bn).2 :=
    leads_value hl hwf hc hne
  exact hleads

theorem Complete.fileBytes (h : Complete t data ip) (hn : off + n ≤ (t.inode ip).size) :
    fileBytes data (t.inode ip) off n = ((fileOf t data ip).drop off).take n := by
  refine List.ext_getElem? fun i => ?_
  rw [List.getElem?_take, List.getElem?_drop, getElem?_fileOf, File.fileBytes, List.getElem?_map]
  by_cases hi : i < n
  · rw [List.getElem?_range hi, if_pos hi, if_pos (by omega)]
    show some (fileByte data (t.inode ip) (off + i)) = _
    rw [fileByte, blockOf_eq h.valid]
    rfl
  · rw [if_neg hi, List.getElem?_eq_none (by rw [List.length_range]; omega)]
    rfl

/-- The inode `ip` has the bytes `s`, and no other inode has changed. -/
structure Rewritten (t : Mem) (data : Nat → Block) (t' : Mem) (data' : Nat → Block) (ip : Ip)
    (s : List UInt8) : Prop where
  sb : t'.sb = t.sb
  wellFormed : WellFormed t' data'
  complete : Complete t' data' ip
  bytes : fileOf t' data' ip = s
  inode : ∃ a size, t' = t.setEntry ip { t.inode ip with addrs := a, size := size }
  stored : ∀ x, x < t.sb.ninodes → x ≠ (t.inode ip).inum →
    File.stored t.sb data' x = File.stored t.sb data x
  cells : IsCell t' data' = IsCell t data
  other : ∀ c, IsCell t data c → c.1.1 ≠ (t.inode ip).inum → pointer t' data' c = pointer t data c ∧
    (pointer t data c ≠ 0 → data' (pointer t data c) = data (pointer t data c))

theorem stored_low (hl : Layout S t.sb) (h : ∀ x, x < t.sb.bmapstart → data' x = data x)
    (hx : x < t.sb.ninodes) : File.stored t.sb data' x = File.stored t.sb data x := by
  rw [File.stored, File.stored, h _ (iblock_lt hl hx)]

/-- The bytes have been written, and the size and the inode on the disk fit. -/
theorem Written.rewritten {t₂ : Mem} {data₂ : Nat → Block} {bs : List UInt8}
    (h : Complete t data ip)
    (hw : Written t data t' data' ip (fun i => bs.getD (i - off) 0) off bs.length)
    (hoff : off ≤ (t.inode ip).size) (hmax : off + bs.length ≤ MAXFILE * BSIZE)
    (hsame : SameTrees t' data' t₂ data₂)
    (ht₂ : t₂ = t'.setEntry ip { t'.inode ip with size := max (t.inode ip).size (off + bs.length) })
    (hself : File.stored t.sb data₂ (t.inode ip).inum = (t₂.inode ip).dinode)
    (hstored : ∀ x, x < t.sb.ninodes → x ≠ (t.inode ip).inum →
      File.stored t.sb data₂ x = File.stored t.sb data x)
    (hdata : ∀ x, t.sb.dataStart ≤ x → data₂ x = data' x) :
    Rewritten t data t₂ data₂ ip (overwrite (fileOf t data ip) off bs) := by
  obtain ⟨a, ha⟩ := hw.mem
  have hentry : t₂ = t.setEntry ip { t.inode ip with
      addrs := a, size := max (t.inode ip).size (off + bs.length) } := by
    rw [ht₂, ha, withAddrs_inode]
    exact setEntry_twice _ _
  have hinode : t₂.inode ip = { t.inode ip with
      addrs := a, size := max (t.inode ip).size (off + bs.length) } := by
    rw [hentry, setEntry_self]
  have hcells : IsCell t₂ data₂ = IsCell t data := hsame.cells.trans hw.cells
  have hcell : ∀ i, i < MAXFILE * BSIZE → IsCell t data (blockCell (t.inode ip).inum (i / BSIZE)) :=
    fun i hi => isCell_block (by rw [h.valid.current]; exact h.type) h.valid.lt (div_lt_MAXFILE hi)
  have hmapping : ∀ i, i < MAXFILE * BSIZE → mapping t₂ data₂ (t.inode ip).inum (i / BSIZE) =
      mapping t' data' (t.inode ip).inum (i / BSIZE) := fun i hi =>
    hsame.pointers _ (hw.cells ▸ hcell i hi)
  have hkept : ∀ i, i < (t.inode ip).size →
      mapping t' data' (t.inode ip).inum (i / BSIZE) = mapping t data (t.inode ip).inum (i / BSIZE) :=
    fun i hi => hw.old _ (hcell i (Nat.lt_of_lt_of_le hi h.size)) (h.blocks i hi)
  -- There is a block for every byte.
  have hblocks : ∀ i, i < max (t.inode ip).size (off + bs.length) →
      mapping t' data' (t.inode ip).inum (i / BSIZE) ≠ 0 := fun i hi => by
    by_cases hin : i < (t.inode ip).size
    · exact (hkept i hin).trans_ne (h.blocks i hin)
    · exact (hw.writes i (by omega) (by omega)).1
  have hcontent : ∀ i, i < max (t.inode ip).size (off + bs.length) →
      content t₂ data₂ (t.inode ip).inum i = content t' data' (t.inode ip).inum i := fun i hi => by
    have hsize := h.size
    have hc := hcell i (by omega)
    have hlow := (hw.wellFormed.block _ (hw.cells ▸ hc) (hblocks i hi)).1
    rw [hw.sb_eq] at hlow
    have hblock := hdata (mapping t' data' (t.inode ip).inum (i / BSIZE)) hlow
    rw [content, content, hmapping i (by omega), hblock]
  have hsize := h.size
  refine ⟨by rw [hentry]; rfl, hsame.wellFormed hw.wellFormed, ⟨?_, ?_, ?_, fun i hi => ?_, ?_⟩, ?_,
    ⟨a, _, hentry⟩, hstored, hcells, fun c hc hne => ?_⟩
  · rw [hentry]
    exact h.valid.setEntry rfl rfl h.valid.valid
  · rw [hinode]
    exact h.type
  · rw [hinode]
    exact max_le hsize hmax
  · rw [hinode] at hi ⊢
    dsimp only at hi ⊢
    rw [hmapping i (by omega)]
    exact hblocks i hi
  · have hinum : (t₂.inode ip).inum = (t.inode ip).inum := by rw [hinode]
    have hsb : t₂.sb = t.sb := by rw [hentry]; rfl
    rw [hinum, hsb, hself]
  · refine List.ext_getElem? fun i => ?_
    have hlen : off ≤ (fileOf t data ip).length := by rwa [length_fileOf]
    have hinum : (t₂.inode ip).inum = (t.inode ip).inum := by rw [hinode]
    have hsize₂ : (t₂.inode ip).size = max (t.inode ip).size (off + bs.length) := by rw [hinode]
    rw [getElem?_overwrite hlen, getElem?_fileOf, hinum, hsize₂]
    by_cases hin : off ≤ i ∧ i < off + bs.length
    · rw [if_pos hin, if_pos (by omega), hcontent i (by omega), (hw.writes i hin.1 hin.2).2]
      rw [List.getD_eq_getElem?_getD, List.getElem?_eq_getElem (by omega), Option.getD_some]
    · rw [if_neg hin, getElem?_fileOf]
      by_cases hi : i < (t.inode ip).size
      · rw [if_pos hi, if_pos (by omega), hcontent i (by omega),
          hw.keeps i (by omega) (h.blocks i hi) hin]
      · rw [if_neg hi, if_neg (by omega)]
  · obtain ⟨hp, hd⟩ := hw.other c hc hne
    refine ⟨(hsame.pointers c (hw.cells ▸ hc)).trans hp, fun h0 => ?_⟩
    have hlow := (hw.wellFormed.block _ (hw.cells ▸ hc) (hp.trans_ne h0)).1
    rw [hp, hw.sb_eq] at hlow
    exact (hdata _ hlow).trans (hd h0)

section Programs

variable [DecidablePred S]

/-- `readi` reads the bytes. -/
theorem wp_readi_file (hl : Layout S t.sb) (hwf : WellFormed t data) (h : Complete t data ip) :
    wp ((readi ip off n).run (array S))
      (fun r s => r = readSpec (fileOf t data ip) off n ∧ s = (t, ⟨data, []⟩)) (fun _ _ => False)
      (t, ⟨data, []⟩) := by
  have htype : (t.inode ip).type ≠ T_DEV ∧ (t.inode ip).type ≠ T_SYMLINK := by
    rcases h.type with heq | heq <;> rw [heq] <;> decide
  rw [wp, run_readi htype.2]
  refine wp_mono (wp_readData htype.1 (h.readable hl hwf)) ?_ fun _ _ he => he
  rintro r _ ⟨rfl, rfl⟩
  refine ⟨?_, rfl⟩
  rw [readSpec, length_fileOf]
  by_cases hbad : (t.inode ip).size < off ∨ (off + n) % 2 ^ 32 < off
  · rw [if_pos hbad, if_pos hbad]
  rw [if_neg hbad, if_neg hbad]
  rw [not_or, Nat.not_lt] at hbad
  have hclip : ((fileOf t data ip).drop off).take n =
      ((fileOf t data ip).drop off).take (min n ((t.inode ip).size - off)) := by
    rw [List.take_eq_take_iff, List.length_drop, length_fileOf]
    omega
  have hlen : ((fileOf t data ip).drop off).length = (t.inode ip).size - off := by
    rw [List.length_drop, length_fileOf]
  rw [hclip, ← h.fileBytes (by omega), File.fileBytes, List.length_map, List.length_range]

/-- Writing to an inode that is no symbolic link. -/
theorem run_writei {σ : Type} {D : Device Block Stop σ} {dev : σ} {src : Nat → UInt8}
    (htype : (t.inode ip).type ≠ T_SYMLINK) :
    ((writei ip src off n).run D) (t, dev) = ((writeData ip src off n).run D) (t, dev) := by
  have hresolve : ((resolve ip).run D) (t, dev) = .ok (some ip) (t, dev) := by
    rw [resolve, run_bind]
    refine (bind_ok (show ((inodeOf ip).run D) (t, dev) = .ok (t.inode ip) (t, dev) from rfl)).trans ?_
    rw [if_neg htype]
    rfl
  rw [writei, run_bind]
  exact (bind_ok hresolve).trans rfl

/-- `writei` replaces the bytes, if there are blocks for the empty cells, and rejects a write that begins
    behind the end, or would make the file too long. -/
theorem wp_writei_file {bs : List UInt8} (hl : Layout S t.sb) (hwf : WellFormed t data)
    (h : Complete t data ip)
    (hfree : off ≤ (t.inode ip).size → off + bs.length ≤ MAXFILE * BSIZE →
      (holes t data (t.inode ip).inum off bs.length).card ≤ freeBlocks t.sb data) :
    wp ((writei ip (fun i => bs.getD i 0) off bs.length).run (array S))
      (fun r s => r = (writeSpec (fileOf t data ip) off bs).1 ∧ ∃ t' data', s = (t', ⟨data', []⟩) ∧
        Rewritten t data t' data' ip (writeSpec (fileOf t data ip) off bs).2)
      (fun _ _ => False) (t, ⟨data, []⟩) := by
  have htype : (t.inode ip).type ≠ T_DEV ∧ (t.inode ip).type ≠ T_SYMLINK := by
    rcases h.type with heq | heq <;> rw [heq] <;> decide
  have hself : Rewritten t data t data ip (fileOf t data ip) :=
    ⟨rfl, hwf, h, rfl, ⟨_, _, setEntry_inode.symm⟩, fun _ _ _ => rfl, rfl,
      fun _ _ _ => ⟨rfl, fun _ => rfl⟩⟩
  rw [wp, run_writei htype.2]
  show wp ((writeData ip _ off bs.length).run (array S)) _ _ _
  rw [writeData, wp_run_bind, wp_run_inodeOf]
  dsimp only
  rw [if_neg htype.1, writeSpec, length_fileOf]
  by_cases hbad : (t.inode ip).size < off ∨ (off + bs.length) % 2 ^ 32 < off
  · rw [if_pos hbad, if_pos (hbad.elim .inl fun hw => .inr (.inl hw))]
    exact ⟨rfl, t, data, rfl, hself⟩
  rw [if_neg hbad]
  rw [not_or, Nat.not_lt, Nat.not_lt] at hbad
  by_cases hlong : MAXFILE * BSIZE < off + bs.length
  · rw [if_pos hlong, if_pos (.inr (.inr hlong))]
    exact ⟨rfl, t, data, rfl, hself⟩
  have hok : ¬ ((t.inode ip).size < off ∨ (off + bs.length) % 2 ^ 32 < off ∨
      MAXFILE * BSIZE < off + bs.length) := by omega
  rw [if_neg hlong, if_neg hok, wp_run_bind]
  rw [Nat.not_lt] at hlong
  have hloop : wp ((writeLoop ip (fun i => bs.getD i 0) (bs.length / BSIZE + 2) 0 off bs.length).run
      (array S)) (fun _ s => ∃ t' data', s = (t', ⟨data', []⟩) ∧
        Written t data t' data' ip (fun i => bs.getD (i - off) 0) off bs.length) (fun _ _ => False)
      (t, ⟨data, []⟩) := wp_writeLoop hl h.valid hwf h.type hlong
    (fun _ => by simp only [BSIZE]; omega)
    (fun i _ => by rw [Nat.zero_add, Nat.add_sub_cancel_left]) (hfree hbad.1 hlong)
  refine wp_mono hloop ?_ fun _ _ he => he
  rintro _ _ ⟨t', data', rfl, hw⟩
  obtain ⟨a, ha⟩ := hw.inode
  have hsb := hw.sb_eq
  have hinum : (t'.inode ip).inum = (t.inode ip).inum := by rw [ha]
  have hsize : (t'.inode ip).size = (t.inode ip).size := by rw [ha]
  have hbmap := t.sb.bmapstart_lt
  have hiblock := iblock_lt hl h.valid.lt
  rw [wp_run_bind, wp_run_inodeOf]
  dsimp only
  rw [hsize]
  by_cases hgrow : 0 < bs.length ∧ (t.inode ip).size < off + bs.length
  · rw [if_pos hgrow, wp_run_bind, wp_run_setInode, wp_run_bind]
    show wp _ _ _ (t'.setEntry ip { t'.inode ip with size := off + bs.length }, _)
    have hmaxsize : off + bs.length = max (t.inode ip).size (off + bs.length) := by omega
    obtain ⟨t₂, ht₂⟩ : ∃ t₂, t₂ = t'.setEntry ip { t'.inode ip with size := off + bs.length } := ⟨_, rfl⟩
    rw [← ht₂]
    rw [hmaxsize] at ht₂
    have hsb₂ : t₂.sb = t.sb := by rw [ht₂]; exact hsb
    have hinode : t₂.inode ip =
        { t'.inode ip with size := max (t.inode ip).size (off + bs.length) } := by
      rw [ht₂, setEntry_self]
    have hinum₂ : (t₂.inode ip).inum = (t.inode ip).inum := by rw [hinode, ha]
    have hrange : (t₂.inode ip).dinode.InRange := by
      have hold : (t.inode ip).dinode.InRange := h.stored ▸ stored_inRange t.sb data _
      rw [hinode, ha]
      refine ⟨hold.type, hold.major, hold.minor, hold.nlink, ?_⟩
      have hsmall : MAXFILE * BSIZE < 2 ^ 32 := by decide
      exact Nat.lt_of_le_of_lt (max_le h.size hlong) hsmall
    refine wp_mono (wp_iupdate (E := fun _ _ => False) (hsb₂ ▸ hl) ?_ hrange) ?_ fun _ _ he => he
    · rw [hinum₂, hsb₂]
      exact h.valid.lt
    rintro _ _ ⟨data₂, rfl, hstored, hother⟩
    rw [hinum₂, hsb₂] at hstored hother
    have hv' : Valid t' ip := by
      obtain ⟨a, rfl⟩ := hw.mem
      exact h.valid.withAddrs a
    have hrest : ∀ x, x ≠ (t.inode ip).inum → File.stored t.sb data₂ x = File.stored t.sb data' x :=
      fun x hx => by rw [hstored, Function.update_of_ne hx]
    have hsame : SameTrees t' data' t₂ data₂ := by
      rw [ht₂]
      exact sameTrees_size (hsb ▸ hl) hw.wellFormed hv' rfl rfl hv'.valid rfl rfl
        (by rw [hinum, hsb]; exact hrest) (by rw [hinum, hsb]; exact hother)
    refine ⟨rfl, t₂, data₂, rfl, hw.rewritten h hbad.1 hlong hsame ht₂ ?_ (fun x hlt hx => ?_) fun x hx => ?_⟩
    · rw [hstored, Function.update_self]
    · rw [hrest x hx, stored_low hl hw.low hlt]
    · exact hother x (by omega)
  · rw [if_neg hgrow]
    -- All the blocks have been there before.
    have hsame : t' = t := hw.same fun i h1 h2 => h.blocks i (by omega)
    subst hsame
    have hsize₂ : max (t'.inode ip).size (off + bs.length) = (t'.inode ip).size := by omega
    refine ⟨rfl, t', data', rfl, hw.rewritten h hbad.1 hlong
      ⟨rfl, rfl, fun _ _ => rfl, fun _ _ => rfl⟩ ?_ ?_ (fun x hlt _ => ?_) fun _ _ => rfl⟩
    · rw [hsize₂]
      exact setEntry_inode.symm
    · rw [stored_low hl hw.low h.valid.lt, h.stored]
    · exact stored_low hl hw.low hlt

/-! ### Sequences of reads and writes -/

/-- A call of `readi` or `writei`. -/
inductive FileOp where
  | read (ip : Ip) (off n : Nat)
  | write (ip : Ip) (off : Nat) (bs : List UInt8)

/-- The inode. -/
def FileOp.target : FileOp → Ip
  | .read ip _ _ => ip
  | .write ip _ _ => ip

/-- The call: its result, and the bytes that are read. -/
def FileOp.exec : FileOp → FsM (Int × List UInt8)
  | .read ip off n => readi ip off n
  | .write ip off bs => do
    let r ← writei ip (fun i => bs.getD i 0) off bs.length
    pure (r, [])

/-- What it does to the lists of bytes. -/
def FileOp.spec (A : Ip → List UInt8) : FileOp → (Int × List UInt8) × (Ip → List UInt8)
  | .read ip off n => (readSpec (A ip) off n, A)
  | .write ip off bs =>
    (((writeSpec (A ip) off bs).1, []), Function.update A ip (writeSpec (A ip) off bs).2)

/-- There are blocks for the empty cells of a write that is not rejected. -/
def FileOp.Fits (t : Mem) (data : Nat → Block) : FileOp → Prop
  | .read _ _ _ => True
  | .write ip off bs => off ≤ (t.inode ip).size → off + bs.length ≤ MAXFILE * BSIZE →
    (holes t data (t.inode ip).inum off bs.length).card ≤ freeBlocks t.sb data

/-- Calls one after the other. -/
def execOps : List FileOp → FsM (List (Int × List UInt8))
  | [] => pure []
  | op :: ops => do
    let r ← op.exec
    let rs ← execOps ops
    pure (r :: rs)

/-- What they do to the lists of bytes. -/
def specOps (A : Ip → List UInt8) : List FileOp → List (Int × List UInt8) × (Ip → List UInt8)
  | [] => ([], A)
  | op :: ops => ((op.spec A).1 :: (specOps (op.spec A).2 ops).1, (specOps (op.spec A).2 ops).2)

/-- There are blocks for every write, when its turn comes. -/
def Fit (S : Nat → Prop) [DecidablePred S] : List FileOp → Mem → (Nat → Block) → Prop
  | [], _, _ => True
  | op :: ops, t, data => op.Fits t data ∧ ∀ r t' data',
    op.exec.run (array S) (t, ⟨data, []⟩) = .ok r (t', ⟨data', []⟩) → Fit S ops t' data'

/-- The inodes `O` have the bytes `A`. -/
structure Holding (t : Mem) (data : Nat → Block) (O : Ip → Prop) (A : Ip → List UInt8) : Prop where
  wellFormed : WellFormed t data
  complete : ∀ ip, O ip → Complete t data ip
  bytes : ∀ ip, O ip → fileOf t data ip = A ip

theorem Complete.inum_ne {ip' : Ip} (h : Complete t data ip) (h' : Complete t data ip') (hne : ip' ≠ ip) :
    (t.inode ip').inum ≠ (t.inode ip).inum := by
  intro heq
  have hcached := h'.valid.cached
  rw [heq, h.valid.cached] at hcached
  exact hne (Option.some.inj hcached).symm

/-- Another inode does not notice a write. -/
theorem Rewritten.other_complete {ip' : Ip} {s : List UInt8} (hw : Rewritten t data t' data' ip s)
    (h : Complete t data ip) (h' : Complete t data ip') (hne : ip' ≠ ip) :
    Complete t' data' ip' ∧ fileOf t' data' ip' = fileOf t data ip' := by
  have hinum := h.inum_ne h' hne
  obtain ⟨a, size, ht'⟩ := hw.inode
  have hinode : t'.inode ip' = t.inode ip' := by rw [ht', setEntry_other hne]
  have hblock : ∀ i, i < (t.inode ip').size →
      mapping t' data' (t.inode ip').inum (i / BSIZE) = mapping t data (t.inode ip').inum (i / BSIZE) ∧
      data' (mapping t data (t.inode ip').inum (i / BSIZE)) =
        data (mapping t data (t.inode ip').inum (i / BSIZE)) := fun i hi => by
    have hc : IsCell t data (blockCell (t.inode ip').inum (i / BSIZE)) :=
      isCell_block (by rw [h'.valid.current]; exact h'.type) h'.valid.lt
        (div_lt_MAXFILE (Nat.lt_of_lt_of_le hi h'.size))
    obtain ⟨hp, hd⟩ := hw.other _ hc hinum
    exact ⟨hp, hd (h'.blocks i hi)⟩
  refine ⟨⟨⟨?_, ?_, ?_⟩, ?_, ?_, fun i hi => ?_, ?_⟩, ?_⟩
  · rw [hinode, ht', cached_setEntry (q := { t.inode ip with addrs := a, size := size }) rfl rfl]
    exact h'.valid.cached
  · rw [hinode]
    exact h'.valid.valid
  · rw [hinode, hw.sb]
    exact h'.valid.lt
  · rw [hinode]
    exact h'.type
  · rw [hinode]
    exact h'.size
  · rw [hinode] at hi ⊢
    exact (hblock i hi).1.trans_ne (h'.blocks i hi)
  · rw [hinode, hw.sb, hw.stored _ h'.valid.lt hinum]
    exact h'.stored
  · rw [fileOf, fileOf, hinode]
    refine List.map_congr_left fun i hi => ?_
    obtain ⟨hp, hd⟩ := hblock i (List.mem_range.mp hi)
    rw [content, content, hp, hd]

variable {O : Ip → Prop} {A : Ip → List UInt8}

/-- One call. -/
theorem wp_fileOp {op : FileOp} (hl : Layout S t.sb) (h : Holding t data O A) (hop : O op.target)
    (hfits : op.Fits t data) :
    wp (op.exec.run (array S)) (fun r s => r = (op.spec A).1 ∧ ∃ t' data', s = (t', ⟨data', []⟩) ∧
      t'.sb = t.sb ∧ Holding t' data' O (op.spec A).2) (fun _ _ => False) (t, ⟨data, []⟩) := by
  cases op with
  | read ip off n =>
    refine wp_mono (wp_readi_file hl h.wellFormed (h.complete ip hop)) ?_ fun _ _ he => he
    rintro r _ ⟨rfl, rfl⟩
    refine ⟨?_, t, data, rfl, rfl, h⟩
    rw [h.bytes ip hop]
    rfl
  | write ip off bs =>
    have hip := h.complete ip hop
    rw [FileOp.exec, wp_run_bind]
    refine wp_mono (wp_writei_file hl h.wellFormed hip hfits) ?_ fun _ _ he => he
    rintro r _ ⟨rfl, t', data', rfl, hw⟩
    rw [h.bytes ip hop] at hw ⊢
    refine ⟨rfl, t', data', rfl, hw.sb, hw.wellFormed, fun ip' hip' => ?_, fun ip' hip' => ?_⟩
    · by_cases hne : ip' = ip
      · exact hne ▸ hw.complete
      · exact (hw.other_complete hip (h.complete ip' hip') hne).1
    · show _ = Function.update A ip _ ip'
      by_cases hne : ip' = ip
      · subst hne
        rw [Function.update_self, hw.bytes]
      · rw [Function.update_of_ne hne, (hw.other_complete hip (h.complete ip' hip') hne).2,
          h.bytes ip' hip']

/-- Files and directories are lists of bytes: any calls of `readi` and `writei`, on any of their inodes,
    return what the lists give, and never panic while there are blocks for what is written. -/
theorem files_are_arrays {ops : List FileOp} (hl : Layout S t.sb) (h : Holding t data O A)
    (hops : ∀ op ∈ ops, O op.target) (hfit : Fit S ops t data) :
    ∃ t' data', (execOps ops).run (array S) (t, ⟨data, []⟩) =
        .ok (specOps A ops).1 (t', ⟨data', []⟩) ∧ Holding t' data' O (specOps A ops).2 := by
  have hrun : wp ((execOps ops).run (array S)) (fun rs s => rs = (specOps A ops).1 ∧
      ∃ t' data', s = (t', ⟨data', []⟩) ∧ Holding t' data' O (specOps A ops).2) (fun _ _ => False)
      (t, ⟨data, []⟩) := by
    induction ops generalizing t data A with
    | nil => exact ⟨rfl, t, data, rfl, h⟩
    | cons op ops ih =>
      obtain ⟨hfits, hrest⟩ := hfit
      obtain ⟨r, s, hexec, rfl, t₁, data₁, rfl, hsb, h₁⟩ :=
        wp_returns (wp_fileOp hl h (hops op List.mem_cons_self) hfits)
      rw [execOps, wp_run_bind]
      refine (wp_of_ok hexec).mpr ?_
      rw [wp_run_bind]
      refine wp_mono (ih (hsb ▸ hl) h₁ (fun op hop => hops op (List.mem_cons_of_mem _ hop))
        (hrest _ t₁ data₁ hexec)) ?_ fun _ _ he => he
      rintro rs _ ⟨rfl, hend⟩
      exact ⟨rfl, hend⟩
  obtain ⟨rs, s, hexec, rfl, t', data', rfl, hend⟩ := wp_returns hrun
  exact ⟨t', data', hexec, hend⟩

end Programs

/-! ### One empty file -/

/-- The disk behind `iupdate` of the empty file. -/
theorem writtenDisk_stored :
    stored newFile.sb writtenDisk = Function.update (stored newFile.sb newDisk) 1 (newFile.inode 0).dinode :=
  stored_update (dinodeAt_writeDinode (newFile.inode 0)
    ⟨by decide, by decide, by decide, by decide, by decide⟩) fun _ h => get_writeDinode (newFile.inode 0) h

theorem holding_new : Holding newFile writtenDisk (fun ip => ip = 0) fun _ => [] where
  wellFormed := by
    have hsame := sameTrees_size (q := newFile.inode 0) newFile_layout newFile_wellFormed newFile_valid rfl
      rfl rfl rfl rfl (fun x hx => by rw [writtenDisk_stored]; exact Function.update_of_ne hx _ _)
      fun x hx => Function.update_of_ne hx _ _
    rw [setEntry_inode] at hsame
    exact hsame.wellFormed newFile_wellFormed
  complete := by
    rintro ip rfl
    refine ⟨newFile_valid, .inl rfl, by decide, fun i hi => absurd hi (Nat.not_lt_zero i), ?_⟩
    show stored newFile.sb writtenDisk 1 = _
    rw [writtenDisk_stored, Function.update_self]
  bytes := by
    rintro ip rfl
    rfl

/-- Three bytes are written, and read again from the second one on. -/
theorem files_are_arrays_new : ∃ t' data',
    (execOps [.write 0 0 [1, 2, 3], .read 0 1 10]).run (array fun _ => True)
      (newFile, ⟨writtenDisk, []⟩) = .ok [(3, []), (2, [2, 3])] (t', ⟨data', []⟩) ∧
    Holding t' data' (fun ip => ip = 0) (Function.update (fun _ => []) 0 [1, 2, 3]) := by
  have hfit : Fit (fun _ => True) [.write 0 0 [1, 2, 3], .read 0 1 10] newFile writtenDisk :=
    ⟨fun _ _ => by decide +kernel, fun _ _ _ _ => ⟨trivial, fun _ _ _ _ => trivial⟩⟩
  exact files_are_arrays (S := fun _ => True) newFile_layout holding_new (by simp [FileOp.target]) hfit

end Xv6.File
