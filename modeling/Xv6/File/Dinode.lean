import Xv6.File.Blocks

namespace Xv6.File

open Xv6.Lib
open Xv6.Fs (Block BSIZE Stop)

/-!
# Files — the inodes on the disk

The inode blocks are an array of `struct dinode`, eight in a block.

* `stored` — the inode with a given number on the disk;
* `wp_iupdate`, `wp_ialloc` — they write one inode;
* `wp_ilock` — it reads one inode, if the entry of the cache has not been read;
* `inodes_survive` — what is read is what has been written last.
-/

variable {S : Nat → Prop} {sb : Superblock} {data data' : Nat → Block} {t t' : Mem} {ip : Ip}
  {i inum x : Nat} {d e : Block} {v : Dinode}

/-! ### Layout -/

/-- The fields of `struct dinode`. -/
@[ext]
structure Dinode where
  type : Nat := 0
  major : Nat := 0
  minor : Nat := 0
  nlink : Nat := 0
  size : Nat := 0
  addrs : Bytes ADDRSIZE := fun _ => 0

/-- The fields of an inode that are on the disk. -/
def Inode.dinode (q : Inode) : Dinode := ⟨q.type, q.major, q.minor, q.nlink, q.size, q.addrs⟩

/-- The fields of type `short` and `uint` are in range. -/
structure Dinode.InRange (v : Dinode) : Prop where
  type : v.type < 2 ^ 16
  major : v.major < 2 ^ 16
  minor : v.minor < 2 ^ 16
  nlink : v.nlink < 2 ^ 16
  size : v.size < 2 ^ 32

/-- The inode `inum` in its block. -/
def dinodeAt (d : Block) (inum : Nat) : Dinode := (readDinode d { inum := inum }).dinode

/-- The inode `inum` on the disk. -/
def stored (sb : Superblock) (data : Nat → Block) (inum : Nat) : Dinode :=
  dinodeAt (data (iblock sb inum)) inum

theorem dinode_readDinode (d : Block) (q : Inode) : (readDinode d q).dinode = dinodeAt d q.inum := rfl

/-- A slot is inside the block. -/
theorem dinodeOff_le (inum : Nat) : dinodeOff inum + 64 ≤ BSIZE := by
  have hmod : inum % 8 < 8 := Nat.mod_lt _ (by decide)
  show inum % 8 * 64 + 64 ≤ 512
  omega

/-- Two inodes in one block are in different slots. -/
theorem dinodeOff_disjoint (hblock : iblock sb x = iblock sb inum) (hne : x ≠ inum) :
    dinodeOff x + 64 ≤ dinodeOff inum ∨ dinodeOff inum + 64 ≤ dinodeOff x := by
  have hdiv : x / 8 = inum / 8 := Nat.add_right_cancel hblock
  show x % 8 * 64 + 64 ≤ inum % 8 * 64 ∨ inum % 8 * 64 + 64 ≤ x % 8 * 64
  omega

/-- An inode depends only on its slot. -/
theorem dinodeAt_congr (h : ∀ i, dinodeOff inum ≤ i → i < dinodeOff inum + 64 → d.get i = e.get i) :
    dinodeAt d inum = dinodeAt e inum := by
  have hle : ∀ off w, off + w ≤ 64 →
      d.le (dinodeOff inum + off) w = e.le (dinodeOff inum + off) w := fun off w hw =>
    Bytes.le_congr fun i h1 h2 => h i (by omega) (by omega)
  have haddrs : d.sub (dinodeOff inum + 12) ADDRSIZE = e.sub (dinodeOff inum + 12) ADDRSIZE :=
    Bytes.sub_congr fun i h1 h2 => h i (by omega) (by simp only [ADDRSIZE, NDIRECT] at h2; omega)
  apply Dinode.ext
  · exact hle 0 2 (by decide)
  · exact hle 2 2 (by decide)
  · exact hle 4 2 (by decide)
  · exact hle 6 2 (by decide)
  · exact hle 8 4 (by decide)
  · exact haddrs

/-- `iupdate` writes one slot. -/
theorem get_writeDinode (q : Inode) (h : i < dinodeOff q.inum ∨ dinodeOff q.inum + 64 ≤ i) :
    (writeDinode d q).get i = d.get i := by
  have hsize : ADDRSIZE = 52 := rfl
  rw [writeDinode, Bytes.get_splice_of_lt (by omega), Bytes.get_setLe_of_lt (by omega),
    Bytes.get_setLe_of_lt (by omega), Bytes.get_setLe_of_lt (by omega),
    Bytes.get_setLe_of_lt (by omega), Bytes.get_setLe_of_lt (by omega)]

/-- The inode that `iupdate` has written is read back. -/
theorem dinodeAt_writeDinode (q : Inode) (hq : q.dinode.InRange) :
    dinodeAt (writeDinode d q) q.inum = q.dinode := by
  have hoff := dinodeOff_le q.inum
  have hsize : ADDRSIZE = 52 := rfl
  have hblock : BSIZE = 512 := rfl
  have h16 : (256 : Nat) ^ 2 = 2 ^ 16 := by norm_num
  have h32 : (256 : Nat) ^ 4 = 2 ^ 32 := by norm_num
  unfold writeDinode
  apply Dinode.ext
  · show Bytes.le _ (dinodeOff q.inum) 2 = q.type
    rw [Bytes.le_splice_of_disjoint (by omega), Bytes.le_setLe_of_disjoint (by omega),
      Bytes.le_setLe_of_disjoint (by omega), Bytes.le_setLe_of_disjoint (by omega),
      Bytes.le_setLe_of_disjoint (by omega), Bytes.le_setLe_self (by omega), h16]
    exact Nat.mod_eq_of_lt hq.type
  · show Bytes.le _ (dinodeOff q.inum + 2) 2 = q.major
    rw [Bytes.le_splice_of_disjoint (by omega), Bytes.le_setLe_of_disjoint (by omega),
      Bytes.le_setLe_of_disjoint (by omega), Bytes.le_setLe_of_disjoint (by omega),
      Bytes.le_setLe_self (by omega), h16]
    exact Nat.mod_eq_of_lt hq.major
  · show Bytes.le _ (dinodeOff q.inum + 4) 2 = q.minor
    rw [Bytes.le_splice_of_disjoint (by omega), Bytes.le_setLe_of_disjoint (by omega),
      Bytes.le_setLe_of_disjoint (by omega), Bytes.le_setLe_self (by omega), h16]
    exact Nat.mod_eq_of_lt hq.minor
  · show Bytes.le _ (dinodeOff q.inum + 6) 2 = q.nlink
    rw [Bytes.le_splice_of_disjoint (by omega), Bytes.le_setLe_of_disjoint (by omega),
      Bytes.le_setLe_self (by omega), h16]
    exact Nat.mod_eq_of_lt hq.nlink
  · show Bytes.le _ (dinodeOff q.inum + 8) 4 = q.size
    rw [Bytes.le_splice_of_disjoint (by omega), Bytes.le_setLe_self (by omega), h32]
    exact Nat.mod_eq_of_lt hq.size
  · show Bytes.sub _ (dinodeOff q.inum + 12) ADDRSIZE = q.addrs
    exact Bytes.sub_splice_self q.addrs (by omega)

/-- What is on the disk is in range. -/
theorem stored_inRange (sb : Superblock) (data : Nat → Block) (inum : Nat) :
    (stored sb data inum).InRange := by
  have h16 : (256 : Nat) ^ 2 = 2 ^ 16 := by norm_num
  have h32 : (256 : Nat) ^ 4 = 2 ^ 32 := by norm_num
  constructor
  · exact Nat.lt_of_lt_of_eq (Bytes.le_lt _ _ 2) h16
  · exact Nat.lt_of_lt_of_eq (Bytes.le_lt _ _ 2) h16
  · exact Nat.lt_of_lt_of_eq (Bytes.le_lt _ _ 2) h16
  · exact Nat.lt_of_lt_of_eq (Bytes.le_lt _ _ 2) h16
  · exact Nat.lt_of_lt_of_eq (Bytes.le_lt _ _ 4) h32

/-- What `ialloc` writes into a slot. -/
def newDinode (d : Block) (inum type : Nat) : Block :=
  (d.splice (dinodeOff inum) DINODESIZE fun _ => 0).setLe (dinodeOff inum) 2 type

theorem get_newDinode {type : Nat} (h : i < dinodeOff inum ∨ dinodeOff inum + 64 ≤ i) :
    (newDinode d inum type).get i = d.get i := by
  have hsize : DINODESIZE = 64 := rfl
  rw [newDinode, Bytes.get_setLe_of_lt (by omega), Bytes.get_splice_of_lt (by omega)]

theorem dinodeAt_newDinode {type : Nat} (htype : type < 2 ^ 16) :
    dinodeAt (newDinode d inum type) inum = { type := type } := by
  have hoff := dinodeOff_le inum
  have hsize : ADDRSIZE = 52 := rfl
  have hdsize : DINODESIZE = 64 := rfl
  have hblock : BSIZE = 512 := rfl
  have h16 : (256 : Nat) ^ 2 = 2 ^ 16 := by norm_num
  -- The slot is zero but for the type.
  have hget : ∀ i, dinodeOff inum + 2 ≤ i → i < dinodeOff inum + 64 →
      (newDinode d inum type).get i = 0 := by
    intro i h1 h2
    obtain ⟨j, rfl⟩ := Nat.exists_eq_add_of_le (show dinodeOff inum ≤ i by omega)
    rw [newDinode, Bytes.get_setLe_of_lt (by omega), Bytes.get_splice_self (by omega) (by omega)]
  have hzero : ∀ w off, 2 ≤ off → off + w ≤ 64 →
      (newDinode d inum type).le (dinodeOff inum + off) w = 0 := by
    intro w
    induction w with
    | zero => exact fun _ _ _ => rfl
    | succ w ih =>
      intro off h1 h2
      rw [Bytes.le, hget _ (by omega) (by omega), Nat.add_assoc, ih (off + 1) (by omega) (by omega)]
      rfl
  apply Dinode.ext
  · show Bytes.le _ (dinodeOff inum) 2 = type
    rw [newDinode, Bytes.le_setLe_self (by omega), h16]
    exact Nat.mod_eq_of_lt htype
  · exact hzero 2 2 (by decide) (by decide)
  · exact hzero 2 4 (by decide) (by decide)
  · exact hzero 2 6 (by decide) (by decide)
  · exact hzero 4 8 (by decide) (by decide)
  · funext j
    have hj := j.isLt
    show Bytes.get _ (dinodeOff inum + 12 + j.val) = 0
    exact hget _ (by omega) (by omega)

/-- A write into the slot of `inum` changes no other inode. -/
theorem stored_update (hself : dinodeAt d inum = v)
    (hother : ∀ i, i < dinodeOff inum ∨ dinodeOff inum + 64 ≤ i →
      d.get i = (data (iblock sb inum)).get i) :
    stored sb (Function.update data (iblock sb inum) d) =
      Function.update (stored sb data) inum v := by
  funext x
  by_cases hx : x = inum
  · rw [hx, Function.update_self, stored, Function.update_self, hself]
  · rw [Function.update_of_ne hx, stored]
    by_cases hblock : iblock sb x = iblock sb inum
    · rw [hblock, Function.update_self, stored, hblock]
      have hdisjoint := dinodeOff_disjoint hblock hx
      exact dinodeAt_congr fun i h1 h2 => hother i (by omega)
    · rw [Function.update_of_ne hblock, stored]

/-! ### The operations -/

/-- The inode blocks are blocks of the disk. -/
theorem offers_iblock (hl : Layout S sb) (h : inum < sb.ninodes) : S (iblock sb inum) := by
  have hdiv : inum / IPB ≤ sb.ninodes / IPB := Nat.div_le_div_right h.le
  have hinodes := hl.inodes
  have hbmap := sb.bmapstart_lt
  refine hl.offers _ (Nat.le_add_left ..) (.inl ?_)
  rw [iblock]
  omega

section Operations

variable [DecidablePred S] {E : Stop → Mem × Flat Block → Prop}

/-- `iupdate` writes the fields of the inode. -/
theorem wp_iupdate (hl : Layout S t.sb) (hlt : (t.inode ip).inum < t.sb.ninodes)
    (hrange : (t.inode ip).dinode.InRange) :
    wp ((iupdate ip).run (array S)) (fun _ s => ∃ data', s = (t, ⟨data', []⟩) ∧
      stored t.sb data' =
        Function.update (stored t.sb data) (t.inode ip).inum (t.inode ip).dinode ∧
      ∀ b, b ≠ iblock t.sb (t.inode ip).inum → data' b = data b)
      E (t, ⟨data, []⟩) := by
  rw [iupdate, wp_run_bind, wp_run_get, wp_run_bind]
  refine (Flat.wp_bread (offers_iblock hl hlt) List.not_mem_nil).mpr ?_
  rw [wp_run_bind]
  refine (Flat.wp_store List.mem_cons_self).mpr ?_
  refine (Flat.wp_brelse List.not_mem_nil).mpr ⟨_, rfl, ?_, fun b hb => Function.update_of_ne hb _ _⟩
  exact stored_update (dinodeAt_writeDinode _ hrange) fun i h => get_writeDinode _ h

/-- `iget` gives a reference to an entry for the inode.  An entry that it recycles is not valid. -/
theorem wp_iget : wp ((iget inum).run (array S)) (fun ip s => ∃ q : Inode,
    s = ({ t with inode := Function.update t.inode ip q }, ⟨data, []⟩) ∧ q.inum = inum ∧
      (0 < (t.inode ip).ref ∧ (t.inode ip).inum = inum ∧ q = { t.inode ip with ref := (t.inode ip).ref + 1 } ∨
        (t.inode ip).ref = 0 ∧ q = { t.inode ip with inum := inum, ref := 1, valid := false }))
    (fun e _ => e = .panic "iget: no inodes") (t, ⟨data, []⟩) := by
  rw [iget, wp_run_bind, wp_run_get]
  split
  · rename_i ip hfind
    have hfound := List.find?_some hfind
    rw [decide_eq_true_eq] at hfound
    rw [wp_run_bind, wp_run_setInode, wp_run_pure]
    exact ⟨_, rfl, hfound.2, .inl ⟨hfound.1, hfound.2, rfl⟩⟩
  · split
    · rw [panic, wp_run_stop]
    · rename_i ip hfind
      have hfound := List.find?_some hfind
      rw [decide_eq_true_eq] at hfound
      rw [wp_run_bind, wp_run_setInode, wp_run_pure]
      exact ⟨_, rfl, rfl, .inr ⟨hfound, rfl⟩⟩

/-- `ialloc` writes a free inode. -/
theorem wp_iallocLoop {type : Nat} {inums : List Nat} (hl : Layout S t.sb) (htype : type < 2 ^ 16)
    (hinums : ∀ inum ∈ inums, inum < t.sb.ninodes) :
    wp ((iallocLoop t.sb type inums).run (array S)) (fun ip s => ∃ t' data', s = (t', ⟨data', []⟩) ∧
      t'.sb = t.sb ∧ (t'.inode ip).inum ∈ inums ∧ (stored t.sb data (t'.inode ip).inum).type = 0 ∧
      stored t.sb data' =
        Function.update (stored t.sb data) (t'.inode ip).inum { type := type })
      (fun _ _ => True) (t, ⟨data, []⟩) := by
  induction inums with
  | nil =>
    rw [iallocLoop, panic, wp_run_stop]
    trivial
  | cons inum rest ih =>
    have hS := offers_iblock hl (hinums inum List.mem_cons_self)
    rw [iallocLoop, wp_run_bind]
    refine (Flat.wp_bread hS List.not_mem_nil).mpr (wp_run_ite (fun hfree => ?_) fun _ => ?_)
    · rw [wp_run_bind]
      refine (Flat.wp_store List.mem_cons_self).mpr ?_
      rw [wp_run_bind]
      refine (Flat.wp_brelse List.not_mem_nil).mpr ?_
      refine wp_mono wp_iget ?_ fun _ _ _ => trivial
      rintro ip _ ⟨q, rfl, hq, -⟩
      have hinum : ((Function.update t.inode ip q) ip).inum = inum := by
        rw [Function.update_self, hq]
      refine ⟨_, _, rfl, rfl, ?_, ?_, ?_⟩ <;> dsimp only <;> rw [hinum]
      · exact List.mem_cons_self
      · exact hfree
      · exact stored_update (dinodeAt_newDinode htype) fun i h => get_newDinode h
    · rw [wp_run_bind]
      refine (Flat.wp_brelse List.not_mem_nil).mpr ?_
      refine wp_mono (ih fun x hx => hinums x (List.mem_cons_of_mem _ hx)) ?_ fun _ _ _ => trivial
      rintro ip _ ⟨t', data', rfl, hsb, hmem, hrest⟩
      exact ⟨t', data', rfl, hsb, List.mem_cons_of_mem _ hmem, hrest⟩

theorem wp_ialloc {type : Nat} (hl : Layout S t.sb) (htype : type < 2 ^ 16) :
    wp ((ialloc type).run (array S)) (fun ip s => ∃ t' data', s = (t', ⟨data', []⟩) ∧
      t'.sb = t.sb ∧ (t'.inode ip).inum < t.sb.ninodes ∧
      (stored t.sb data (t'.inode ip).inum).type = 0 ∧
      stored t.sb data' =
        Function.update (stored t.sb data) (t'.inode ip).inum { type := type })
      (fun _ _ => True) (t, ⟨data, []⟩) := by
  have hinums : ∀ inum ∈ (List.range t.sb.ninodes).drop 1, inum < t.sb.ninodes := fun inum h =>
    List.mem_range.mp (List.mem_of_mem_drop h)
  rw [ialloc, wp_run_bind, wp_run_get]
  refine wp_mono (wp_iallocLoop hl htype hinums) ?_ fun _ _ _ => trivial
  rintro ip _ ⟨t', data', rfl, hsb, hmem, hrest⟩
  exact ⟨t', data', rfl, hsb, hinums _ hmem, hrest⟩

/-- `ilock` reads the inode, if the entry has not been read.  It stops only for an entry without
    references, at a lock that is taken, or for a free inode. -/
theorem wp_ilock (hl : Layout S t.sb) (hlt : (t.inode ip).inum < t.sb.ninodes) :
    wp ((ilock ip).run (array S)) (fun _ s => ∃ q : Inode,
      s = ({ t with inode := Function.update t.inode ip q }, ⟨data, []⟩) ∧
      q.inum = (t.inode ip).inum ∧ q.valid = true ∧ q.locked = true ∧ q.ref = (t.inode ip).ref ∧
      ((t.inode ip).valid = false → q.type ≠ 0) ∧
      q.dinode = if (t.inode ip).valid then (t.inode ip).dinode
        else stored t.sb data (t.inode ip).inum)
      (fun _ _ => (t.inode ip).ref < 1 ∨ (t.inode ip).locked = true ∨
        (stored t.sb data (t.inode ip).inum).type = 0) (t, ⟨data, []⟩) := by
  rw [ilock, wp_run_bind, wp_run_inodeOf]
  refine wp_run_ite (fun href => ?_) fun _ => ?_
  · rw [panic, wp_run_stop]
    exact .inl href
  rw [wp_run_bind, acquireInode, wp_run_bind, wp_run_inodeOf]
  refine wp_run_ite (fun hlocked => ?_) fun _ => ?_
  · rw [wp_run_stop]
    exact .inr (.inl hlocked)
  rw [wp_run_setInode]
  refine wp_run_ite (fun hinvalid => ?_) fun hvalid => ?_
  · rw [wp_run_bind, wp_run_get, wp_run_bind]
    refine (Flat.wp_bread (offers_iblock hl hlt) List.not_mem_nil).mpr ?_
    rw [wp_run_bind, wp_run_setInode, wp_run_bind]
    refine (Flat.wp_brelse List.not_mem_nil).mpr ?_
    rw [wp_run_bind, wp_run_setInode, wp_run_bind, wp_run_inodeOf]
    refine wp_run_ite (fun hfree => ?_) fun htype => ?_
    · rw [panic, wp_run_stop]
      simp only [Function.update_self] at hfree
      exact .inr (.inr hfree)
    · rw [wp_run_pure]
      simp only [Function.update_self, Function.update_idem] at htype ⊢
      refine ⟨_, rfl, rfl, rfl, rfl, rfl, fun _ => htype, ?_⟩
      rw [hinvalid]
      rfl
  · rw [Bool.not_eq_false] at hvalid
    rw [wp_run_pure]
    refine ⟨_, rfl, rfl, hvalid, rfl, rfl, fun h => absurd (hvalid.symm.trans h) (by decide), ?_⟩
    rw [hvalid]
    rfl

end Operations

/-! ### Sequences of operations -/

/-- An inode has been written to the disk, or read from the disk. -/
inductive InodeEvent where
  | wrote (inum : Nat) (v : Dinode)
  | read (inum : Nat) (v : Dinode)

/-- One operation on the memory and the blocks, and its event. -/
inductive InodeStep (S : Nat → Prop) [DecidablePred S] :
    Mem × (Nat → Block) → Option InodeEvent → Mem × (Nat → Block) → Prop
  | ialloc {t t' : Mem} {data data' : Nat → Block} {ip : Ip} (type : Nat) (htype : type < 2 ^ 16)
      (h : (ialloc type).run (array S) (t, ⟨data, []⟩) = .ok ip (t', ⟨data', []⟩)) :
      InodeStep S (t, data) (some (.wrote (t'.inode ip).inum { type := type })) (t', data')
  | iupdate {t t' : Mem} {data data' : Nat → Block} (ip : Ip) (hlt : (t.inode ip).inum < t.sb.ninodes)
      (hrange : (t.inode ip).dinode.InRange)
      (h : (iupdate ip).run (array S) (t, ⟨data, []⟩) = .ok () (t', ⟨data', []⟩)) :
      InodeStep S (t, data) (some (.wrote (t.inode ip).inum (t.inode ip).dinode)) (t', data')
  | ilock {t t' : Mem} {data data' : Nat → Block} (ip : Ip) (hlt : (t.inode ip).inum < t.sb.ninodes)
      (h : (ilock ip).run (array S) (t, ⟨data, []⟩) = .ok () (t', ⟨data', []⟩)) :
      InodeStep S (t, data)
        (if (t.inode ip).valid then none else some (.read (t'.inode ip).inum (t'.inode ip).dinode))
        (t', data')
  -- Everything else: entries of the inode cache are recycled and changed, and other blocks are
  -- written.
  | other {t t' : Mem} {data data' : Nat → Block} (hsb : t'.sb = t.sb)
      (h : ∀ inum < t.sb.ninodes, data' (iblock t.sb inum) = data (iblock t.sb inum)) :
      InodeStep S (t, data) none (t', data')

/-- Operations one after the other, and their events. -/
inductive InodeRun (S : Nat → Prop) [DecidablePred S] :
    Mem × (Nat → Block) → List InodeEvent → Mem × (Nat → Block) → Prop
  | nil (s : Mem × (Nat → Block)) : InodeRun S s [] s
  | cons {s s' s'' : Mem × (Nat → Block)} {e : Option InodeEvent} {es : List InodeEvent} :
      InodeStep S s e s' → InodeRun S s' es s'' →
      InodeRun S s (e.toList ++ es) s''

/-- What has been written last. -/
def written : (Nat → Dinode) → List InodeEvent → Nat → Dinode
  | last, [] => last
  | last, .wrote inum v :: es => written (Function.update last inum v) es
  | last, .read _ _ :: es => written last es

/-- All inodes are read as they have been written last. -/
def ReadsLast : (Nat → Dinode) → List InodeEvent → Prop
  | _, [] => True
  | last, .wrote inum v :: es => ReadsLast (Function.update last inum v) es
  | last, .read inum v :: es => v = last inum ∧ ReadsLast last es

section Runs

variable [DecidablePred S] {es : List InodeEvent} {last : Nat → Dinode}
  {s s' : Mem × (Nat → Block)} {e : Option InodeEvent}

/-- The inodes on the disk are the ones that have been written last. -/
def OnDisk (s : Mem × (Nat → Block)) (last : Nat → Dinode) : Prop :=
  ∀ inum < s.1.sb.ninodes, stored s.1.sb s.2 inum = last inum

theorem OnDisk.update {t' : Mem} (h : OnDisk (t, data) last) (hsb : t'.sb = t.sb)
    (hstored : stored t.sb data' = Function.update (stored t.sb data) inum v) :
    OnDisk (t', data') (Function.update last inum v) := by
  intro x hx
  rw [show (t', data').1.sb = t.sb from hsb] at hx ⊢
  rw [show stored t.sb (t', data').2 = _ from hstored, Function.update_apply, Function.update_apply,
    show stored t.sb data x = last x from h x hx]

/-- What one operation writes and reads. -/
theorem InodeStep.onDisk (h : InodeStep S s e s') (hl : Layout S s.1.sb) (hdisk : OnDisk s last) :
    s'.1.sb = s.1.sb ∧ ReadsLast last e.toList ∧ OnDisk s' (written last e.toList) := by
  cases h with
  | ialloc type htype hrun =>
    obtain ⟨t', data', heq, hsb, -, -, hstored⟩ := wp_ok (wp_ialloc hl htype) hrun
    cases heq
    exact ⟨hsb, trivial, hdisk.update hsb hstored⟩
  | iupdate ip hlt hrange hrun =>
    obtain ⟨data', heq, hstored, -⟩ := wp_ok (wp_iupdate (E := fun _ _ => True) hl hlt hrange) hrun
    cases heq
    exact ⟨rfl, trivial, hdisk.update rfl hstored⟩
  | @ilock t t' data data' ip hlt hrun =>
    obtain ⟨q, heq, hinum, -, -, -, -, hq⟩ := wp_ok (wp_ilock hl hlt) hrun
    cases heq
    by_cases hvalid : (t.inode ip).valid = true
    · rw [if_pos hvalid]
      exact ⟨rfl, trivial, hdisk⟩
    · rw [if_neg hvalid] at hq ⊢
      refine ⟨rfl, ⟨?_, trivial⟩, hdisk⟩
      dsimp only
      rw [Function.update_self, hq, hinum]
      exact hdisk _ hlt
  | other hsb hblocks =>
    refine ⟨hsb, trivial, fun x hx => ?_⟩
    dsimp only at hx hsb ⊢
    rw [hsb] at hx ⊢
    rw [stored, hblocks x hx]
    exact hdisk x hx

theorem written_append (es es' : List InodeEvent) :
    written last (es ++ es') = written (written last es) es' := by
  induction es generalizing last with
  | nil => rfl
  | cons e es ih => cases e <;> exact ih

theorem readsLast_append (es es' : List InodeEvent) :
    ReadsLast last (es ++ es') ↔ ReadsLast last es ∧ ReadsLast (written last es) es' := by
  induction es generalizing last with
  | nil => simp [ReadsLast, written]
  | cons e es ih =>
    cases e with
    | wrote inum v => exact ih
    | read inum v =>
      rw [List.cons_append, ReadsLast, ih, ReadsLast, written, and_assoc]

/-- Inodes survive eviction: whatever is done in between, what `ilock` reads from the disk is what
    `iupdate` or `ialloc` has written last, and each of these writes changes one inode. -/
theorem InodeRun.onDisk (h : InodeRun S s es s') (hl : Layout S s.1.sb) (hdisk : OnDisk s last) :
    ReadsLast last es ∧ OnDisk s' (written last es) := by
  induction h generalizing last with
  | nil s => exact ⟨trivial, hdisk⟩
  | cons hstep _ ih =>
    obtain ⟨hsb, hreads, hdisk'⟩ := hstep.onDisk hl hdisk
    obtain ⟨hreads', hend⟩ := ih (hsb ▸ hl) hdisk'
    rw [readsLast_append, written_append]
    exact ⟨⟨hreads, hreads'⟩, hend⟩

/-- From any disk on, every inode that `ilock` reads from the disk is as `iupdate` or `ialloc` has
    written it last, and no write of an inode changes another one. -/
theorem inodes_survive (hl : Layout S s.1.sb) (h : InodeRun S s es s') :
    ReadsLast (stored s.1.sb s.2) es ∧
      ∀ inum < s'.1.sb.ninodes, stored s'.1.sb s'.2 inum = written (stored s.1.sb s.2) es inum :=
  h.onDisk hl fun _ _ => rfl

/-- The disk behind `iupdate` of the new file. -/
def writtenDisk : Nat → Block :=
  Function.update newDisk 2 (writeDinode (newDisk 2) (newFile.inode 0))

/-- The entry of the new file has been recycled and looked up again. -/
def recycled : Mem := { newFile with inode := fun _ => { inum := 1, ref := 1 } }

theorem inodes_survive_new : ∃ es s, InodeRun (fun _ => True) (newFile, newDisk) es s ∧
    ReadsLast (stored newFile.sb newDisk) es ∧ .read 1 (newFile.inode 0).dinode ∈ es := by
  have hrange : (newFile.inode 0).dinode.InRange := by constructor <;> decide
  have hwrite : InodeStep (fun _ => True) (newFile, newDisk)
      (some (.wrote 1 (newFile.inode 0).dinode)) (newFile, writtenDisk) :=
    .iupdate 0 (by decide) hrange rfl
  have hrecycle : InodeStep (fun _ => True) (newFile, writtenDisk) none (recycled, writtenDisk) :=
    .other rfl fun _ _ => rfl
  obtain ⟨_, ⟨t', data', held⟩, hlock⟩ := exists_ok_of_returns
    (show returns ((ilock 0).run (array fun _ => True)) (recycled, ⟨writtenDisk, []⟩) = true by
      decide +kernel)
  have hlt : (recycled.inode 0).inum < recycled.sb.ninodes := by decide
  obtain ⟨q, heq, hinum, -⟩ := wp_ok (wp_ilock (t := recycled) newFile_layout hlt) hlock
  cases heq
  have hread : InodeStep (fun _ => True) (recycled, writtenDisk) _ (_, writtenDisk) :=
    .ilock 0 hlt hlock
  have hrun := InodeRun.cons hwrite (.cons hrecycle (.cons hread (.nil _)))
  obtain ⟨hlast, -⟩ := inodes_survive newFile_layout hrun
  refine ⟨_, _, hrun, hlast, ?_⟩
  have hq : q.dinode = (newFile.inode 0).dinode := by
    have hread := hlast.1
    dsimp only at hread
    rwa [Function.update_self, hinum, show (recycled.inode 0).inum = 1 from rfl,
      Function.update_self] at hread
  rw [← hq, ← show q.inum = 1 from hinum]
  dsimp only
  rw [Function.update_self]
  simp [recycled]

end Runs

end Xv6.File
