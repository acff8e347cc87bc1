import Xv6.File.Dinode
import Xv6.File.Read

namespace Xv6.File

open Xv6.Lib
open Xv6.Fs (Block BSIZE Stop)

/-!
# Files — looking up a path

* `Sound` — what holds between two system calls: the entries of the inode cache agree with the
  disk, directories have no holes, and what a directory names is free, has a link or is in use;
* `Looking` — a lookup has taken some references, and the disk is as before;
* `wp_dirlookup`, `wp_namex` — a lookup keeps a sound file system sound and writes nothing.
-/

variable {S : Nat → Prop} {data : Nat → Block} {t t₀ t' : Mem} {ip : Ip} {o : Ip → Int}
  {inum x n off : Nat}

/-! ### Sound file systems -/

/-- The inode on the disk. -/
def diskInode (sb : Superblock) (data : Nat → Block) (inum : Nat) : Inode :=
  readDinode (data (iblock sb inum)) { inum := inum }

/-- The inode may be looked up: it is free, or it has a link, or it is in use. -/
structure Reached (t : Mem) (data : Nat → Block) (inum : Nat) : Prop where
  lt : inum < t.sb.ninodes
  kept : (stored t.sb data inum).type ≠ 0 → (stored t.sb data inum).nlink = 0 →
    ∃ j, 0 < (t.inode j).ref ∧ (t.inode j).inum = inum

/-- The blocks of the disk behind the bit map. -/
def DataBlock (S : Nat → Prop) (sb : Superblock) (b : Nat) : Prop := S b ∧ sb.dataStart ≤ b

/-- A directory without holes, whose entries are for inodes that may be looked up. -/
structure GoodDir (S : Nat → Prop) (t : Mem) (data : Nat → Block) (q : Inode) : Prop where
  readable : Readable (DataBlock S t.sb) data q
  named : ∀ k, k * DIRENTSIZE + DIRENTSIZE ≤ q.size →
    direntInum (fileBytes data q (k * DIRENTSIZE) DIRENTSIZE) ≠ 0 →
    Reached t data (direntInum (fileBytes data q (k * DIRENTSIZE) DIRENTSIZE))

/-- The file system between two system calls. -/
structure Sound (S : Nat → Prop) (t : Mem) (data : Nat → Block) : Prop where
  layout : Layout S t.sb
  counted : Counted t
  range : ∀ j, 0 < (t.inode j).ref → (t.inode j).inum < t.sb.ninodes
  read : ∀ j, 0 < (t.inode j).ref → (t.inode j).valid = true →
    (t.inode j).dinode = stored t.sb data (t.inode j).inum ∧ (t.inode j).type ≠ 0
  dir : ∀ x, x < t.sb.ninodes → (stored t.sb data x).type = T_DIR →
    GoodDir S t data (diskInode t.sb data x)
  root : Reached t data ROOTINO

/-- The content of a file depends only on the size and the block numbers. -/
theorem readable_congr {q q' : Inode} (h : Readable S data q) (hq : q'.dinode = q.dinode) :
    Readable S data q' := by
  have hsize : q'.size = q.size := congrArg Dinode.size hq
  have haddr : ∀ i, q'.addr i = q.addr i := fun i => by
    rw [Inode.addr, Inode.addr, show q'.addrs = q.addrs from congrArg Dinode.addrs hq]
  refine ⟨hsize ▸ h.size, fun bn hbn => ?_⟩
  rw [haddr]
  exact h.leads bn (hsize ▸ hbn)

theorem fileBytes_congr {q q' : Inode} (hq : q'.dinode = q.dinode) :
    fileBytes data q' off n = fileBytes data q off n := by
  have haddr : ∀ i, q'.addr i = q.addr i := fun i => by
    rw [Inode.addr, Inode.addr, show q'.addrs = q.addrs from congrArg Dinode.addrs hq]
  unfold fileBytes fileByte blockOf
  simp only [haddr]

theorem Leads.mono {S' : Nat → Prop} {p : Nat} {is : List Nat} (h : Leads S data p is)
    (hS : ∀ b, S b → S' b) : Leads S' data p is := by
  induction is generalizing p with
  | nil => exact ⟨h.1, hS p h.2⟩
  | cons i is ih => exact ⟨h.1, hS p h.2.1, ih h.2.2⟩

theorem Readable.mono {S' : Nat → Prop} {q : Inode} (h : Readable S data q) (hS : ∀ b, S b → S' b) :
    Readable S' data q := ⟨h.size, fun bn hbn => (h.leads bn hbn).mono hS⟩

/-! ### During a lookup -/

/-- A lookup that started in `t₀` has come to `t`, and holds the references `o`. -/
structure Looking (t₀ : Mem) (data : Nat → Block) (o : Ip → Int) (t : Mem) : Prop where
  sb : t.sb = t₀.sb
  cwd : t.cwd = t₀.cwd
  ref : ∀ j, (t.inode j).ref = (t₀.inode j).ref + o j
  inum : ∀ j, 0 < (t₀.inode j).ref → (t.inode j).inum = (t₀.inode j).inum
  unique : ∀ i j, 0 < (t.inode i).ref → 0 < (t.inode j).ref → (t.inode i).inum = (t.inode j).inum →
    i = j
  read : ∀ j, 0 < (t.inode j).ref → (t.inode j).valid = true →
    (t.inode j).dinode = stored t.sb data (t.inode j).inum ∧ (t.inode j).type ≠ 0
  reached : ∀ j, 0 < o j → Reached t₀ data (t.inode j).inum

theorem Sound.looking (h : Sound S t data) : Looking t data (fun _ => 0) t :=
  ⟨rfl, rfl, fun _ => (Int.add_zero _).symm, fun _ _ => rfl, h.counted.unique, h.read,
    fun _ hj => absurd hj (Int.lt_irrefl 0)⟩

theorem Looking.congr {o' : Ip → Int} (h : Looking t₀ data o t) (ho : ∀ j, o j = o' j) :
    Looking t₀ data o' t := (funext ho : o = o') ▸ h

/-- The entries in use are for inodes in range. -/
theorem Looking.range (h : Looking t₀ data o t) (hs : Sound S t₀ data) {j : Ip}
    (hj : 0 < (t.inode j).ref) : (t.inode j).inum < t.sb.ninodes := by
  rw [h.sb]
  by_cases hbase : 0 < (t₀.inode j).ref
  · rw [h.inum j hbase]
    exact hs.range j hbase
  · refine (h.reached j ?_).lt
    have href := h.ref j
    have hnonneg := hs.counted.refs j
    omega

/-- A sound file system is sound when the lookup has ended. -/
theorem Looking.sound (h : Looking t₀ data o t) (hs : Sound S t₀ data) (ho : ∀ j, 0 ≤ o j) :
    Sound S t data := by
  have hgrow : ∀ j, (t₀.inode j).ref ≤ (t.inode j).ref := fun j => by
    rw [h.ref]
    exact Int.le_add_of_nonneg_right (ho j)
  have hreached : ∀ {x}, Reached t₀ data x → Reached t data x := fun {x} hx => by
    refine ⟨by rw [h.sb]; exact hx.lt, ?_⟩
    rw [h.sb]
    intro htype hnlink
    obtain ⟨j, hj, rfl⟩ := hx.kept htype hnlink
    exact ⟨j, Int.lt_of_lt_of_le hj (hgrow j), h.inum j hj⟩
  refine ⟨h.sb ▸ hs.layout, ⟨fun j => ?_, ?_, h.unique⟩, fun j hj => h.range hs hj, h.read, ?_,
    hreached hs.root⟩
  · exact Int.le_trans (hs.counted.refs j) (hgrow j)
  · rw [h.cwd]
    exact Int.lt_of_lt_of_le hs.counted.cwd (hgrow _)
  · intro x hx hdir
    rw [h.sb] at hx hdir ⊢
    obtain ⟨hread, hnamed⟩ := hs.dir x hx hdir
    exact ⟨by rw [h.sb]; exact hread, fun k hk hne => hreached (hnamed k hk hne)⟩

/-- A change of one entry that keeps the inode number, if the entry is in use. -/
theorem Looking.set {q : Inode} {o' : Ip → Int} (h : Looking t₀ data o t)
    (ho : ∀ j, j ≠ ip → o' j = o j) (href : q.ref = (t₀.inode ip).ref + o' ip)
    (hbase : 0 < (t₀.inode ip).ref → q.inum = (t.inode ip).inum)
    (hunique : ∀ j, j ≠ ip → 0 < q.ref → 0 < (t.inode j).ref → (t.inode j).inum ≠ q.inum)
    (hread : 0 < q.ref → q.valid = true →
      q.dinode = stored t.sb data q.inum ∧ q.type ≠ 0)
    (hreached : 0 < o' ip → Reached t₀ data q.inum) : Looking t₀ data o' (t.setEntry ip q) := by
  have hcases : ∀ j, j = ip ∧ (t.setEntry ip q).inode j = q ∨
      j ≠ ip ∧ (t.setEntry ip q).inode j = t.inode j := by
    intro j
    by_cases hj : j = ip
    · subst hj
      exact .inl ⟨rfl, setEntry_self q⟩
    · exact .inr ⟨hj, setEntry_other hj q⟩
  refine ⟨h.sb, h.cwd, fun j => ?_, fun j hj => ?_, fun i j hi hj hij => ?_, fun j hj hvalid => ?_,
    fun j hj => ?_⟩
  · rcases hcases j with ⟨rfl, he⟩ | ⟨hne, he⟩
    · rw [he, href]
    · rw [he, h.ref, ho j hne]
  · rcases hcases j with ⟨rfl, he⟩ | ⟨hne, he⟩
    · rw [he, hbase hj, h.inum j hj]
    · rw [he, h.inum j hj]
  · rcases hcases i with ⟨rfl, hei⟩ | ⟨hnei, hei⟩ <;> rcases hcases j with ⟨rfl, hej⟩ | ⟨hnej, hej⟩ <;>
      rw [hei] at hi hij <;> rw [hej] at hj hij
    · exact absurd hij.symm (hunique j hnej hi hj)
    · exact absurd hij (hunique i hnei hj hi)
    · exact h.unique i j hi hj hij
  · rcases hcases j with ⟨rfl, he⟩ | ⟨hne, he⟩
    · rw [he] at hj hvalid ⊢
      exact hread hj hvalid
    · rw [he] at hj hvalid ⊢
      exact h.read j hj hvalid
  · rcases hcases j with ⟨rfl, he⟩ | ⟨hne, he⟩
    · rw [he]
      exact hreached hj
    · rw [he]
      rw [ho j hne] at hj
      exact h.reached j hj

/-! ### The operations of a lookup -/

/-- The lookup has come to a state in which it holds the references `o`. -/
def At (t₀ : Mem) (data : Nat → Block) (o : Ip → Int) (s : Mem × Flat Block) : Prop :=
  ∃ t, s = (t, ⟨data, []⟩) ∧ Looking t₀ data o t

theorem At.congr {s : Mem × Flat Block} {o' : Ip → Int} (h : At t₀ data o s) (ho : ∀ j, o j = o' j) :
    At t₀ data o' s := (funext ho : o = o') ▸ h

/-- A reference of the lookup is a reference. -/
theorem Looking.pos (h : Looking t₀ data (fun j => o j + one (some ip) j) t) (hs : Sound S t₀ data)
    (ho : ∀ j, 0 ≤ o j) : 0 < (t.inode ip).ref := by
  have href := h.ref ip
  have hnonneg := hs.counted.refs ip
  have hown := ho ip
  rw [one_self] at href
  omega

/-- Only the lock of an entry changes, or the entry is read. -/
theorem Looking.content {q : Inode} (h : Looking t₀ data o t) (hinum : q.inum = (t.inode ip).inum)
    (href : q.ref = (t.inode ip).ref)
    (hread : 0 < q.ref → q.valid = true → q.dinode = stored t.sb data q.inum ∧ q.type ≠ 0) :
    Looking t₀ data o (t.setEntry ip q) := by
  refine h.set (fun _ _ => rfl) (href.trans (h.ref ip)) (fun _ => hinum) ?_ hread ?_
  · intro j hne hq hj hsame
    rw [hinum] at hsame
    rw [href] at hq
    exact hne (h.unique j ip hj hq hsame)
  · rw [hinum]
    exact h.reached ip

theorem Looking.got (h : Looking t₀ data o t) (hs : Sound S t₀ data) (ho : ∀ j, 0 ≤ o j)
    (hr : Reached t₀ data inum) (hgot : Got t inum ip t') :
    Looking t₀ data (fun j => o j + one (some ip) j) t' := by
  have hkeep : ∀ j, j ≠ ip → o j + one (some ip) j = o j := fun j hj => by
    rw [one_other (Ne.symm hj), Int.add_zero]
  have href := h.ref ip
  have hnonneg := hs.counted.refs ip
  have hown := ho ip
  cases hgot with
  | hit hpos hinum =>
    refine h.set hkeep ?_ (fun _ => rfl) ?_ (fun _ hvalid => h.read ip hpos hvalid) ?_
    · rw [one_self]
      dsimp only
      omega
    · intro j hne _ hj hsame
      exact hne (h.unique j ip hj hpos hsame)
    · intro _
      rw [← hinum] at hr
      exact hr
  | miss hnone hzero =>
    refine h.set hkeep ?_ ?_ (fun j _ _ hj => hnone j hj) nofun fun _ => hr
    · rw [one_self]
      dsimp only
      omega
    · intro hbase
      omega

/-- A directory that has been read. -/
theorem Looking.goodDir (h : Looking t₀ data o t) (hs : Sound S t₀ data) (href : 0 < (t.inode ip).ref)
    (hvalid : (t.inode ip).valid = true) (hdir : (t.inode ip).type = T_DIR) :
    GoodDir S t₀ data (t.inode ip) := by
  have hdinode := (h.read ip href hvalid).1
  have hrange := h.range hs href
  rw [h.sb] at hdinode hrange
  have hsame : (t.inode ip).dinode = (diskInode t₀.sb data (t.inode ip).inum).dinode := hdinode
  obtain ⟨hread, hnamed⟩ := hs.dir _ hrange (by rw [← hdinode]; exact hdir)
  refine ⟨readable_congr hread hsame, fun k hk => ?_⟩
  rw [fileBytes_congr hsame]
  exact hnamed k (by rwa [show (t.inode ip).size = _ from congrArg Dinode.size hsame] at hk)

section Operations

variable [DecidablePred S]

theorem Looking.iget (h : Looking t₀ data o t) (hs : Sound S t₀ data) (ho : ∀ j, 0 ≤ o j)
    (hr : Reached t₀ data inum) :
    wp ((iget inum).run (array S)) (fun ip s => At t₀ data (fun j => o j + one (some ip) j) s)
      (fun _ _ => True) (t, ⟨data, []⟩) := by
  refine wp_mono (wp_and wp_iget (ensures_iget.run (array S) _)) ?_ fun _ _ _ => trivial
  rintro ip _ ⟨⟨q, rfl, -⟩, hgot⟩
  exact ⟨_, rfl, h.got hs ho hr hgot⟩

/-- `iunlock` needs no block. -/
theorem wp_iunlock {σ : Type} {D : Device Block Stop σ} {dev : σ} :
    wp ((iunlock ip).run D) (fun _ s => s = (t.setEntry ip { t.inode ip with locked := false }, dev))
      (fun e _ => e = .panic "iunlock") (t, dev) := by
  rw [File.iunlock, wp_run_bind, wp_run_inodeOf]
  refine wp_run_ite (fun _ => rfl) fun _ => ?_
  rw [wp_run_setInode]
  rfl

/-- `iput` of an inode that stays needs no block. -/
theorem wp_iput_kept {σ : Type} {D : Device Block Stop σ} {dev : σ}
    (h : ¬ ((t.inode ip).valid = true ∧ (t.inode ip).nlink = 0 ∧ (t.inode ip).ref = 1)) :
    wp ((iput ip).run D) (fun _ s => s =
        (t.setEntry ip { t.inode ip with locked := false, ref := (t.inode ip).ref - 1 }, dev))
      (fun _ _ => True) (t, dev) := by
  rw [File.iput, wp_run_bind, acquireInode, wp_run_bind, wp_run_inodeOf]
  refine wp_run_ite (fun _ => trivial) fun _ => ?_
  rw [wp_run_setInode, wp_run_bind, wp_run_inodeOf]
  simp only [Function.update_self]
  rw [if_neg h]
  refine (wp_run_setInode _).mpr ?_
  simp only [Function.update_self, Function.update_idem]
  rfl

/-- Giving back a reference: an inode that loses its last one stays on the disk. -/
theorem Looking.iput (h : Looking t₀ data (fun j => o j + one (some ip) j) t) (hs : Sound S t₀ data)
    (ho : ∀ j, 0 ≤ o j) :
    wp ((iput ip).run (array S)) (fun _ s => At t₀ data o s) (fun _ _ => True) (t, ⟨data, []⟩) := by
  have hpos := h.pos hs ho
  have href := h.ref ip
  have hnonneg := hs.counted.refs ip
  have hown := ho ip
  rw [one_self] at href
  have hkept : ¬ ((t.inode ip).valid = true ∧ (t.inode ip).nlink = 0 ∧ (t.inode ip).ref = 1) := by
    rintro ⟨hvalid, hnlink, hlast⟩
    obtain ⟨hdinode, htype⟩ := h.read ip hpos hvalid
    rw [h.sb] at hdinode
    obtain ⟨-, hkept⟩ := h.reached ip (by rw [one_self]; omega)
    obtain ⟨j, hj, hinum⟩ := hkept (by rw [← hdinode]; exact htype) (by rw [← hdinode]; exact hnlink)
    -- The inode was in use, and this is its only entry.
    have hjref := h.ref j
    have hjown := ho j
    have hjone := one_nonneg (some ip) (e := j)
    have hji : j = ip := h.unique j ip (by omega) hpos (by rw [h.inum j hj, hinum])
    subst hji
    omega
  refine wp_mono (wp_iput_kept hkept) ?_ fun _ _ _ => trivial
  rintro _ _ rfl
  refine ⟨_, rfl, h.set (fun j hj => by rw [one_other (Ne.symm hj), Int.add_zero]) ?_ (fun _ => rfl) ?_
    (fun _ hvalid => h.read ip hpos hvalid) fun _ => h.reached ip (by rw [one_self]; omega)⟩
  · show (t.inode ip).ref - 1 = _
    omega
  · intro j hne _ hj hsame
    exact hne (h.unique j ip hj hpos hsame)

theorem Looking.iunlock (h : Looking t₀ data o t) :
    wp ((iunlock ip).run (array S)) (fun _ s => At t₀ data o s) (fun _ _ => True)
      (t, ⟨data, []⟩) := by
  refine wp_mono wp_iunlock ?_ fun _ _ _ => trivial
  rintro _ _ rfl
  exact ⟨_, rfl, h.content rfl rfl (h.read ip)⟩

theorem Looking.iunlockput (h : Looking t₀ data (fun j => o j + one (some ip) j) t)
    (hs : Sound S t₀ data) (ho : ∀ j, 0 ≤ o j) :
    wp ((iunlockput ip).run (array S)) (fun _ s => At t₀ data o s) (fun _ _ => True)
      (t, ⟨data, []⟩) := by
  rw [File.iunlockput, wp_run_bind]
  refine wp_mono h.iunlock ?_ fun _ _ _ => trivial
  rintro _ _ ⟨t₁, rfl, h₁⟩
  exact h₁.iput hs ho

/-- The locked entry agrees with the disk. -/
theorem Looking.ilock (h : Looking t₀ data o t) (hs : Sound S t₀ data) (href : 0 < (t.inode ip).ref) :
    wp ((ilock ip).run (array S)) (fun _ s => ∃ t', s = (t', ⟨data, []⟩) ∧ Looking t₀ data o t' ∧
      0 < (t'.inode ip).ref ∧ (t'.inode ip).valid = true) (fun _ _ => True) (t, ⟨data, []⟩) := by
  have hl : Layout S t.sb := h.sb.symm ▸ hs.layout
  refine wp_mono (wp_ilock hl (h.range hs href)) ?_ fun _ _ _ => trivial
  rintro _ _ ⟨q, rfl, hinum, hvalid, -, hqref, htype, hdinode⟩
  refine ⟨t.setEntry ip q, rfl, h.content hinum hqref fun hq _ => ?_, ?_, ?_⟩
  · rw [hinum]
    by_cases hv : (t.inode ip).valid = true
    · rw [if_pos hv] at hdinode
      obtain ⟨hsame, htype₀⟩ := h.read ip href hv
      refine ⟨hdinode.trans hsame, ?_⟩
      rw [show q.type = (t.inode ip).type from congrArg Dinode.type hdinode]
      exact htype₀
    · rw [if_neg hv] at hdinode
      exact ⟨hdinode, htype (by rwa [Bool.not_eq_true] at hv)⟩
  · rw [setEntry_self, hqref]
    exact href
  · rw [setEntry_self]
    exact hvalid

theorem wp_readDirent {msg : String} (hq : GoodDir S t₀ data (t.inode ip))
    (hdir : (t.inode ip).type = T_DIR) :
    wp ((readDirent ip off msg).run (array S)) (fun de s => s = (t, ⟨data, []⟩) ∧
      off + DIRENTSIZE ≤ (t.inode ip).size ∧ de = fileBytes data (t.inode ip) off DIRENTSIZE)
      (fun _ _ => True) (t, ⟨data, []⟩) := by
  rw [readDirent, wp_run_bind]
  refine wp_mono (wp_readData (by rw [hdir]; decide) (hq.readable.mono fun _ hb => hb.1)) ?_
    fun _ _ he => he.elim
  rintro r _ ⟨rfl, hr⟩
  refine wp_run_ite (fun hfull => ?_) fun _ => trivial
  rw [wp_run_pure]
  split at hr
  · rw [hr] at hfull
    cases hfull
  · rw [hr] at hfull ⊢
    have hsize : min DIRENTSIZE ((t.inode ip).size - off) = DIRENTSIZE := Int.ofNat.inj hfull
    have hentry : DIRENTSIZE = 16 := rfl
    refine ⟨rfl, by omega, ?_⟩
    rw [hsize]

/-- An entry that is found is for an inode that may be looked up; otherwise nothing changes. -/
theorem Looking.lookupLoop {name : List UInt8} {offs : List Nat} (h : Looking t₀ data o t)
    (hs : Sound S t₀ data) (ho : ∀ j, 0 ≤ o j) (hq : GoodDir S t₀ data (t.inode ip))
    (hdir : (t.inode ip).type = T_DIR) (hoffs : ∀ off ∈ offs, ∃ k, off = k * DIRENTSIZE) :
    wp ((lookupLoop ip name offs).run (array S))
      (fun r s => At t₀ data (fun j => o j + one (r.map fun x => x.1) j) s ∧
        (r = none → s = (t, ⟨data, []⟩))) (fun _ _ => True) (t, ⟨data, []⟩) := by
  induction offs with
  | nil =>
    refine ⟨⟨t, rfl, h.congr fun j => ?_⟩, fun _ => rfl⟩
    rw [Option.map_none, one_none, Int.add_zero]
  | cons off offs ih =>
    obtain ⟨k, rfl⟩ := hoffs off List.mem_cons_self
    rw [File.lookupLoop, wp_run_bind]
    refine wp_mono (wp_readDirent hq hdir) ?_ fun _ _ _ => trivial
    rintro de _ ⟨rfl, hsize, rfl⟩
    refine wp_run_ite (fun hfound => ?_) fun _ => ih fun off hoff => hoffs off (List.mem_cons_of_mem _ hoff)
    rw [wp_run_bind]
    refine wp_mono (h.iget hs ho (hq.named k hsize hfound.1)) ?_ fun _ _ _ => trivial
    exact fun next s hnext => ⟨hnext, nofun⟩

theorem Looking.dirlookup {name : List UInt8} (h : Looking t₀ data o t) (hs : Sound S t₀ data)
    (ho : ∀ j, 0 ≤ o j) (href : 0 < (t.inode ip).ref) (hvalid : (t.inode ip).valid = true) :
    wp ((dirlookup ip name).run (array S))
      (fun r s => At t₀ data (fun j => o j + one (r.map fun x => x.1) j) s ∧
        (r = none → s = (t, ⟨data, []⟩))) (fun _ _ => True) (t, ⟨data, []⟩) := by
  rw [File.dirlookup, wp_run_bind, wp_run_inodeOf]
  refine wp_run_ite (fun _ => trivial) fun hdir => ?_
  rw [not_not] at hdir
  refine h.lookupLoop hs ho (h.goodDir hs href hvalid hdir) hdir fun off hoff => ?_
  obtain ⟨k, -, rfl⟩ := List.mem_map.mp hoff
  exact ⟨k, Nat.zero_add _⟩

/-- The loop of `namex` exchanges its reference for one to the result. -/
theorem Looking.namexLoop {parent : Bool} {k : Nat} {path : List UInt8}
    (h : Looking t₀ data (fun j => o j + one (some ip) j) t) (hs : Sound S t₀ data)
    (ho : ∀ j, 0 ≤ o j) :
    wp ((namexLoop parent k ip path).run (array S))
      (fun r s => At t₀ data (fun j => o j + one (r.map fun x => x.1) j) s) (fun _ _ => True)
      (t, ⟨data, []⟩) := by
  have hnone : ∀ {s}, At t₀ data o s → At t₀ data (fun j => o j + one none j) s := fun hs =>
    hs.congr fun j => by rw [one_none, Int.add_zero]
  induction k generalizing t ip path with
  | zero => trivial
  | succ k ih =>
    rw [File.namexLoop]
    split
    · -- the end of the path
      split
      · rw [wp_run_bind]
        exact wp_mono (h.iput hs ho) (fun _ _ ht => hnone ht) fun _ _ _ => trivial
      · exact ⟨t, rfl, h⟩
    · rename_i name rest _
      have ho' : ∀ j, 0 ≤ o j + one (some ip) j := fun j => Int.add_nonneg (ho j) (one_nonneg _)
      rw [wp_run_bind]
      refine wp_mono (h.ilock hs (h.pos hs ho)) ?_ fun _ _ _ => trivial
      rintro _ _ ⟨t₁, rfl, h₁, href₁, hvalid₁⟩
      rw [wp_run_bind, wp_run_inodeOf]
      refine wp_run_ite (fun _ => ?_) fun _ => wp_run_ite (fun _ => ?_) fun _ => ?_
      · rw [wp_run_bind]
        exact wp_mono (h₁.iunlockput hs ho) (fun _ _ ht => hnone ht) fun _ _ _ => trivial
      · rw [wp_run_bind]
        exact wp_mono h₁.iunlock (fun _ _ ht => ht) fun _ _ _ => trivial
      · rw [wp_run_bind]
        refine wp_mono (h₁.dirlookup hs ho' href₁ hvalid₁) ?_ fun _ _ _ => trivial
        rintro r _ ⟨⟨t₂, rfl, h₂⟩, -⟩
        cases r with
        | none =>
          refine wp_run_bind.mpr (wp_mono (Looking.iunlockput ?_ hs ho) (fun _ _ ht => hnone ht)
            fun _ _ _ => trivial)
          exact h₂.congr fun j => by rw [Option.map_none, one_none, Int.add_zero]
        | some x =>
          obtain ⟨next, off⟩ := x
          have hnext : ∀ j, 0 ≤ o j + one (some next) j := fun j => Int.add_nonneg (ho j) (one_nonneg _)
          refine wp_run_bind.mpr (wp_mono (Looking.iunlockput ?_ hs hnext) ?_ fun _ _ _ => trivial)
          · exact h₂.congr fun j => by rw [Int.add_right_comm]; rfl
          · rintro _ _ ⟨t₃, rfl, h₃⟩
            exact ih h₃

/-- A lookup writes nothing, and its result is a reference to an inode that may be looked up. -/
theorem wp_namex {path : List UInt8} {parent : Bool} (hs : Sound S t data) :
    wp ((namex path parent).run (array S))
      (fun r s => At t data (one (r.map fun x => x.1)) s) (fun _ _ => True) (t, ⟨data, []⟩) := by
  have hzero : ∀ j : Ip, 0 ≤ (fun _ => 0 : Ip → Int) j := fun _ => Int.le_refl 0
  have hpost : ∀ {r : Option Ip} {s}, At t data (fun j => 0 + one r j) s → At t data (one r) s :=
    fun hr => hr.congr fun j => Int.zero_add _
  rw [namex]
  refine wp_run_ite (fun _ => ?_) fun _ => ?_
  · rw [wp_run_bind]
    refine wp_mono (hs.looking.iget hs hzero hs.root) ?_ fun _ _ _ => trivial
    rintro ip _ ⟨t₁, rfl, h₁⟩
    exact wp_mono (h₁.namexLoop hs hzero) (fun _ _ ht => hpost ht) fun _ _ _ => trivial
  · rw [wp_run_bind, wp_run_get, wp_run_bind]
    have hdup : wp ((idup t.cwd).run (array S)) (fun ip s => At t data (fun j => 0 + one (some ip) j) s)
        (fun _ _ => True) (t, ⟨data, []⟩) := by
      rw [idup, wp_run_bind, wp_run_setInode, wp_run_pure]
      refine ⟨_, rfl, hs.looking.set (fun j hj => ?_) ?_ (fun _ => rfl) ?_
        (fun _ hvalid => hs.read _ hs.counted.cwd hvalid) fun _ => ?_⟩
      · rw [one_other (Ne.symm hj)]
        rfl
      · rw [one_self]
        rfl
      · intro j hne _ hj hsame
        exact hne (hs.counted.unique j _ hj hs.counted.cwd hsame)
      · exact ⟨hs.range _ hs.counted.cwd, fun _ _ => ⟨_, hs.counted.cwd, rfl⟩⟩
    refine wp_mono hdup ?_ fun _ _ _ => trivial
    rintro ip _ ⟨t₁, rfl, h₁⟩
    exact wp_mono (h₁.namexLoop hs hzero) (fun _ _ ht => hpost ht) fun _ _ _ => trivial

theorem wp_namei {path : List UInt8} (hs : Sound S t data) :
    wp ((namei path).run (array S)) (fun r s => At t data (one r) s) (fun _ _ => True)
      (t, ⟨data, []⟩) := by
  rw [namei, wp_run_bind]
  exact wp_mono (wp_namex hs) (fun _ _ h => h) fun _ _ _ => trivial

end Operations

end Xv6.File
