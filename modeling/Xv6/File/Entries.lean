import Xv6.File.Inode
import Xv6.Lib.Ensures

namespace Xv6.File

open Xv6.Lib
open Xv6.Fs (Block BSIZE Stop)

/-!
# Files — the inode cache

What the functions of `fs.c` do to the entries of the inode cache, whatever is on the disk.

* `one` — the reference that a result carries;
* `Local` — one entry changes, but neither its inode number nor its reference count;
* `ensures_readData`, `ensures_writeData`, `ensures_itrunc`, … — the functions that work on the
  content of an inode are local;
* `ensures_iget`, `ensures_ilock`, `ensures_iput` — the functions that look up, read and release
  an entry.
-/

variable {t t' t'' : Mem} {ip e : Ip} {b i : Nat}

/-- Replace an entry of the inode cache. -/
def Mem.setEntry (t : Mem) (ip : Ip) (q : Inode) : Mem :=
  { t with inode := Function.update t.inode ip q }

@[simp] theorem setEntry_self (q : Inode) : (t.setEntry ip q).inode ip = q := Function.update_self ..

theorem setEntry_other {j : Ip} (h : j ≠ ip) (q : Inode) : (t.setEntry ip q).inode j = t.inode j :=
  Function.update_of_ne h _ _

@[simp] theorem setEntry_twice (q q' : Inode) : (t.setEntry ip q).setEntry ip q' = t.setEntry ip q' := by
  simp [Mem.setEntry]

@[simp] theorem setEntry_inode : t.setEntry ip (t.inode ip) = t := by simp [Mem.setEntry]

theorem ensures_inodeOf {Q : Inode → Mem → Prop} :
    (inodeOf ip).Ensures Q t ↔ Q (t.inode ip) t := Iff.rfl

theorem ensures_setInode {Q : Unit → Mem → Prop} (f : Inode → Inode) :
    (setInode ip f).Ensures Q t ↔ Q () (t.setEntry ip (f (t.inode ip))) := Iff.rfl

theorem ensures_bread {Q : Block → Mem → Prop} (h : ∀ d, Q d t) : (bread b).Ensures Q t := h

theorem ensures_store {Q : Unit → Mem → Prop} {d : Block} (h : Q () t) : (store b d).Ensures Q t := h

theorem ensures_brelse {Q : Unit → Mem → Prop} (h : Q () t) : (brelse b).Ensures Q t := h

theorem ensures_iupdate {Q : Unit → Mem → Prop} (h : Q () t) : (iupdate ip).Ensures Q t :=
  fun _ => h

theorem ensures_panic {α : Type} {Q : α → Mem → Prop} {msg : String} :
    (panic msg : FsM α).Ensures Q t := trivial

/-! ### References -/

/-- The references are counted, the working directory is in use, and no inode has two entries. -/
structure Counted (t : Mem) : Prop where
  refs : ∀ j, 0 ≤ (t.inode j).ref
  cwd : 0 < (t.inode t.cwd).ref
  unique : ∀ i j, 0 < (t.inode i).ref → 0 < (t.inode j).ref → (t.inode i).inum = (t.inode j).inum →
    i = j

/-- The references in a result. -/
def one (r : Option Ip) (j : Ip) : Int := if r = some j then 1 else 0

theorem one_self : one (some ip) ip = 1 := if_pos rfl

theorem one_other (h : ip ≠ e) : one (some ip) e = 0 := if_neg fun heq => h (Option.some.inj heq)

theorem one_none : one none e = 0 := if_neg nofun

theorem one_nonneg (r : Option Ip) : 0 ≤ one r e := by
  unfold one
  split <;> decide

/-! ### Local changes -/

/-- Only the entry `ip` changes, and it stays an entry for the same inode with the same references; if
    it has been read, its type stays. -/
def Local (ip : Ip) (t t' : Mem) : Prop :=
  ∃ q, t' = t.setEntry ip q ∧ q.inum = (t.inode ip).inum ∧ q.ref = (t.inode ip).ref ∧
    ((t.inode ip).valid = true → q.valid = true ∧ q.type = (t.inode ip).type)

theorem local_refl : Local ip t t :=
  ⟨t.inode ip, setEntry_inode.symm, rfl, rfl, fun hvalid => ⟨hvalid, rfl⟩⟩

theorem local_set {q : Inode} (hinum : q.inum = (t.inode ip).inum) (href : q.ref = (t.inode ip).ref)
    (hread : (t.inode ip).valid = true → q.valid = true ∧ q.type = (t.inode ip).type) :
    Local ip t (t.setEntry ip q) := ⟨q, rfl, hinum, href, hread⟩

theorem Local.trans (h : Local ip t t') (h' : Local ip t' t'') : Local ip t t'' := by
  obtain ⟨q, rfl, hinum, href, hread⟩ := h
  obtain ⟨q', rfl, hinum', href', hread'⟩ := h'
  rw [setEntry_self] at hinum' href' hread'
  refine ⟨q', setEntry_twice q q', hinum'.trans hinum, href'.trans href, fun hvalid => ?_⟩
  obtain ⟨hq, htype⟩ := hread hvalid
  obtain ⟨hq', htype'⟩ := hread' hq
  exact ⟨hq', htype'.trans htype⟩

theorem Local.read (h : Local ip t t') (hvalid : (t.inode ip).valid = true) :
    (t'.inode ip).valid = true ∧ (t'.inode ip).type = (t.inode ip).type := by
  obtain ⟨q, rfl, -, -, hread⟩ := h
  rw [setEntry_self]
  exact hread hvalid

theorem Local.other {j : Ip} (h : Local ip t t') (hj : j ≠ ip) : t'.inode j = t.inode j := by
  obtain ⟨q, rfl, -⟩ := h
  exact setEntry_other hj q

theorem Local.ref (h : Local ip t t') (j : Ip) : (t'.inode j).ref = (t.inode j).ref := by
  by_cases hj : j = ip
  · subst hj
    obtain ⟨q, rfl, -, href, -⟩ := h
    rw [setEntry_self, href]
  · rw [h.other hj]

theorem Local.inum (h : Local ip t t') (j : Ip) : (t'.inode j).inum = (t.inode j).inum := by
  by_cases hj : j = ip
  · subst hj
    obtain ⟨q, rfl, hinum, -⟩ := h
    rw [setEntry_self, hinum]
  · rw [h.other hj]

/-- A program is local to an entry. -/
structure IsLocal {α : Type} (ip : Ip) (p : FsM α) : Prop where
  ensures : ∀ t, p.Ensures (fun _ t' => Local ip t t') t

section Programs

variable {α γ : Type} {p : FsM α}

theorem isLocal_pure (a : α) : IsLocal ip (pure a : FsM α) := ⟨fun _ => local_refl⟩

theorem isLocal_panic {msg : String} : IsLocal ip (panic msg : FsM α) := ⟨fun _ => trivial⟩

theorem isLocal_stop {e : Stop} : IsLocal ip (.stop e : FsM α) := ⟨fun _ => trivial⟩

theorem IsLocal.bind {f : α → FsM γ} (hp : IsLocal ip p) (hf : ∀ a, IsLocal ip (f a)) :
    IsLocal ip (p >>= f) := by
  refine ⟨fun t => ensures_bind.mpr (ensures_mono (hp.ensures t) fun a t' h => ?_)⟩
  exact ensures_mono ((hf a).ensures t') fun _ _ h' => h.trans h'

theorem isLocal_ite {c : Prop} [Decidable c] {p' : FsM α} (h : IsLocal ip p) (h' : IsLocal ip p') :
    IsLocal ip (if c then p else p') := by
  split
  · exact h
  · exact h'

theorem isLocal_get : IsLocal ip (get : FsM Mem) := ⟨fun _ => local_refl⟩

theorem isLocal_inodeOf {j : Ip} : IsLocal ip (inodeOf j) := ⟨fun _ => local_refl⟩

theorem isLocal_setInode {f : Inode → Inode} (hinum : ∀ q, (f q).inum = q.inum)
    (href : ∀ q, (f q).ref = q.ref) (hvalid : ∀ q, (f q).valid = q.valid)
    (htype : ∀ q, (f q).type = q.type) : IsLocal ip (setInode ip f) :=
  ⟨fun _ => local_set (hinum _) (href _) fun h => ⟨(hvalid _).trans h, htype _⟩⟩

theorem isLocal_bread : IsLocal ip (bread b) := ⟨fun _ _ => local_refl⟩

theorem isLocal_store {d : Block} : IsLocal ip (store b d) := ⟨fun _ => local_refl⟩

theorem isLocal_brelse : IsLocal ip (brelse b) := ⟨fun _ => local_refl⟩

end Programs

/-! ### Blocks -/

theorem isLocal_bzero : IsLocal ip (bzero b) :=
  isLocal_bread.bind fun _ => isLocal_store.bind fun _ => isLocal_brelse

theorem isLocal_ballocLoop (sb : Superblock) (bs : List Nat) : IsLocal ip (ballocLoop sb bs) := by
  induction bs with
  | nil => exact isLocal_panic
  | cons b bs ih =>
    refine isLocal_bread.bind fun d => ?_
    split
    · exact isLocal_store.bind fun _ => isLocal_brelse.bind fun _ => isLocal_bzero.bind fun _ =>
        isLocal_pure _
    · exact isLocal_brelse.bind fun _ => ih

theorem isLocal_balloc : IsLocal ip balloc := isLocal_get.bind fun _ => isLocal_ballocLoop _ _

theorem isLocal_bfree : IsLocal ip (bfree b) := by
  unfold bfree
  refine isLocal_get.bind fun t => ?_
  refine isLocal_bread.bind fun d => ?_
  split
  · exact isLocal_panic
  · exact isLocal_store.bind fun _ => isLocal_brelse

/-! ### The content of an inode -/

theorem isLocal_iupdate {j : Ip} : IsLocal ip (iupdate j) :=
  isLocal_get.bind fun _ => isLocal_bread.bind fun _ => isLocal_store.bind fun _ => isLocal_brelse

theorem isLocal_setAddr (i a : Nat) : IsLocal ip (setInode ip fun q => q.setAddr i a) :=
  isLocal_setInode (fun _ => by rfl) (fun _ => by rfl) (fun _ => by rfl) fun _ => by rfl

theorem isLocal_mapAddr : IsLocal ip (mapAddr ip i) :=
  isLocal_inodeOf.bind fun _ => isLocal_ite
    (isLocal_balloc.bind fun _ => (isLocal_setAddr _ _).bind fun _ => isLocal_pure _)
    (isLocal_pure _)

theorem isLocal_mapEntry : IsLocal ip (mapEntry b i) :=
  isLocal_bread.bind fun _ => isLocal_ite
    (isLocal_balloc.bind fun _ => isLocal_store.bind fun _ => isLocal_brelse.bind fun _ =>
      isLocal_pure _)
    (isLocal_brelse.bind fun _ => isLocal_pure _)

theorem isLocal_bmap (bn : Nat) : IsLocal ip (bmap ip bn) := by
  unfold bmap
  dsimp only
  split
  · exact isLocal_mapAddr
  · split
    · exact isLocal_mapAddr.bind fun _ => isLocal_mapEntry
    · split
      · exact isLocal_mapAddr.bind fun _ => isLocal_mapEntry.bind fun _ => isLocal_mapEntry
      · split
        · exact isLocal_mapAddr.bind fun _ => isLocal_mapEntry.bind fun _ =>
            isLocal_mapEntry.bind fun _ => isLocal_mapEntry
        · exact isLocal_panic

theorem isLocal_readLoop (k off n : Nat) : IsLocal ip (readLoop ip k off n) := by
  induction k generalizing off n with
  | zero => exact isLocal_pure _
  | succ k ih =>
    exact isLocal_ite (isLocal_pure _) ((isLocal_bmap _).bind fun _ => isLocal_bread.bind fun _ =>
      isLocal_brelse.bind fun _ => (ih _ _).bind fun _ => isLocal_pure _)

theorem isLocal_writeLoop (src : Nat → UInt8) (k tot off n : Nat) :
    IsLocal ip (writeLoop ip src k tot off n) := by
  induction k generalizing tot off n with
  | zero => exact isLocal_pure _
  | succ k ih =>
    exact isLocal_ite (isLocal_pure _) ((isLocal_bmap _).bind fun _ => isLocal_bread.bind fun _ =>
      isLocal_store.bind fun _ => isLocal_brelse.bind fun _ => ih _ _ _)

theorem isLocal_acquireInode : IsLocal ip (acquireInode ip) :=
  isLocal_inodeOf.bind fun _ => isLocal_ite isLocal_stop
    (isLocal_setInode (fun _ => by rfl) (fun _ => by rfl) (fun _ => by rfl) fun _ => by rfl)

theorem isLocal_iunlock : IsLocal ip (iunlock ip) :=
  isLocal_inodeOf.bind fun _ => isLocal_ite isLocal_panic
    (isLocal_setInode (fun _ => by rfl) (fun _ => by rfl) (fun _ => by rfl) fun _ => by rfl)

/-- `ilock` reads an entry that has not been read, and locks it. -/
theorem ensures_ilock : (ilock ip).Ensures (fun _ t' => ∃ q, t' = t.setEntry ip q ∧
    q.inum = (t.inode ip).inum ∧ q.ref = (t.inode ip).ref ∧ q.valid = true ∧ q.locked = true ∧
    1 ≤ (t.inode ip).ref ∧ (t.inode ip).locked = false ∧
    ((t.inode ip).valid = true → q = { t.inode ip with locked := true })) t := by
  rw [ilock, ensures_bind, ensures_inodeOf]
  refine ensures_ite (fun _ => ensures_panic) fun href => ?_
  rw [Int.not_lt] at href
  rw [ensures_bind, acquireInode, ensures_bind, ensures_inodeOf]
  refine ensures_ite (fun _ => trivial) fun hlock => ?_
  rw [Bool.not_eq_true] at hlock
  rw [ensures_setInode]
  refine ensures_ite (fun hinvalid => ?_) fun hvalid => ?_
  · rw [ensures_bind, ensures_get, ensures_bind]
    refine ensures_bread fun d => ?_
    rw [ensures_bind, ensures_setInode, ensures_bind]
    refine ensures_brelse ?_
    rw [ensures_bind, ensures_setInode, ensures_bind, ensures_inodeOf]
    refine ensures_ite (fun _ => ensures_panic) fun _ => ?_
    rw [ensures_pure]
    simp only [setEntry_self, setEntry_twice]
    refine ⟨_, rfl, rfl, rfl, rfl, rfl, href, hlock, fun hvalid => ?_⟩
    rw [hinvalid] at hvalid
    cases hvalid
  · rw [Bool.not_eq_false] at hvalid
    rw [ensures_pure]
    exact ⟨_, rfl, rfl, rfl, hvalid, rfl, href, hlock, fun _ => rfl⟩

theorem isLocal_ilock : IsLocal ip (ilock ip) := by
  refine ⟨fun t => ensures_mono ensures_ilock fun _ t' h => ?_⟩
  obtain ⟨q, rfl, hinum, href, -, -, -, -, hsame⟩ := h
  exact local_set hinum href fun hvalid => by rw [hsame hvalid]; exact ⟨hvalid, rfl⟩

theorem isLocal_consoleRead (n : Nat) : IsLocal ip (consoleRead ip n) := by
  refine isLocal_iunlock.bind fun _ => isLocal_get.bind fun t => isLocal_ilock.bind fun _ => ?_
  split
  · exact isLocal_pure _
  · exact isLocal_pure _

theorem isLocal_readData (off n : Nat) : IsLocal ip (readData ip off n) :=
  isLocal_inodeOf.bind fun _ => isLocal_ite (isLocal_ite (isLocal_consoleRead n) (isLocal_pure _))
    (isLocal_ite (isLocal_pure _) ((isLocal_readLoop _ _ _).bind fun _ => isLocal_pure _))

theorem isLocal_writeData (src : Nat → UInt8) (off n : Nat) : IsLocal ip (writeData ip src off n) := by
  refine isLocal_inodeOf.bind fun _ => isLocal_ite (isLocal_ite ?_ (isLocal_pure _))
    (isLocal_ite (isLocal_pure _) (isLocal_ite (isLocal_pure _) ?_))
  · exact isLocal_iunlock.bind fun _ => isLocal_ilock.bind fun _ => isLocal_pure _
  · refine (isLocal_writeLoop src _ _ _ _).bind fun _ => isLocal_inodeOf.bind fun _ => isLocal_ite ?_
      (isLocal_pure _)
    exact (isLocal_setInode (fun _ => by rfl) (fun _ => by rfl) (fun _ => by rfl) fun _ => by rfl).bind fun _ => isLocal_iupdate.bind fun _ =>
      isLocal_pure _

theorem isLocal_readDirent {off : Nat} {msg : String} : IsLocal ip (readDirent ip off msg) :=
  (isLocal_readData off _).bind fun _ => isLocal_ite (isLocal_pure _) isLocal_panic

theorem isLocal_freeEntry (stop : Nat) (offs : List Nat) : IsLocal ip (freeEntry ip stop offs) := by
  induction offs with
  | nil => exact isLocal_pure _
  | cons off offs ih => exact isLocal_readDirent.bind fun _ => isLocal_ite (isLocal_pure _) ih

theorem isLocal_truncDirect (is : List Nat) : IsLocal ip (truncDirect ip is) := by
  induction is with
  | nil => exact isLocal_pure _
  | cons i is ih =>
    exact isLocal_inodeOf.bind fun _ => isLocal_ite
      (isLocal_bfree.bind fun _ => (isLocal_setAddr _ _).bind fun _ => ih) ih

theorem isLocal_truncEntries (d : Block) (js : List Nat) : IsLocal ip (truncEntries d js) := by
  induction js with
  | nil => exact isLocal_pure _
  | cons j js ih => exact isLocal_ite (isLocal_bfree.bind fun _ => ih) ih

theorem isLocal_itrunc : IsLocal ip (itrunc ip) := by
  refine (isLocal_truncDirect _).bind fun _ => IsLocal.bind ?_ fun _ =>
    (isLocal_setInode (fun _ => by rfl) (fun _ => by rfl) (fun _ => by rfl) fun _ => by rfl).bind fun _ => isLocal_iupdate
  exact isLocal_inodeOf.bind fun _ => isLocal_ite (isLocal_bread.bind fun _ =>
    (isLocal_truncEntries _ _).bind fun _ => isLocal_brelse.bind fun _ => isLocal_bfree.bind fun _ =>
      isLocal_setAddr _ _) (isLocal_pure _)

/-! ### Looking up, reading and releasing an entry -/

/-- `iget(inum)` has given `ip`: an entry that is in use for the inode, or a recycled one. -/
inductive Got (t : Mem) (inum : Nat) (ip : Ip) : Mem → Prop
  | hit (href : 0 < (t.inode ip).ref) (hinum : (t.inode ip).inum = inum) :
      Got t inum ip (t.setEntry ip { t.inode ip with ref := (t.inode ip).ref + 1 })
  | miss (hnone : ∀ j, 0 < (t.inode j).ref → (t.inode j).inum ≠ inum) (href : (t.inode ip).ref = 0) :
      Got t inum ip (t.setEntry ip { t.inode ip with inum := inum, ref := 1, valid := false })

theorem ensures_iget {inum : Nat} : (iget inum).Ensures (fun ip t' => Got t inum ip t') t := by
  rw [iget, ensures_bind, ensures_get]
  split
  · rename_i ip hfind
    have hfound := List.find?_some hfind
    rw [decide_eq_true_eq] at hfound
    rw [ensures_bind, ensures_setInode, ensures_pure]
    exact .hit hfound.1 hfound.2
  · rename_i hnone
    split
    · exact ensures_panic
    · rename_i ip hfind
      have hfound := List.find?_some hfind
      rw [decide_eq_true_eq] at hfound
      rw [ensures_bind, ensures_setInode, ensures_pure]
      refine .miss (fun j href hinum => ?_) hfound
      have hno := List.find?_eq_none.mp hnone j (List.mem_finRange j)
      exact hno (decide_eq_true ⟨href, hinum⟩)

theorem ensures_idup : (idup ip).Ensures
    (fun r t' => r = ip ∧ t' = t.setEntry ip { t.inode ip with ref := (t.inode ip).ref + 1 }) t := by
  rw [idup, ensures_bind, ensures_setInode, ensures_pure]
  exact ⟨rfl, rfl⟩

theorem ensures_iunlock : (iunlock ip).Ensures
    (fun _ t' => t' = t.setEntry ip { t.inode ip with locked := false }) t := by
  rw [iunlock, ensures_bind, ensures_inodeOf]
  refine ensures_ite (fun _ => ensures_panic) fun _ => ?_
  rw [ensures_setInode]

/-- `iput` gives a reference back; it changes the content of the entry only if it was the last
    reference to an inode without links. -/
theorem ensures_iput : (iput ip).Ensures (fun _ t' => ∃ q, t' = t.setEntry ip q ∧
    q.inum = (t.inode ip).inum ∧ q.ref = (t.inode ip).ref - 1 ∧ (t.inode ip).locked = false ∧
    (¬ ((t.inode ip).valid = true ∧ (t.inode ip).nlink = 0 ∧ (t.inode ip).ref = 1) →
      q = { t.inode ip with ref := (t.inode ip).ref - 1 })) t := by
  rw [iput, ensures_bind, acquireInode, ensures_bind, ensures_inodeOf]
  refine ensures_ite (fun _ => trivial) fun hlock => ?_
  rw [Bool.not_eq_true] at hlock
  rw [ensures_setInode, ensures_bind, ensures_inodeOf, setEntry_self]
  by_cases hlast : (t.inode ip).valid = true ∧ (t.inode ip).nlink = 0 ∧ (t.inode ip).ref = 1
  · rw [if_pos hlast]
    rw [ensures_bind]
    refine ensures_mono (isLocal_itrunc.ensures _) fun _ t₁ h₁ => ?_
    obtain ⟨q₁, rfl, hinum₁, href₁, -⟩ := h₁
    rw [setEntry_self] at hinum₁ href₁
    rw [ensures_bind, ensures_setInode, ensures_bind]
    refine ensures_iupdate ?_
    rw [ensures_bind, ensures_setInode, ensures_setInode]
    simp only [setEntry_self, setEntry_twice]
    exact ⟨_, rfl, hinum₁, congrArg (· - 1) href₁, hlock, fun h => absurd hlast h⟩
  · rw [if_neg hlast]
    refine (ensures_setInode _).mpr ?_
    rw [setEntry_self, setEntry_twice]
    refine ⟨_, rfl, rfl, rfl, hlock, fun _ => ?_⟩
    rw [← hlock]

end Xv6.File
