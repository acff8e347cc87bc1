import Xv6.File.Dinode
import Xv6.File.Entries

namespace Xv6.File

open Xv6.Lib
open Xv6.Fs (Block BSIZE Stop)

/-!
# Files — reading through a symbolic link

`readi` on a symbolic link looks the target up and reads from the entry that it gets, without
`ilock`.

* `Pinned` — an entry that others hold as well keeps its content while a path is looked up;
* `IgnoresLock` — reading the data of an inode does not depend on its lock;
* `symlink_reads` — the link reads like the target if the target has been read into the inode
  cache; an entry that has not been read gives whatever was left in it.
-/

variable {t t' : Mem} {ip e : Ip} {q₀ : Inode} {o : Ip → Int}

/-! ### Looking up a path -/

/-- The entry `e` is the only one for its inode and is as in `q₀`, but for the references `o` of
    the code that is running. -/
structure Pinned (q₀ : Inode) (e : Ip) (t : Mem) (o : Ip → Int) : Prop where
  entry : t.inode e = { q₀ with ref := q₀.ref + o e }
  unique : ∀ j, 0 < (t.inode j).ref → (t.inode j).inum = q₀.inum → j = e
  own : ∀ j, o j ≤ (t.inode j).ref

/-- An entry that can be pinned: somebody holds a reference to it, it has been read, nobody has
    locked it, and it is not for a directory. -/
structure InUse (q₀ : Inode) : Prop where
  ref : 1 ≤ q₀.ref
  valid : q₀.valid = true
  locked : q₀.locked = false
  type : q₀.type ≠ T_DIR

theorem Pinned.congr {o' : Ip → Int} (h : Pinned q₀ e t o) (ho : ∀ j, o j = o' j) :
    Pinned q₀ e t o' := (funext ho : o = o') ▸ h

theorem Pinned.local (h : Pinned q₀ e t o) (hne : ip ≠ e) (hlocal : Local ip t t') :
    Pinned q₀ e t' o := by
  refine ⟨(hlocal.other hne.symm).trans h.entry, fun j href hinum => ?_, fun j => ?_⟩
  · rw [hlocal.ref] at href
    rw [hlocal.inum] at hinum
    exact h.unique j href hinum
  · rw [hlocal.ref]
    exact h.own j

/-- A change of one entry. -/
theorem Pinned.set {q : Inode} {o' : Ip → Int} (h : Pinned q₀ e t o)
    (hself : ip = e → q = { q₀ with ref := q₀.ref + o' e })
    (hother : ip ≠ e → 0 < q.ref → q.inum ≠ q₀.inum) (ho : ∀ j, j ≠ ip → o' j = o j)
    (hown : o' ip ≤ q.ref) : Pinned q₀ e (t.setEntry ip q) o' := by
  refine ⟨?_, fun j hj hjnum => ?_, fun j => ?_⟩
  · by_cases hip : ip = e
    · subst hip
      rw [setEntry_self, hself rfl]
    · rw [setEntry_other (Ne.symm hip), h.entry, ho e (Ne.symm hip)]
  · by_cases hji : j = ip
    · subst hji
      rw [setEntry_self] at hj hjnum
      by_contra hje
      exact hother hje hj hjnum
    · rw [setEntry_other hji] at hj hjnum
      exact h.unique j hj hjnum
  · by_cases hji : j = ip
    · subst hji
      rw [setEntry_self]
      exact hown
    · rw [setEntry_other hji, ho j hji]
      exact h.own j

theorem Pinned.got {inum : Nat} (h : Pinned q₀ e t o) (hq : InUse q₀) (ho : 0 ≤ o e)
    (hgot : Got t inum ip t') : Pinned q₀ e t' fun j => o j + one (some ip) j := by
  have hpos : 0 < (t.inode e).ref := by
    have href := hq.ref
    rw [h.entry]
    show 0 < q₀.ref + o e
    omega
  have hkeep : ∀ j, j ≠ ip → o j + one (some ip) j = o j := fun j hj => by
    rw [one_other (Ne.symm hj), Int.add_zero]
  cases hgot with
  | hit hipos hinum =>
    refine h.set ?_ ?_ hkeep ?_
    · rintro rfl
      rw [h.entry, one_self]
      dsimp only
      rw [Int.add_assoc]
    · exact fun hip _ hsame => hip (h.unique ip hipos hsame)
    · rw [one_self]
      exact Int.add_le_add_right (h.own ip) 1
  | miss hnone hzero =>
    refine h.set ?_ ?_ hkeep ?_
    · rintro rfl
      omega
    · rintro - - rfl
      exact hnone e hpos (by rw [h.entry])
    · have hip := h.own ip
      rw [one_self]
      show o ip + 1 ≤ 1
      omega

/-- Giving back a reference; for the pinned entry it is not the last one. -/
theorem Pinned.iput (h : Pinned q₀ e t fun j => o j + one (some ip) j) (hq : InUse q₀)
    (ho : 0 ≤ o e) : (iput ip).Ensures (fun _ t' => Pinned q₀ e t' o) t := by
  have href := hq.ref
  have hown := h.own ip
  rw [one_self] at hown
  refine ensures_mono ensures_iput fun _ t' ht' => ?_
  obtain ⟨q, rfl, hinum, hqref, -, hsame⟩ := ht'
  refine h.set ?_ ?_ (fun j hj => by rw [one_other (Ne.symm hj), Int.add_zero]) (by omega)
  · rintro rfl
    rw [hsame (by rw [h.entry, one_self]; rintro ⟨-, -, hlast⟩; dsimp only at hlast; omega), h.entry,
      one_self]
    dsimp only
    rw [← Int.add_assoc, Int.add_sub_cancel]
  · intro hip hpos hsame
    exact hip (h.unique ip (by omega) (hinum ▸ hsame))

theorem Pinned.iunlock (h : Pinned q₀ e t o) (hq : InUse q₀) :
    (iunlock ip).Ensures (fun _ t' => Pinned q₀ e t' o) t := by
  refine ensures_mono ensures_iunlock fun _ t' ht' => ?_
  subst ht'
  by_cases hip : ip = e
  · subst hip
    have hsame : { t.inode ip with locked := false } = t.inode ip := by
      rw [h.entry]
      dsimp only
      rw [hq.locked]
    rw [hsame, setEntry_inode]
    exact h
  · exact h.local hip (local_set rfl rfl fun hvalid => ⟨hvalid, rfl⟩)

theorem Pinned.iunlockput (h : Pinned q₀ e t fun j => o j + one (some ip) j) (hq : InUse q₀)
    (ho : 0 ≤ o e) : (iunlockput ip).Ensures (fun _ t' => Pinned q₀ e t' o) t := by
  rw [File.iunlockput, ensures_bind]
  exact ensures_mono (h.iunlock hq) fun _ t' ht' => ht'.iput hq ho

/-- What a lookup leaves: the result holds a reference. -/
def Found (q₀ : Inode) (e : Ip) (o : Ip → Int) (r : Option Ip) (t : Mem) : Prop :=
  Pinned q₀ e t fun j => o j + one r j

theorem Pinned.lookupLoop {name : List UInt8} {offs : List Nat} (h : Pinned q₀ e t o)
    (hq : InUse q₀) (ho : 0 ≤ o e) (hne : ip ≠ e) :
    (lookupLoop ip name offs).Ensures (fun r t' => Found q₀ e o (r.map fun x => x.1) t') t := by
  induction offs generalizing t with
  | nil => exact h.congr fun j => by rw [Option.map_none, one_none, Int.add_zero]
  | cons off offs ih =>
    have hread : IsLocal ip (readDirent ip off "dirlookup read") :=
      (isLocal_readData off _).bind fun r => isLocal_ite (isLocal_pure _) isLocal_panic
    rw [File.lookupLoop, ensures_bind]
    refine ensures_mono (hread.ensures t) fun de t₁ h₁ => ?_
    have hp₁ := h.local hne h₁
    refine ensures_ite (fun _ => ?_) fun _ => ih hp₁
    rw [ensures_bind]
    exact ensures_mono ensures_iget fun r t₂ h₂ => hp₁.got hq ho h₂

theorem Pinned.dirlookup {name : List UInt8} (h : Pinned q₀ e t o) (hq : InUse q₀) (ho : 0 ≤ o e)
    (hne : ip ≠ e) :
    (dirlookup ip name).Ensures (fun r t' => Found q₀ e o (r.map fun x => x.1) t') t := by
  rw [File.dirlookup, ensures_bind, ensures_inodeOf]
  exact ensures_ite (fun _ => ensures_panic) fun _ => h.lookupLoop hq ho hne

/-- The loop of `namex` exchanges its reference for one to the result. -/
theorem Pinned.namexLoop {parent : Bool} {k : Nat} {path : List UInt8}
    (h : Pinned q₀ e t fun j => o j + one (some ip) j) (hq : InUse q₀) (ho : 0 ≤ o e) :
    (namexLoop parent k ip path).Ensures (fun r t' => Found q₀ e o (r.map fun x => x.1) t') t := by
  have hnone : ∀ {t' : Mem}, Pinned q₀ e t' o → Found q₀ e o none t' := fun ht' =>
    ht'.congr fun j => by rw [one_none, Int.add_zero]
  induction k generalizing t ip path with
  | zero => trivial
  | succ k ih =>
    rw [File.namexLoop]
    split
    · -- the end of the path
      split
      · rw [ensures_bind]
        exact ensures_mono (h.iput hq ho) fun _ _ ht' => hnone ht'
      · exact h
    · rename_i name rest _
      rw [ensures_bind]
      refine ensures_mono ensures_ilock fun _ t₁ h₁ => ?_
      obtain ⟨q, rfl, hinum, href, -, -, -, -, hsame⟩ := h₁
      rw [ensures_bind, ensures_inodeOf, setEntry_self]
      by_cases hip : ip = e
      · -- the pinned entry is not for a directory
        subst hip
        have hval : (t.inode ip).valid = true := by rw [h.entry]; exact hq.valid
        have htype : q.type ≠ T_DIR := by
          rw [hsame hval, h.entry]
          exact hq.type
        rw [if_pos htype, ensures_bind, File.iunlockput, ensures_bind]
        refine ensures_mono ensures_iunlock fun _ t₂ h₂ => ?_
        have hback : t₂ = t := by
          have hlocked : (t.inode ip).locked = false := by rw [h.entry]; exact hq.locked
          rw [h₂, setEntry_self, setEntry_twice, hsame hval]
          dsimp only
          rw [← hlocked, setEntry_inode]
        rw [hback]
        exact ensures_mono (h.iput hq ho) fun _ _ ht' => hnone ht'
      · have hp₁ := h.local hip (local_set hinum href fun hvalid => by
          rw [hsame hvalid]
          exact ⟨hvalid, rfl⟩)
        refine ensures_ite (fun _ => ?_) fun _ => ensures_ite (fun _ => ?_) fun _ => ?_
        · rw [ensures_bind]
          exact ensures_mono (hp₁.iunlockput hq ho) fun _ _ ht' => hnone ht'
        · rw [ensures_bind]
          exact ensures_mono (hp₁.iunlock hq) fun _ _ ht' => ht'
        · rw [ensures_bind]
          have hoe : 0 ≤ o e + one (some ip) e := Int.add_nonneg ho (one_nonneg _)
          refine ensures_mono (hp₁.dirlookup hq hoe hip) fun r t₂ h₂ => ?_
          cases r with
          | none =>
            refine ensures_bind.mpr (ensures_mono (Pinned.iunlockput ?_ hq ho) fun _ _ ht' => hnone ht')
            exact Pinned.congr h₂ fun j => by rw [Option.map_none, one_none, Int.add_zero]
          | some x =>
            obtain ⟨next, off⟩ := x
            have hnext : 0 ≤ o e + one (some next) e := Int.add_nonneg ho (one_nonneg _)
            refine ensures_bind.mpr (ensures_mono (Pinned.iunlockput ?_ hq hnext) fun _ t₃ h₃ => ih h₃)
            exact Pinned.congr h₂ fun j => by rw [Int.add_right_comm]; rfl

/-- `namei` from a process whose working directory is in use. -/
theorem Pinned.namei {path : List UInt8} (h : Pinned q₀ e t fun _ => 0) (hq : InUse q₀)
    (hcwd : 0 < (t.inode t.cwd).ref) :
    (namei path).Ensures (fun r t' => Pinned q₀ e t' (one r)) t := by
  have hpost : ∀ {r : Option Ip} {t' : Mem}, Found q₀ e (fun _ => 0) r t' → Pinned q₀ e t' (one r) :=
    fun ht' => Pinned.congr ht' fun j => Int.zero_add _
  rw [File.namei, ensures_bind, namex]
  refine ensures_ite (fun _ => ?_) fun _ => ?_
  · rw [ensures_bind]
    refine ensures_mono ensures_iget fun ip t₁ h₁ => ?_
    exact ensures_mono (Pinned.namexLoop (h.got hq (Int.le_refl 0) h₁) hq (Int.le_refl 0))
      fun r _ ht' => hpost ht'
  · rw [ensures_bind, ensures_get, ensures_bind]
    refine ensures_mono ensures_idup fun ip t₁ h₁ => ?_
    obtain ⟨rfl, rfl⟩ := h₁
    refine ensures_mono (Pinned.namexLoop ?_ hq (Int.le_refl 0)) fun r _ ht' => hpost ht'
    refine h.set ?_ ?_ (fun j hj => by rw [one_other (Ne.symm hj)]; rfl) ?_
    · rintro rfl
      rw [h.entry, one_self]
      dsimp only
      rw [Int.add_assoc]
    · exact fun hne _ hsame => hne (h.unique _ hcwd hsame)
    · rw [one_self]
      show 0 + 1 ≤ (t.inode t.cwd).ref + 1
      omega

/-! ### The lock of an inode -/

/-- The states differ only in the lock of `e`, which is taken in the second. -/
def UpToLock (e : Ip) (t t' : Mem) : Prop := t' = t.setEntry e { t.inode e with locked := true }

/-- What a program does does not depend on the lock of `e`. -/
structure IgnoresLock {α : Type} (e : Ip) (p : FsM α) : Prop where
  alike : ∀ t t', UpToLock e t t' →
    Prog.Alike (fun a t a' t' => a = a' ∧ UpToLock e t t') p t p t'

section Programs

variable {α γ : Type} {p : FsM α} {b i : Nat}

theorem ignoresLock_pure (a : α) : IgnoresLock e (pure a : FsM α) := ⟨fun _ _ h => .ret ⟨rfl, h⟩⟩

theorem ignoresLock_stop {x : Stop} : IgnoresLock e (.stop x : FsM α) := ⟨fun _ _ _ => .stop⟩

theorem ignoresLock_panic {msg : String} : IgnoresLock e (panic msg : FsM α) := ignoresLock_stop

theorem IgnoresLock.bind {f : α → FsM γ} (hp : IgnoresLock e p) (hf : ∀ a, IgnoresLock e (f a)) :
    IgnoresLock e (p >>= f) := by
  refine ⟨fun t t' h => alike_bind (hp.alike t t' h) ?_⟩
  rintro a t₁ a' t₁' ⟨rfl, h₁⟩
  exact (hf a).alike t₁ t₁' h₁

theorem ignoresLock_bread : IgnoresLock e (bread b) := ⟨fun _ _ h => .bread fun _ => .ret ⟨rfl, h⟩⟩

theorem ignoresLock_store {d : Block} : IgnoresLock e (store b d) :=
  ⟨fun _ _ h => .store (.ret ⟨rfl, h⟩)⟩

theorem ignoresLock_brelse : IgnoresLock e (brelse b) := ⟨fun _ _ h => .brelse (.ret ⟨rfl, h⟩)⟩

/-- The super block is the same. -/
theorem ignoresLock_sb {f : Mem → FsM γ} (hf : ∀ t, IgnoresLock e (f t))
    (hsb : ∀ t t' : Mem, t'.sb = t.sb → f t' = f t) : IgnoresLock e (get >>= f) := by
  refine ⟨fun t t' h => .get_left (.get_right ?_)⟩
  show Prog.Alike _ (f t) t (f t') t'
  rw [hsb t t' (by rw [h]; rfl)]
  exact (hf t).alike t t' h

/-- The fields of `e` are the same, except for the lock. -/
theorem ignoresLock_inodeOf {f : Inode → FsM γ} (hf : ∀ q, IgnoresLock e (f q))
    (hlock : ∀ q : Inode, f { q with locked := true } = f q) : IgnoresLock e (inodeOf e >>= f) := by
  refine ⟨fun t t' h => .get_left (.get_right ?_)⟩
  show Prog.Alike _ (f (t.inode e)) t (f (t'.inode e)) t'
  have hentry : t'.inode e = { t.inode e with locked := true } := by rw [h, setEntry_self]
  rw [hentry, hlock]
  exact (hf _).alike t t' h

theorem ignoresLock_setInode {f : Inode → Inode}
    (hf : ∀ q : Inode, f { q with locked := true } = { f q with locked := true }) :
    IgnoresLock e (setInode e f) := by
  refine ⟨fun t t' h => .get_left (.get_right (.set_left (.set_right (.ret ⟨rfl, ?_⟩))))⟩
  show t'.setEntry e (f (t'.inode e)) = (t.setEntry e (f (t.inode e))).setEntry e
    { (t.setEntry e (f (t.inode e))).inode e with locked := true }
  rw [h]
  simp only [setEntry_self, setEntry_twice, hf]

theorem ignoresLock_ballocLoop (sb : Superblock) (bs : List Nat) :
    IgnoresLock e (ballocLoop sb bs) := by
  have hzero : ∀ b, IgnoresLock e (bzero b) := fun b =>
    ignoresLock_bread.bind fun _ => ignoresLock_store.bind fun _ => ignoresLock_brelse
  induction bs with
  | nil => exact ignoresLock_panic
  | cons b bs ih =>
    refine ignoresLock_bread.bind fun d => ?_
    split
    · exact ignoresLock_store.bind fun _ => ignoresLock_brelse.bind fun _ => (hzero _).bind fun _ =>
        ignoresLock_pure _
    · exact ignoresLock_brelse.bind fun _ => ih

theorem ignoresLock_balloc : IgnoresLock e balloc :=
  ignoresLock_sb (fun _ => ignoresLock_ballocLoop _ _) fun t t' h => by rw [h]

theorem ignoresLock_mapAddr : IgnoresLock e (mapAddr e i) := by
  refine ignoresLock_inodeOf (fun q => ?_) fun _ => rfl
  split
  · exact ignoresLock_balloc.bind fun _ => (ignoresLock_setInode fun _ => rfl).bind fun _ =>
      ignoresLock_pure _
  · exact ignoresLock_pure _

theorem ignoresLock_mapEntry : IgnoresLock e (mapEntry b i) := by
  refine ignoresLock_bread.bind fun d => ?_
  split
  · exact ignoresLock_balloc.bind fun _ => ignoresLock_store.bind fun _ =>
      ignoresLock_brelse.bind fun _ => ignoresLock_pure _
  · exact ignoresLock_brelse.bind fun _ => ignoresLock_pure _

theorem ignoresLock_bmap (bn : Nat) : IgnoresLock e (bmap e bn) := by
  unfold bmap
  dsimp only
  split
  · exact ignoresLock_mapAddr
  · split
    · exact ignoresLock_mapAddr.bind fun _ => ignoresLock_mapEntry
    · split
      · exact ignoresLock_mapAddr.bind fun _ => ignoresLock_mapEntry.bind fun _ =>
          ignoresLock_mapEntry
      · split
        · exact ignoresLock_mapAddr.bind fun _ => ignoresLock_mapEntry.bind fun _ =>
            ignoresLock_mapEntry.bind fun _ => ignoresLock_mapEntry
        · exact ignoresLock_panic

theorem ignoresLock_readLoop (k off n : Nat) : IgnoresLock e (readLoop e k off n) := by
  induction k generalizing off n with
  | zero => exact ignoresLock_pure _
  | succ k ih =>
    unfold readLoop
    split
    · exact ignoresLock_pure _
    · exact (ignoresLock_bmap _).bind fun _ => ignoresLock_bread.bind fun _ =>
        ignoresLock_brelse.bind fun _ => (ih _ _).bind fun _ => ignoresLock_pure _

end Programs

/-- Reading the data of an inode that is not a device does not depend on its lock. -/
theorem alike_readData {off n : Nat} (h : UpToLock e t t') (htype : (t.inode e).type ≠ T_DEV) :
    Prog.Alike (fun a t a' t' => a = a' ∧ UpToLock e t t') (readData e off n) t (readData e off n) t' := by
  have hentry : t'.inode e = { t.inode e with locked := true } := by rw [h, setEntry_self]
  have hrest : ∀ z, IgnoresLock e (if z < off ∨ (off + n) % 2 ^ 32 < off then pure (-1, [])
      else do
        let ds ← readLoop e ((if z < off + n then z - off else n) / BSIZE + 2) off
          (if z < off + n then z - off else n)
        pure (((if z < off + n then z - off else n : Nat) : Int), ds) : FsM (Int × List UInt8)) := by
    intro z
    split
    · exact ignoresLock_pure _
    · exact (ignoresLock_readLoop _ _ _).bind fun _ => ignoresLock_pure _
  refine .get_left (.get_right ?_)
  show Prog.Alike _ (if (t.inode e).type = T_DEV then _ else _) t
    (if (t'.inode e).type = T_DEV then _ else _) t'
  rw [hentry]
  dsimp only
  rw [if_neg htype]
  exact (hrest _).alike t t' h

/-! ### Links -/

/-- `namei` for the path of the target, `ilock`, and `readi`. -/
def readTarget (path : List UInt8) (off n : Nat) : FsM (Int × List UInt8) := do
  match ← namei path with
  | none => pure (-1, [])
  | some ip => do
    ilock ip
    readi ip off n

/-- The same result; the second program has locked the target as well. -/
def SameRead (e : Ip) (r : Int × List UInt8) (t : Mem) (r' : Int × List UInt8) (t' : Mem) : Prop :=
  r = r' ∧ (t' = t ∨ UpToLock e t t')

section Links

variable {σ : Type} {D : Device Block Stop σ} {dev : σ} {s : Ip} {path : List UInt8} {off n : Nat}

/-- `ilock` of an entry that has been read only takes the lock. -/
theorem run_ilock (hq : InUse (t.inode e)) :
    (ilock e).run D (t, dev) = .ok () (t.setEntry e { t.inode e with locked := true }, dev) := by
  have href : ¬ (t.inode e).ref < 1 := Int.not_lt.mpr hq.ref
  have hrun : wp ((ilock e).run D) (fun _ x => x = (t.setEntry e { t.inode e with locked := true }, dev))
      (fun _ _ => False) (t, dev) := by
    rw [ilock, wp_run_bind]
    show wp ((if (t.inode e).ref < 1 then _ else _ : FsM Unit).run D) _ _ (t, dev)
    rw [if_neg href, wp_run_bind, acquireInode, wp_run_bind]
    show wp ((if (t.inode e).locked = true then _ else _ : FsM Unit).run D) _ _ (t, dev)
    rw [if_neg (by rw [hq.locked]; decide)]
    show wp ((if (t.inode e).valid = false then _ else _ : FsM Unit).run D) _ _ (_, dev)
    rw [if_neg (by rw [hq.valid]; decide)]
    rfl
  obtain ⟨_, x, hok, rfl⟩ := wp_returns hrun
  exact hok

/-- `readi` of an inode that is not a link. -/
theorem run_readi (htype : (t.inode e).type ≠ T_SYMLINK) :
    ((readi e off n).run D) (t, dev) = ((readData e off n).run D) (t, dev) := by
  have hresolve : ((resolve e).run D) (t, dev) = .ok (some e) (t, dev) := by
    rw [resolve, run_bind]
    refine (bind_ok (show ((inodeOf e).run D) (t, dev) = .ok (t.inode e) (t, dev) from rfl)).trans ?_
    rw [if_neg htype]
    rfl
  rw [readi, run_bind]
  exact (bind_ok hresolve).trans rfl

/-- Reading from an entry that has been read is the same with and without `ilock`. -/
theorem readData_locked (he : InUse (t.inode e)) (hfile : (t.inode e).type = T_FILE) :
    SameEnd (SameRead e) ((readData e off n).run D (t, dev))
      ((do ilock e; readi e off n : FsM (Int × List UInt8)).run D (t, dev)) := by
  have hlocked : ((t.setEntry e { t.inode e with locked := true }).inode e).type = T_FILE := by
    rw [setEntry_self]
    exact hfile
  rw [run_bind, bind_ok (run_ilock he), run_readi (by rw [hlocked]; decide)]
  exact ((alike_readData (rfl : UpToLock e t _) (by rw [hfile]; decide)).run D dev).mono
    fun _ _ _ _ h => ⟨h.1, .inr h.2⟩

/-- `readi` of a link whose target has been read into the inode cache is `readi` of the target. -/
theorem readi_link (hs : (t.inode s).type = T_SYMLINK) (hpath : (t.inode s).path = some path)
    (hcwd : 0 < (t.inode t.cwd).ref) (hrefs : ∀ j, 0 ≤ (t.inode j).ref) (he : InUse (t.inode e))
    (hfile : (t.inode e).type = T_FILE)
    (hunique : ∀ j, 0 < (t.inode j).ref → (t.inode j).inum = (t.inode e).inum → j = e)
    (hname : ∀ ip t₁ dev₁, (namei path).run D (t, dev) = .ok (some ip) (t₁, dev₁) →
      (t₁.inode ip).inum = (t.inode e).inum) :
    SameEnd (SameRead e) ((readi s off n).run D (t, dev)) ((readTarget path off n).run D (t, dev)) := by
  have hresolve : ((resolve s).run D) (t, dev) = ((namei path).run D) (t, dev) := by
    rw [resolve, run_bind]
    refine (bind_ok (show ((inodeOf s).run D) (t, dev) = .ok (t.inode s) (t, dev) from rfl)).trans ?_
    rw [if_pos hs, hpath]
  have hpin : Pinned (t.inode e) e t fun _ => 0 := ⟨by rw [Int.add_zero], hunique, hrefs⟩
  rw [readi, readTarget, run_bind, run_bind]
  cases hrun : ((namei path).run D) (t, dev) with
  | error x y =>
    rw [bind_error hrun, bind_error (hresolve.trans hrun)]
    exact .error
  | ok r x =>
    obtain ⟨t₁, dev₁⟩ := x
    rw [bind_ok hrun, bind_ok (hresolve.trans hrun)]
    have hlook : (namei path).Ensures (fun r t' => Pinned (t.inode e) e t' (one r)) t :=
      hpin.namei he hcwd
    have hend := wp_ok (hlook.run D dev) hrun
    cases r with
    | none => exact .ok ⟨rfl, .inl rfl⟩
    | some ip =>
      -- the lookup ends at the entry of the target
      have hip : ip = e := by
        have hown := hend.own ip
        rw [one_self] at hown
        exact hend.unique ip hown (hname ip t₁ dev₁ hrun)
      subst hip
      have hentry := hend.entry
      have he₁ : InUse (t₁.inode ip) := by
        rw [hentry, one_self]
        exact ⟨by have := he.ref; dsimp only; omega, he.valid, he.locked, he.type⟩
      exact readData_locked he₁ (by rw [hentry]; exact hfile)

end Links

/-- What may be left in an entry of the inode cache: anything, if it has not been read. -/
structure LeftOver (p q : Inode) : Prop where
  inum : q.inum = p.inum
  ref : q.ref = p.ref
  locked : q.locked = p.locked
  valid : q.valid = p.valid
  same : p.valid = true → q = p

/-- The result of the first byte behind the first one. -/
theorem run_readData_one {σ : Type} {D : Device Block Stop σ} {dev : σ}
    (htype : (t.inode ip).type ≠ T_DEV) : ((readData ip 1 0).run D) (t, dev) =
      .ok (if (t.inode ip).size < 1 then (-1, []) else (0, [])) (t, dev) := by
  rw [readData, run_bind]
  refine (bind_ok (show ((inodeOf ip).run D) (t, dev) = .ok (t.inode ip) (t, dev) from rfl)).trans ?_
  rw [if_neg htype]
  by_cases hsize : (t.inode ip).size < 1
  · rw [if_pos (.inl hsize), if_pos hsize]
    rfl
  · rw [if_neg (by rintro (h | h); exact hsize h; omega), if_neg hsize]
    have hle : ¬ (t.inode ip).size < 1 + 0 := hsize
    rw [if_neg hle]
    rfl

/-- An entry of a file reads like the locked file, whatever is left in it, if and only if it has been
    read. -/
theorem readData_unread {S : Nat → Prop} [DecidablePred S] {data : Nat → Block}
    (hl : Layout S t.sb) (hlt : (t.inode ip).inum < t.sb.ninodes) (href : 1 ≤ (t.inode ip).ref)
    (hunlocked : (t.inode ip).locked = false)
    (hstored : (stored t.sb data (t.inode ip).inum).type = T_FILE)
    (hfile : (t.inode ip).valid = true → (t.inode ip).type = T_FILE) :
    (∀ q, LeftOver (t.inode ip) q → ∀ off n, SameEnd (fun r _ r' _ => r = r')
      ((readData ip off n).run (array S) (t.setEntry ip q, ⟨data, []⟩))
      ((do ilock ip; readi ip off n : FsM (Int × List UInt8)).run (array S)
        (t.setEntry ip q, ⟨data, []⟩))) ↔ (t.inode ip).valid = true := by
  constructor
  · intro hall
    by_contra hinvalid
    rw [Bool.not_eq_true] at hinvalid
    -- a size that is wrong for the offset 1
    obtain ⟨z, hz⟩ : ∃ z, z = (stored t.sb data (t.inode ip).inum).size := ⟨_, rfl⟩
    obtain ⟨q, hq⟩ : ∃ q : Inode, q = { t.inode ip with
      type := T_FILE, size := if z < 1 then 1 else 0 } := ⟨_, rfl⟩
    have hleft : LeftOver (t.inode ip) q := by
      rw [hq]
      exact ⟨rfl, rfl, rfl, rfl, fun h => absurd (h.symm.trans hinvalid) (by decide)⟩
    have hsame := hall q hleft 1 0
    have htype : ((t.setEntry ip q).inode ip).type ≠ T_DEV := by
      rw [setEntry_self, hq]
      show T_FILE ≠ T_DEV
      decide
    have hlock : wp ((ilock ip).run (array S)) (fun _ x => ∃ q', x = (t.setEntry ip q', ⟨data, []⟩) ∧
        q'.type = T_FILE ∧ q'.size = z) (fun _ _ => False) (t.setEntry ip q, ⟨data, []⟩) := by
      have hentry : (t.setEntry ip q).inode ip = q := setEntry_self q
      refine wp_mono (wp_ilock (t := t.setEntry ip q) hl (by rw [hentry, hleft.inum]; exact hlt))
        (fun _ x hx => ?_) fun _ _ hx => ?_
      · obtain ⟨q', rfl, -, -, -, -, -, hdinode⟩ := hx
        rw [hentry, hleft.valid, hinvalid, if_neg (by decide), hleft.inum] at hdinode
        have hfields : q'.dinode = stored t.sb data (t.inode ip).inum := hdinode
        refine ⟨q', ?_, ?_, ?_⟩
        · exact congrArg (·, _) (setEntry_twice q q')
        · exact (congrArg Dinode.type hfields).trans hstored
        · rw [hz]
          exact congrArg Dinode.size hfields
      · rw [hentry, hleft.ref, hleft.locked, hleft.inum] at hx
        rcases hx with hx | hx | hx
        · omega
        · rw [hunlocked] at hx
          cases hx
        · rw [show (stored (t.setEntry ip q).sb data (t.inode ip).inum).type = T_FILE from hstored] at hx
          cases hx
    obtain ⟨_, x, hrun, q', rfl, htype', hsize'⟩ := wp_returns hlock
    have hentry' : (t.setEntry ip q').inode ip = q' := setEntry_self q'
    rw [run_readData_one htype, run_bind, bind_ok hrun,
      run_readi (by rw [hentry', htype']; decide), run_readData_one (by rw [hentry', htype']; decide),
      hentry', hsize', setEntry_self, hq] at hsame
    have hresult := hsame.related
    dsimp only at hresult
    by_cases hsmall : z < 1
    · rw [if_pos hsmall, if_pos hsmall] at hresult
      cases hresult
    · rw [if_neg hsmall, if_neg hsmall] at hresult
      cases hresult
  · intro hvalid q hleft off n
    rw [hleft.same hvalid, setEntry_inode]
    have he : InUse (t.inode ip) := ⟨href, hvalid, hunlocked, by rw [hfile hvalid]; decide⟩
    exact (readData_locked he (hfile hvalid)).mono fun _ _ _ _ h => h.1

/-- `s` is a link whose path names the file of the entry `e`. -/
structure LinksTo {σ : Type} (D : Device Block Stop σ) (t : Mem) (dev : σ) (s e : Ip)
    (path : List UInt8) : Prop where
  type : (t.inode s).type = T_SYMLINK
  target : (t.inode s).path = some path
  file : (t.inode e).type = T_FILE
  names : ∀ ip t₁ dev₁, (namei path).run D (t, dev) = .ok (some ip) (t₁, dev₁) →
    (t₁.inode ip).inum = (t.inode e).inum

/-- On every device, a link reads like its target if the target is in use and has been read into the
    inode cache; and for the entry of a file that a lookup has found, reading without `ilock` is like
    reading with it, whatever is left in the entry, if and only if the entry has been read. -/
theorem symlink_reads {σ : Type} (D : Device Block Stop σ) (dev : σ) {S : Nat → Prop}
    [DecidablePred S] (data : Nat → Block) (t : Mem) :
    (∀ s e path, LinksTo D t dev s e path → Counted t → InUse (t.inode e) → ∀ off n,
      SameEnd (SameRead e) ((readi s off n).run D (t, dev)) ((readTarget path off n).run D (t, dev))) ∧
    ∀ ip, Layout S t.sb → (t.inode ip).inum < t.sb.ninodes → 1 ≤ (t.inode ip).ref →
      (t.inode ip).locked = false → (stored t.sb data (t.inode ip).inum).type = T_FILE →
      ((t.inode ip).valid = true → (t.inode ip).type = T_FILE) →
      ((∀ q, LeftOver (t.inode ip) q → ∀ off n, SameEnd (fun r _ r' _ => r = r')
        ((readData ip off n).run (array S) (t.setEntry ip q, ⟨data, []⟩))
        ((do ilock ip; readi ip off n : FsM (Int × List UInt8)).run (array S)
          (t.setEntry ip q, ⟨data, []⟩))) ↔ (t.inode ip).valid = true) := by
  refine ⟨fun s e path hlink hcount he off n => ?_, fun ip hl hlt href hunlocked hstored hfile => ?_⟩
  · refine readi_link hlink.type hlink.target hcount.cwd hcount.refs he hlink.file
      (fun j hj hinum => ?_) hlink.names
    exact hcount.unique j e hj (Int.lt_of_lt_of_le Int.one_pos he.ref) hinum
  · exact readData_unread hl hlt href hunlocked hstored hfile

/-! ### A link to a file of three bytes -/

/-- The inode of the file, with the data in block 5. -/
def threeBytes : Inode :=
  Inode.setAddr { inum := 2, ref := 1, valid := true, type := T_FILE, nlink := 1, size := 3 } 0 5

/-- The root directory, with the entries in block 4. -/
def rootInode : Inode := Inode.setAddr { inum := 1, type := T_DIR, nlink := 1, size := 16 } 0 4

/-- A disk whose root directory has one entry, `f`, for the file. -/
def linkDisk (b : Nat) : Block :=
  if b = 2 then writeDinode (writeDinode (fun _ => 0) rootInode) threeBytes
  else if b = 4 then fun i => (dirent [102] 2).getD i.val 0
  else if b = 5 then fun i => [97, 98, 99].getD i.val 0
  else fun _ => 0

/-- The inode cache with the root as working directory, a locked link to `f`, and the entry `q`. -/
def linkMem (q : Inode) : Mem where
  sb := ⟨200, 4, 2, 3⟩
  inode := fun j =>
    if j = 0 then { inum := 1, ref := 1 }
    else if j = 1 then { inum := 3, ref := 1, locked := true, valid := true, type := T_SYMLINK,
                         nlink := 1, addrs := fun i => if i.val = 0 then 102 else 0 }
    else if j = 2 then q
    else {}
  file := fun _ => {}
  ofile := fun _ => none
  cwd := 0
  console := fun _ => none

/-- The result of a program that returns. -/
def valueOf {σ α : Type} (m : EStateM Stop σ α) (s : σ) : Option α :=
  match m s with
  | .ok a _ => some a
  | .error _ _ => none

theorem exists_ok_of_value {σ α : Type} {m : EStateM Stop σ α} {s : σ} {a : α}
    (h : valueOf m s = some a) : ∃ s', m s = .ok a s' := by
  unfold valueOf at h
  split at h
  · cases h
    exact ⟨_, ‹_›⟩
  · cases h

/-- With an entry that has not been read the link has no bytes, but the file has three. -/
theorem symlink_reads_nothing :
    valueOf ((readi 1 0 10).run (array fun _ => True)) (linkMem {}, ⟨linkDisk, []⟩) = some (0, []) ∧
    valueOf ((readTarget [102] 0 10).run (array fun _ => True)) (linkMem {}, ⟨linkDisk, []⟩) =
      some (3, [97, 98, 99]) := by
  constructor <;> decide +kernel

/-- Does the path name the inode? -/
def namesInode (path : List UInt8) (inum : Nat) (s : Mem × Flat Block) : Bool :=
  match (namei path).run (array fun _ => True) s with
  | .ok (some ip) s' => (s'.1.inode ip).inum = inum
  | _ => false

theorem symlink_reads_three : SameEnd (SameRead 2)
    ((readi 1 0 10).run (array fun _ => True) (linkMem threeBytes, ⟨linkDisk, []⟩))
    ((readTarget [102] 0 10).run (array fun _ => True) (linkMem threeBytes, ⟨linkDisk, []⟩)) := by
  have hlink : LinksTo (array fun _ => True) (linkMem threeBytes) ⟨linkDisk, []⟩ 1 2 [102] := by
    refine ⟨rfl, by decide +kernel, rfl, fun ip t₁ dev₁ hrun => ?_⟩
    have hnames : namesInode [102] 2 (linkMem threeBytes, ⟨linkDisk, []⟩) = true := by decide +kernel
    unfold namesInode at hnames
    rw [hrun, decide_eq_true_eq] at hnames
    exact hnames
  have hcount : Counted (linkMem threeBytes) :=
    ⟨by decide +kernel, by decide +kernel, by decide +kernel⟩
  have huse : InUse ((linkMem threeBytes).inode 2) := ⟨by decide, rfl, rfl, by decide⟩
  exact (symlink_reads (array fun _ => True) ⟨linkDisk, []⟩ (S := fun _ => True) linkDisk
    (linkMem threeBytes)).1 1 2 [102] hlink hcount huse 0 10

end Xv6.File
