import Xv6.File.Entries
import Xv6.File.Syscall
import Xv6.Lib.Account

namespace Xv6.File

open Xv6.Lib
open Xv6.Fs (Block BSIZE Stop)

/-!
# Files — the references of the system calls

An inode is referred to by open files, by working directories, and by the code that is running.

* `spare` — the references to an entry that no open file and no working directory has;
* `Accounts` — a program that starts with some spare references ends with others;
* `accounts_namei`, `accounts_create`, `accounts_fileclose`, … — the references that a function takes
  over and gives back.
-/

variable {α γ : Type} {t t' : Mem} {ip dp : Ip} {o : Ip → Int} {f : Fin NFILE} {n off : Nat}

/-! ### Spare references -/

/-- The open files for an inode. -/
def fileRefs (t : Mem) (j : Ip) : Nat :=
  (Finset.univ.filter fun f => (t.file f).ref ≠ 0 ∧ (t.file f).ip = some j).card

/-- The references that are not from an open file or the working directory. -/
def spare (t : Mem) (j : Ip) : Int :=
  (t.inode j).ref - fileRefs t j - if t.cwd = j then 1 else 0

/-- A file that is not open refers to no inode. -/
def Idle (t : Mem) : Prop := ∀ f, (t.file f).ref = 0 → (t.file f).ip = none

/-- One more reference. -/
def plus (o : Ip → Int) (r : Option Ip) (j : Ip) : Int := o j + one r j

theorem plus_none : plus o none = o := by
  funext j
  rw [plus, one_none, Int.add_zero]

theorem plus_comm (r r' : Option Ip) : plus (plus o r) r' = plus (plus o r') r := by
  funext j
  exact Int.add_right_comm ..

theorem fileRefs_congr (h : t'.file = t.file) : fileRefs t' = fileRefs t := by
  funext j
  rw [fileRefs, fileRefs, h]

/-- A change of one entry of the inode cache. -/
theorem spare_setEntry {q : Inode} {r : Int} (href : q.ref = (t.inode ip).ref + r) (j : Ip) :
    spare (t.setEntry ip q) j = spare t j + if ip = j then r else 0 := by
  have hfiles : fileRefs (t.setEntry ip q) = fileRefs t := fileRefs_congr rfl
  unfold spare
  rw [hfiles]
  by_cases hj : ip = j
  · subst hj
    rw [setEntry_self, if_pos rfl, href]
    show _ - _ - (if t.cwd = ip then 1 else 0) = _
    omega
  · rw [setEntry_other (Ne.symm hj), if_neg hj, Int.add_zero]
    rfl

theorem spare_local (h : Local ip t t') (j : Ip) : spare t' j = spare t j := by
  obtain ⟨q, rfl, -, href, -⟩ := h
  rw [spare_setEntry (r := 0) (by omega), ite_self, Int.add_zero]

theorem idle_local (h : Local ip t t') (hidle : Idle t) : Idle t' := by
  obtain ⟨q, rfl, -⟩ := h
  exact hidle

/-- Assign to the fields of an open file. -/
def Mem.setFile (t : Mem) (f : Fin NFILE) (q : OpenFile) : Mem :=
  { t with file := Function.update t.file f q }

theorem ensures_setFile {Q : Unit → Mem → Prop} (g : OpenFile → OpenFile) :
    (setFile f g).Ensures Q t ↔ Q () (t.setFile f (g (t.file f))) := Iff.rfl

theorem file_setFile_self (q : OpenFile) : (t.setFile f q).file f = q := Function.update_self ..

theorem file_setFile_other {f' : Fin NFILE} (h : f' ≠ f) (q : OpenFile) :
    (t.setFile f q).file f' = t.file f' := Function.update_of_ne h _ _

theorem idle_setFile {q : OpenFile} (h : Idle t) (hq : q.ref = 0 → q.ip = none) :
    Idle (t.setFile f q) := by
  intro f' href
  by_cases hf : f' = f
  · subst hf
    rw [file_setFile_self] at href ⊢
    exact hq href
  · rw [file_setFile_other hf] at href ⊢
    exact h f' href

/-- The inode that an open file refers to. -/
def OpenFile.target (q : OpenFile) : Option Ip := if q.ref = 0 then none else q.ip

theorem one_target (q : OpenFile) (j : Ip) :
    one q.target j = if q.ref ≠ 0 ∧ q.ip = some j then 1 else 0 := by
  rw [OpenFile.target, one]
  by_cases href : q.ref = 0 <;> simp [href]

/-- A change of one open file. -/
theorem spare_setFile (q : OpenFile) (j : Ip) :
    spare (t.setFile f q) j = spare t j + one (t.file f).target j - one q.target j := by
  have hcount := card_update (fun q : OpenFile => q.ref ≠ 0 ∧ q.ip = some j) t.file f q
  rw [← one_target, ← one_target] at hcount
  have hnew : (fileRefs (t.setFile f q) j : Int) = _ := hcount
  unfold spare
  rw [hnew]
  show (t.inode j).ref - _ - (if t.cwd = j then 1 else 0) = _
  unfold fileRefs
  omega

/-! ### Programs -/

/-- The spare references `o` have become the references of the result. -/
def Balance (o : Ip → Int) (r : α → Ip → Int) (t : Mem) (a : α) (t' : Mem) : Prop :=
  Idle t' ∧ ∀ j, spare t' j + o j = spare t j + r a j

theorem Balance.trans {r : α → Ip → Int} {r' : γ → Ip → Int} {t'' : Mem} {a : α} {b : γ}
    (h : Balance o r t a t') (h' : Balance (r a) r' t' b t'') : Balance o r' t b t'' := by
  obtain ⟨-, h⟩ := h
  obtain ⟨hidle, h'⟩ := h'
  refine ⟨hidle, fun j => ?_⟩
  have hj := h j
  have hj' := h' j
  omega

theorem balance_local (h : Local ip t t') (hidle : Idle t) (a : α) : Balance o (fun _ => o) t a t' :=
  ⟨idle_local h hidle, fun j => by rw [spare_local h j]⟩

/-- A program that starts with the spare references `o` ends with the references of its result. -/
structure Accounts (o : Ip → Int) (p : FsM α) (r : α → Ip → Int) : Prop where
  ensures : ∀ t, Idle t → p.Ensures (Balance o r t) t

section Rules

variable {p : FsM α} {r : α → Ip → Int}

theorem accounts_pure {a : α} (h : r a = o) : Accounts o (pure a : FsM α) r :=
  ⟨fun _ hidle => ⟨hidle, fun j => by rw [h]⟩⟩

theorem accounts_panic {msg : String} : Accounts o (panic msg : FsM α) r := ⟨fun _ _ => trivial⟩

theorem accounts_stop {e : Stop} : Accounts o (.stop e : FsM α) r := ⟨fun _ _ => trivial⟩

theorem Accounts.bind {q : α → FsM γ} {r' : γ → Ip → Int} (hp : Accounts o p r)
    (hq : ∀ a, Accounts (r a) (q a) r') : Accounts o (p >>= q) r' := by
  refine ⟨fun t hidle => ensures_bind.mpr (ensures_mono (hp.ensures t hidle) fun a t₁ h₁ => ?_)⟩
  exact ensures_mono ((hq a).ensures t₁ h₁.1) fun _ _ h₂ => h₁.trans h₂

theorem accounts_ite {c : Prop} [Decidable c] {p' : FsM α} (h : c → Accounts o p r)
    (h' : ¬ c → Accounts o p' r) : Accounts o (if c then p else p') r := by
  split
  · exact h ‹_›
  · exact h' ‹_›

/-- A program that leaves the references alone. -/
theorem IsLocal.accounts (h : IsLocal ip p) : Accounts o p fun _ => o :=
  ⟨fun t hidle => ensures_mono (h.ensures t) fun _ _ h' => balance_local h' hidle _⟩

/-- A program that changes neither the references of the inodes nor the files. -/
theorem accounts_inodeOf : Accounts o (inodeOf ip) fun _ => o := by
  have hlocal : IsLocal ip (inodeOf ip) := isLocal_inodeOf
  exact hlocal.accounts

end Rules

theorem accounts_iget {inum : Nat} : Accounts o (iget inum) fun ip => plus o (some ip) := by
  refine ⟨fun t hidle => ensures_mono ensures_iget fun ip t' h => ?_⟩
  have hset : ∀ q : Inode, q.ref = (t.inode ip).ref + 1 →
      Balance o (fun ip => plus o (some ip)) t ip (t.setEntry ip q) := by
    refine fun q href => ⟨hidle, fun j => ?_⟩
    show _ = _ + plus o (some ip) j
    rw [spare_setEntry href, plus, one]
    simp only [Option.some.injEq]
    omega
  cases h with
  | hit => exact hset _ rfl
  | miss _ hzero => exact hset _ (by rw [hzero]; rfl)

theorem accounts_idup : Accounts o (idup ip) fun ip' => plus o (some ip') := by
  refine ⟨fun t hidle => ensures_mono ensures_idup ?_⟩
  rintro _ _ ⟨rfl, rfl⟩
  refine ⟨hidle, fun j => ?_⟩
  show _ = _ + plus o (some _) j
  rw [spare_setEntry rfl, plus, one]
  simp only [Option.some.injEq]
  omega

theorem accounts_iput : Accounts (plus o (some ip)) (iput ip) fun _ => o := by
  refine ⟨fun t hidle => ensures_mono ensures_iput ?_⟩
  rintro _ _ ⟨q, rfl, -, href, -⟩
  refine ⟨hidle, fun j => ?_⟩
  rw [spare_setEntry (r := -1) href, plus, one]
  simp only [Option.some.injEq]
  split
  · omega
  · omega

theorem accounts_iunlockput : Accounts (plus o (some ip)) (iunlockput ip) fun _ => o :=
  isLocal_iunlock.accounts.bind fun _ => accounts_iput

/-! ### Lookups -/

/-- Two results: nothing, or a reference. -/
theorem plus_map_none {β : Type} : plus o ((none : Option (Ip × β)).map fun x => x.1) = o := plus_none

theorem accounts_lookupLoop {name : List UInt8} {offs : List Nat} :
    Accounts o (lookupLoop dp name offs) fun r => plus o (r.map fun x => x.1) := by
  induction offs with
  | nil => exact accounts_pure plus_none
  | cons off offs ih =>
    refine isLocal_readDirent.accounts.bind fun de => accounts_ite (fun _ => ?_) fun _ => ih
    exact accounts_iget.bind fun ip => accounts_pure rfl

theorem accounts_dirlookup {name : List UInt8} :
    Accounts o (dirlookup dp name) fun r => plus o (r.map fun x => x.1) :=
  accounts_inodeOf.bind fun _ => accounts_ite (fun _ => accounts_panic) fun _ => accounts_lookupLoop

theorem accounts_dirlink {name : List UInt8} {inum : Nat} :
    Accounts o (dirlink dp name inum) fun _ => o := by
  refine accounts_dirlookup.bind fun r => ?_
  cases r with
  | some x => exact accounts_iput.bind fun _ => accounts_pure rfl
  | none =>
    rw [plus_map_none]
    exact accounts_inodeOf.bind fun _ => (isLocal_freeEntry _ _).accounts.bind fun _ =>
      (isLocal_writeData _ _ _).accounts.bind fun _ =>
        accounts_ite (fun _ => accounts_pure rfl) fun _ => accounts_panic

/-- The loop of `namex` exchanges its reference for one to the result. -/
theorem accounts_namexLoop {parent : Bool} {k : Nat} {path : List UInt8} :
    Accounts (plus o (some ip)) (namexLoop parent k ip path) fun r => plus o (r.map fun x => x.1) := by
  induction k generalizing ip path with
  | zero => exact accounts_stop
  | succ k ih =>
    rw [namexLoop]
    split
    · -- the end of the path
      refine accounts_ite (fun _ => ?_) fun _ => accounts_pure rfl
      exact accounts_iput.bind fun _ => accounts_pure plus_none
    · rename_i name rest _
      refine isLocal_ilock.accounts.bind fun _ => accounts_inodeOf.bind fun q => ?_
      refine accounts_ite (fun _ => ?_) fun _ => accounts_ite (fun _ => ?_) fun _ => ?_
      · exact accounts_iunlockput.bind fun _ => accounts_pure plus_none
      · exact isLocal_iunlock.accounts.bind fun _ => accounts_pure rfl
      · refine accounts_dirlookup.bind fun r => ?_
        cases r with
        | none =>
          rw [plus_map_none]
          exact accounts_iunlockput.bind fun _ => accounts_pure plus_none
        | some x =>
          obtain ⟨next, off⟩ := x
          show Accounts (plus (plus o (some ip)) (some next)) _ _
          rw [plus_comm]
          exact accounts_iunlockput.bind fun _ => ih

theorem accounts_namex {path : List UInt8} {parent : Bool} :
    Accounts o (namex path parent) fun r => plus o (r.map fun x => x.1) := by
  have hdup : Accounts o (do
      let t ← get
      let ip ← idup t.cwd
      namexLoop parent (path.length + 1) ip path : FsM (Option (Ip × List UInt8)))
      fun r => plus o (r.map fun x => x.1) := by
    have hstart : ∀ ip : Ip, Accounts o (do
        let ip ← idup ip
        namexLoop parent (path.length + 1) ip path : FsM (Option (Ip × List UInt8)))
        fun r => plus o (r.map fun x => x.1) := fun ip => accounts_idup.bind fun _ => accounts_namexLoop
    exact ⟨fun t hidle => (hstart t.cwd).ensures t hidle⟩
  rw [namex]
  exact accounts_ite (fun _ => accounts_iget.bind fun _ => accounts_namexLoop) fun _ => hdup

theorem accounts_namei {path : List UInt8} : Accounts o (namei path) fun r => plus o r :=
  accounts_namex.bind fun _ => accounts_pure rfl

theorem accounts_nameiparent {path : List UInt8} :
    Accounts o (nameiparent path) fun r => plus o (r.map fun x => x.1) := accounts_namex

/-! ### Names -/

theorem isLocal_incLink : IsLocal ip (incLink ip) :=
  isLocal_setInode (fun _ => by rfl) (fun _ => by rfl) (fun _ => by rfl) fun _ => by rfl

theorem isLocal_decLink : IsLocal ip (decLink ip) :=
  isLocal_setInode (fun _ => by rfl) (fun _ => by rfl) (fun _ => by rfl) fun _ => by rfl

theorem accounts_iupdate : Accounts o (iupdate ip) fun _ => o := by
  have hlocal : IsLocal ip (iupdate ip) := isLocal_iupdate
  exact hlocal.accounts

theorem accounts_linkBad : Accounts (plus o (some ip)) (linkBad ip) fun _ => o :=
  isLocal_ilock.accounts.bind fun _ => isLocal_decLink.accounts.bind fun _ =>
    accounts_iupdate.bind fun _ => accounts_iunlockput.bind fun _ => accounts_pure rfl

theorem accounts_sysLink {old new : List UInt8} : Accounts o (sysLink old new) fun _ => o := by
  refine accounts_namei.bind fun r => ?_
  cases r with
  | none => exact accounts_pure plus_none.symm
  | some ip =>
    refine isLocal_ilock.accounts.bind fun _ => accounts_inodeOf.bind fun q => ?_
    refine accounts_ite (fun _ => accounts_iunlockput.bind fun _ => accounts_pure rfl) fun _ => ?_
    refine isLocal_incLink.accounts.bind fun _ => accounts_iupdate.bind fun _ =>
      isLocal_iunlock.accounts.bind fun _ => accounts_nameiparent.bind fun r => ?_
    cases r with
    | none =>
      rw [plus_map_none]
      exact accounts_linkBad
    | some x =>
      obtain ⟨dp, name⟩ := x
      refine isLocal_ilock.accounts.bind fun _ => accounts_inodeOf.bind fun q =>
        accounts_dirlink.bind fun r => accounts_ite (fun _ => ?_) fun _ => ?_
      · exact accounts_iunlockput.bind fun _ => accounts_linkBad
      · exact accounts_iunlockput.bind fun _ => accounts_iput.bind fun _ => accounts_pure rfl

theorem isLocal_isdirempty : IsLocal dp (isdirempty dp) := by
  have hloop : ∀ offs, IsLocal dp (emptyLoop dp offs) := by
    intro offs
    induction offs with
    | nil => exact isLocal_pure _
    | cons off offs ih => exact isLocal_readDirent.bind fun _ => isLocal_ite (isLocal_pure _) ih
  exact isLocal_inodeOf.bind fun _ => hloop _

theorem accounts_unlinkEntry :
    Accounts (plus (plus o (some dp)) (some ip)) (unlinkEntry dp ip off) fun _ => o := by
  have hrest : Accounts (plus (plus o (some dp)) (some ip)) (do
      iunlockput dp
      decLink ip
      iupdate ip
      iunlockput ip
      pure 0 : FsM Int) fun _ => o := by
    rw [plus_comm]
    exact accounts_iunlockput.bind fun _ => isLocal_decLink.accounts.bind fun _ =>
      accounts_iupdate.bind fun _ => accounts_iunlockput.bind fun _ => accounts_pure rfl
  refine (isLocal_writeData _ _ _).accounts.bind fun r => accounts_ite (fun _ => accounts_panic)
    fun _ => accounts_inodeOf.bind fun q => accounts_ite (fun _ => ?_) fun _ => ?_
  · exact isLocal_decLink.accounts.bind fun _ => accounts_iupdate.bind fun _ => hrest
  · exact hrest

theorem accounts_sysUnlink {path : List UInt8} : Accounts o (sysUnlink path) fun _ => o := by
  refine accounts_nameiparent.bind fun r => ?_
  cases r with
  | none => exact accounts_pure plus_none.symm
  | some x =>
    obtain ⟨dp, name⟩ := x
    refine isLocal_ilock.accounts.bind fun _ => accounts_ite (fun _ => ?_) fun _ => ?_
    · exact accounts_iunlockput.bind fun _ => accounts_pure rfl
    refine accounts_dirlookup.bind fun r => ?_
    cases r with
    | none =>
      rw [plus_map_none]
      exact accounts_iunlockput.bind fun _ => accounts_pure rfl
    | some x =>
      obtain ⟨ip, off⟩ := x
      refine isLocal_ilock.accounts.bind fun _ => accounts_inodeOf.bind fun q =>
        accounts_ite (fun _ => accounts_panic) fun _ => accounts_ite (fun _ => ?_) fun _ =>
          accounts_unlinkEntry
      refine isLocal_isdirempty.accounts.bind fun empty => accounts_ite (fun _ => accounts_unlinkEntry)
        fun _ => ?_
      exact accounts_iunlockput.bind fun _ => accounts_iunlockput.bind fun _ => accounts_pure rfl

theorem accounts_ialloc {type : Nat} : Accounts o (ialloc type) fun ip => plus o (some ip) := by
  have hloop : ∀ sb inums, Accounts o (iallocLoop sb type inums) fun ip => plus o (some ip) := by
    intro sb inums
    induction inums with
    | nil => exact accounts_panic
    | cons inum inums ih =>
      have hbread : IsLocal 0 (bread (iblock sb inum)) := isLocal_bread
      have hstore : ∀ b d, IsLocal 0 (store b d) := fun b d => isLocal_store
      have hbrelse : ∀ b, IsLocal 0 (brelse b) := fun b => isLocal_brelse
      refine hbread.accounts.bind fun d => accounts_ite (fun _ => ?_) fun _ => ?_
      · exact (hstore _ _).accounts.bind fun _ => (hbrelse _).accounts.bind fun _ => accounts_iget
      · exact (hbrelse _).accounts.bind fun _ => ih
  exact ⟨fun t hidle => (hloop t.sb _).ensures t hidle⟩

theorem accounts_createEntry {name : List UInt8} :
    Accounts (plus (plus o (some dp)) (some ip)) (createEntry dp ip name) fun r => plus o r := by
  rw [plus_comm]
  exact accounts_inodeOf.bind fun _ => accounts_dirlink.bind fun _ =>
    accounts_ite (fun _ => accounts_panic) fun _ => accounts_iunlockput.bind fun _ => accounts_pure rfl

/-- `create` gives a reference to the new inode. -/
theorem accounts_create {path : List UInt8} {type major minor : Nat} :
    Accounts o (create path type major minor) fun r => plus o r := by
  refine accounts_nameiparent.bind fun r => ?_
  cases r with
  | none => exact accounts_pure rfl
  | some x =>
    obtain ⟨dp, name⟩ := x
    refine isLocal_ilock.accounts.bind fun _ => accounts_dirlookup.bind fun r => ?_
    cases r with
    | some x =>
      obtain ⟨ip, off⟩ := x
      show Accounts (plus (plus o (some dp)) (some ip)) _ _
      rw [plus_comm]
      refine accounts_iunlockput.bind fun _ => isLocal_ilock.accounts.bind fun _ =>
        accounts_inodeOf.bind fun q => accounts_ite (fun _ => accounts_pure rfl) fun _ => ?_
      exact accounts_iunlockput.bind fun _ => accounts_pure plus_none
    | none =>
      rw [plus_map_none]
      refine accounts_ialloc.bind fun ip => isLocal_ilock.accounts.bind fun _ => ?_
      refine (isLocal_setInode (fun _ => by rfl) (fun _ => by rfl) (fun _ => by rfl)
        fun _ => by rfl).accounts.bind fun _ => accounts_iupdate.bind fun _ =>
          accounts_ite (fun _ => ?_) fun _ => accounts_createEntry
      refine isLocal_incLink.accounts.bind fun _ => accounts_iupdate.bind fun _ =>
        accounts_inodeOf.bind fun q => accounts_dirlink.bind fun r =>
          accounts_ite (fun _ => accounts_panic) fun _ => ?_
      exact accounts_inodeOf.bind fun p => accounts_dirlink.bind fun r =>
        accounts_ite (fun _ => accounts_panic) fun _ => accounts_createEntry

theorem accounts_makeNode {path : List UInt8} {type major minor : Nat} :
    Accounts o (makeNode path type major minor) fun _ => o := by
  refine accounts_create.bind fun r => ?_
  cases r with
  | none => exact accounts_pure plus_none.symm
  | some ip => exact accounts_iunlockput.bind fun _ => accounts_pure rfl

/-! ### Open files -/

theorem accounts_get {p : Mem → FsM α} {r : α → Ip → Int} (h : ∀ t, Accounts o (p t) r) :
    Accounts o (get >>= p) r := ⟨fun t hidle => (h t).ensures t hidle⟩

/-- The descriptors do not count. -/
theorem accounts_ofile (g : Mem → Fin NOFILE → Option (Fin NFILE)) :
    Accounts o (modify fun t => { t with ofile := g t } : FsM PUnit) fun _ => o :=
  ⟨fun _ hidle => ⟨hidle, fun _ => rfl⟩⟩

theorem accounts_argfd {fd : Fd} : Accounts o (argfd fd) fun _ => o :=
  accounts_get fun _ => accounts_pure rfl

theorem ensures_filealloc : filealloc.Ensures (fun r t' => match r with
    | none => t' = t
    | some f => (t.file f).ref = 0 ∧ t' = t.setFile f { t.file f with ref := 1 }) t := by
  rw [filealloc, ensures_bind, ensures_get]
  split
  · exact rfl
  · rename_i f hfind
    have hfound := List.find?_some hfind
    rw [decide_eq_true_eq] at hfound
    exact ⟨hfound, rfl⟩

theorem ensures_fdalloc : (fdalloc f).Ensures (fun _ t' => ∃ g, t' = { t with ofile := g }) t := by
  rw [fdalloc, ensures_bind, ensures_get]
  split
  · exact ⟨t.ofile, rfl⟩
  · exact ⟨_, rfl⟩

theorem accounts_fdalloc : Accounts o (fdalloc f) fun _ => o := by
  refine ⟨fun t hidle => ensures_mono ensures_fdalloc ?_⟩
  rintro _ _ ⟨g, rfl⟩
  exact ⟨hidle, fun _ => rfl⟩

/-- A change of an open file that stays open for the same inode. -/
theorem accounts_setFile {g : OpenFile → OpenFile} (htarget : ∀ q, q.ref ≠ 0 → (g q).target = q.target)
    (hopen : ∀ q, q.ref ≠ 0 → (g q).ref ≠ 0) (hf : (t.file f).ref ≠ 0) (hidle : Idle t) :
    Idle (t.setFile f (g (t.file f))) ∧ ∀ j, spare (t.setFile f (g (t.file f))) j = spare t j := by
  refine ⟨idle_setFile hidle fun h => absurd h (hopen _ hf), fun j => ?_⟩
  rw [spare_setFile, htarget _ hf]
  omega

theorem accounts_filedup : Accounts o (filedup f) fun _ => o := by
  refine ⟨fun t hidle => ?_⟩
  rw [filedup, ensures_bind, ensures_get]
  refine ensures_ite (fun _ => trivial) fun href => ?_
  rw [ensures_setFile]
  obtain ⟨h₁, h₂⟩ := accounts_setFile (g := fun q => { q with ref := q.ref + 1 })
    (fun q hq => by simp [OpenFile.target, hq]) (fun q _ => Nat.succ_ne_zero _)
    (show (t.file f).ref ≠ 0 by omega) hidle
  exact ⟨h₁, fun j => by rw [h₂]⟩

/-- The last `fileclose` gives back the reference of the open file. -/
theorem accounts_fileclose : Accounts o (fileclose f) fun _ => o := by
  refine ⟨fun t hidle => ?_⟩
  rw [fileclose, ensures_bind, ensures_get]
  refine ensures_ite (fun _ => trivial) fun href => ensures_ite (fun hmore => ?_) fun hlast => ?_
  · rw [ensures_setFile]
    have htarget : OpenFile.target { t.file f with ref := (t.file f).ref - 1 } = (t.file f).target := by
      have h₁ : (t.file f).ref ≠ 0 := by omega
      have h₂ : (t.file f).ref - 1 ≠ 0 := by omega
      rw [OpenFile.target, OpenFile.target, if_neg h₁, if_neg h₂]
    refine ⟨idle_setFile hidle fun h => ?_, fun j => ?_⟩
    · dsimp only at h
      omega
    · show _ = _ + o j
      rw [spare_setFile, htarget]
      omega
  · have htarget : (t.file f).target = (t.file f).ip := by
      rw [OpenFile.target, if_neg (by omega)]
    rw [ensures_bind, ensures_setFile]
    obtain ⟨t₁, ht₁⟩ : ∃ t₁, t₁ = t.setFile f { t.file f with ref := 0, ip := none } := ⟨_, rfl⟩
    have hidle₁ : Idle t₁ := by
      rw [ht₁]
      exact idle_setFile hidle fun _ => rfl
    have hspare : ∀ j, spare t₁ j = spare t j + one (t.file f).ip j := fun j => by
      rw [ht₁, spare_setFile, htarget, OpenFile.target, if_pos rfl, one_none]
      omega
    rw [← ht₁]
    cases hip : (t.file f).ip with
    | none =>
      refine ⟨hidle₁, fun j => ?_⟩
      show _ = _ + o j
      rw [hspare, hip, one_none]
      omega
    | some ip =>
      refine ensures_mono ((accounts_iput (o := o)).ensures t₁ hidle₁) ?_
      rintro _ t₂ ⟨hidle₂, h₂⟩
      refine ⟨hidle₂, fun j => ?_⟩
      have h₂j := h₂ j
      rw [hspare, hip, plus] at h₂j
      omega

theorem accounts_sysDup {fd : Fd} : Accounts o (sysDup fd) fun _ => o := by
  refine accounts_argfd.bind fun r => ?_
  cases r with
  | none => exact accounts_pure rfl
  | some f =>
    refine accounts_fdalloc.bind fun r => ?_
    cases r with
    | none => exact accounts_pure rfl
    | some fd => exact accounts_filedup.bind fun _ => accounts_pure rfl

theorem accounts_sysClose {fd : Fd} : Accounts o (sysClose fd) fun _ => o := by
  refine accounts_argfd.bind fun r => ?_
  cases r with
  | none => exact accounts_pure rfl
  | some f => exact (accounts_ofile _).bind fun _ => accounts_fileclose.bind fun _ => accounts_pure rfl

/-- The open file takes over the reference. -/
theorem accounts_openInode {omode : Nat} :
    Accounts (plus o (some ip)) (openInode ip omode) fun _ => o := by
  refine ⟨fun t hidle => ?_⟩
  rw [openInode, ensures_bind]
  refine ensures_mono ensures_filealloc fun r t₁ h₁ => ?_
  cases r with
  | none =>
    obtain rfl : t₁ = t := h₁
    have hput : Accounts (plus o (some ip)) (do
        iunlockput ip
        pure (-1) : FsM Int) fun _ => o := accounts_iunlockput.bind fun _ => accounts_pure rfl
    exact hput.ensures t₁ hidle
  | some f =>
    obtain ⟨hfree, rfl⟩ : _ ∧ _ := h₁
    have hip : (t.file f).ip = none := hidle f hfree
    have hidle₁ : Idle (t.setFile f { t.file f with ref := 1 }) := idle_setFile hidle fun _ => hip
    have hspare₁ : ∀ j, spare (t.setFile f { t.file f with ref := 1 }) j = spare t j := fun j => by
      have hnew : OpenFile.target { t.file f with ref := 1 } = (t.file f).ip := rfl
      rw [spare_setFile, OpenFile.target, if_pos hfree, hnew, hip]
      omega
    rw [ensures_bind]
    refine ensures_mono ensures_fdalloc ?_
    rintro r _ ⟨g, rfl⟩
    cases r with
    | none =>
      have hfail : Accounts (plus o (some ip)) (do
          fileclose f
          iunlockput ip
          pure (-1) : FsM Int) fun _ => o :=
        accounts_fileclose.bind fun _ => accounts_iunlockput.bind fun _ => accounts_pure rfl
      refine ensures_mono (hfail.ensures _ hidle₁) ?_
      rintro _ t₂ ⟨hidle₂, h₂⟩
      exact ⟨hidle₂, fun j => (h₂ j).trans (congrArg (· + o j) (hspare₁ j))⟩
    | some fd =>
      rw [ensures_bind]
      refine ensures_mono (isLocal_iunlock.ensures _) fun _ t₃ h₃ => ?_
      have hspare₃ : ∀ j, spare t₃ j = spare t j := fun j => (spare_local h₃ j).trans (hspare₁ j)
      have hidle₃ := idle_local h₃ hidle₁
      have hfile : t₃.file f = { t.file f with ref := 1 } := by
        obtain ⟨q, rfl, -⟩ := h₃
        exact file_setFile_self _
      rw [ensures_bind, ensures_setFile, hfile]
      refine ⟨idle_setFile hidle₃ nofun, fun j => ?_⟩
      have hold : OpenFile.target { t.file f with ref := 1 } = (t.file f).ip := rfl
      rw [spare_setFile, hspare₃, hfile, hold, hip, one_none, plus]
      show spare t j + 0 - one (some ip) j + _ = spare t j + o j
      omega

theorem accounts_sysOpen {path : List UInt8} {omode : Nat} : Accounts o (sysOpen path omode) fun _ => o := by
  refine accounts_ite (fun _ => accounts_create.bind fun r => ?_) fun _ => accounts_namei.bind fun r => ?_
  · cases r with
    | none => exact accounts_pure plus_none.symm
    | some ip => exact accounts_openInode
  · cases r with
    | none => exact accounts_pure plus_none.symm
    | some ip =>
      refine isLocal_ilock.accounts.bind fun _ => accounts_inodeOf.bind fun q =>
        accounts_ite (fun _ => ?_) fun _ => accounts_openInode
      exact accounts_iunlockput.bind fun _ => accounts_pure rfl

/-- The working directory takes over the reference, and the old one is given back. -/
theorem accounts_sysChdir {path : List UInt8} : Accounts o (sysChdir path) fun _ => o := by
  refine accounts_namei.bind fun r => ?_
  cases r with
  | none => exact accounts_pure plus_none.symm
  | some ip =>
    refine isLocal_ilock.accounts.bind fun _ => accounts_inodeOf.bind fun q =>
      accounts_ite (fun _ => accounts_iunlockput.bind fun _ => accounts_pure rfl) fun _ =>
        isLocal_iunlock.accounts.bind fun _ => ⟨fun t hidle => ?_⟩
    rw [ensures_bind, ensures_get, ensures_bind]
    refine ensures_mono ensures_iput ?_
    rintro _ _ ⟨q, rfl, -, href, -⟩
    refine ⟨hidle, fun j => ?_⟩
    have hspare : spare { t.setEntry t.cwd q with cwd := ip } j =
        spare (t.setEntry t.cwd q) j + one (some t.cwd) j - one (some ip) j := by
      unfold spare one
      simp only [Option.some.injEq]
      show _ - _ - _ = (_ - _ - if t.cwd = j then 1 else 0) + _ - _
      have hfiles : fileRefs { t.setEntry t.cwd q with cwd := ip } = fileRefs (t.setEntry t.cwd q) :=
        fileRefs_congr rfl
      rw [hfiles]
      omega
    show spare { t.setEntry t.cwd q with cwd := ip } j + _ = _
    rw [hspare, spare_setEntry (r := -1) href, plus, one]
    simp only [Option.some.injEq]
    split
    · omega
    · omega

end Xv6.File
