import Xv6.File.Refs
import Xv6.File.Target

namespace Xv6.File

open Xv6.Lib
open Xv6.Fs (Block BSIZE Stop)

/-!
# Files — the references of the processes

Between system calls the inode cache counts the open files and the working directories of the
processes, as long as nothing goes through a symbolic link.

* `isDirect`, `Syscall.direct` — does a call stay away from the inodes behind symbolic links?
* `wp_resolve` — then `readi` and `writei` take no reference;
* `System` / `System.step` — processes that make system calls, fork and exit;
* `Accounted` — the references of every entry are those of the open files and working directories;
* `run_accounted` — this holds after every step of a run of such calls.
-/

variable {α γ σ : Type} {t t' : Mem} {ip : Ip} {o : Ip → Int} {f : Fin NFILE} {D : Device Block Stop σ}
  {s : Mem × σ}

/-! ### Calls that stay away from symbolic links -/

/-- Do `readi` and `writei` use no inode but `ip` itself? -/
def isDirect (ip : Ip) : FsM Bool := do
  ilock ip
  let q ← inodeOf ip
  let r ← resolve ip
  pure (decide (q.type ≠ T_SYMLINK) || r.isNone)

/-- The inode behind a descriptor, if the file may be used. -/
def fdDirect (fd : Fd) (may : OpenFile → Bool) : FsM Bool := do
  match ← argfd fd with
  | none => pure true
  | some f => do
    let t ← get
    if may (t.file f) = false then pure true
    else
      match (t.file f).ip with
      | none => pure true
      | some ip => isDirect ip

/-- The inode that a path names. -/
def pathDirect (path : List UInt8) : FsM Bool := do
  match ← namei path with
  | none => pure true
  | some ip => isDirect ip

/-- Does `sys_symlink` find nothing that it can link to? -/
def targetUnusable (target : List UInt8) : FsM Bool := do
  match ← namei target with
  | none => pure true
  | some ip => do
    ilock ip
    let q ← inodeOf ip
    pure (decide (q.type = T_DIR))

/-- Does the call take no reference for the target of a symbolic link? -/
def Syscall.direct : Syscall → FsM Bool
  | .read fd _ => fdDirect fd fun q => q.readable
  | .write fd _ n => if n = 0 then pure true else fdDirect fd fun q => q.writable
  | .symlink target _ => targetUnusable target
  | .exec path _ => pathDirect path
  | _ => pure true

/-- A check does not fail in a state. -/
def Holds (D : Device Block Stop σ) (s : Mem × σ) (check : FsM Bool) : Prop :=
  wp (check.run D) (fun a _ => a = true) (fun _ _ => True) s

/-! ### Reading and writing -/

theorem Accounts.run {p : FsM α} {r : α → Ip → Int} (h : Accounts o p r) (hidle : Idle s.1) :
    wp (p.run D) (fun a s' => Balance o r s.1 a s'.1) (fun _ _ => True) s :=
  (h.ensures s.1 hidle).run D s.2

/-- A lookup that finds nothing takes no reference. -/
theorem Balance.nothing (h : Balance o (fun r => plus o r) t none t') (a : γ) :
    Balance o (fun _ => o) t a t' := by
  refine ⟨h.1, fun j => ?_⟩
  have hj : spare t' j + o j = spare t j + plus o none j := h.2 j
  rwa [plus_none] at hj

theorem ensures_resolve_link (hlink : (t.inode ip).type = T_SYMLINK) (hidle : Idle t) :
    (resolve ip).Ensures (Balance o (fun r => plus o r) t) t := by
  rw [resolve, ensures_bind, ensures_inodeOf, if_pos hlink]
  split
  · trivial
  · exact accounts_namei.ensures t hidle

theorem resolve_direct {k : Option Ip → FsM α} {Q : α → Mem → Prop}
    (htype : (t.inode ip).type ≠ T_SYMLINK) :
    (resolve ip >>= k).Ensures Q t ↔ (k (some ip)).Ensures Q t := by
  rw [resolve, ensures_bind, ensures_bind, ensures_inodeOf, if_neg htype, ensures_pure]

/-- The second half of the check: `ip` has been locked. -/
structure DirectAt (D : Device Block Stop σ) (s : Mem × σ) (ip : Ip) : Prop where
  valid : (s.1.inode ip).valid = true
  resolve : (s.1.inode ip).type = T_SYMLINK →
    wp ((resolve ip).run D) (fun r _ => r = none) (fun _ _ => True) s

theorem wp_ilock_direct (hcheck : Holds D s (isDirect ip)) (hidle : Idle s.1) :
    wp ((ilock ip).run D) (fun a s' => Balance o (fun _ => o) s.1 a s'.1 ∧ DirectAt D s' ip)
      (fun _ _ => True) s := by
  have hlock : (ilock ip).Ensures (fun _ t' => Local ip s.1 t' ∧ (t'.inode ip).valid = true) s.1 := by
    refine ensures_mono ensures_ilock fun _ t' h => ?_
    obtain ⟨q, rfl, hinum, href, hvalid, -, -, -, hsame⟩ := h
    rw [setEntry_self]
    exact ⟨local_set hinum href fun hv => by rw [hsame hv]; exact ⟨hv, rfl⟩, hvalid⟩
  rw [Holds, isDirect, wp_run_bind] at hcheck
  refine wp_mono (wp_and (hlock.run D s.2) hcheck) ?_ fun _ _ _ => trivial
  rintro _ s₁ ⟨⟨hlocal, hvalid⟩, hdirect⟩
  refine ⟨balance_local hlocal hidle _, hvalid, fun htype => ?_⟩
  have hrest : wp ((resolve ip).run D) (fun r s' => wp ((pure
      (decide ((s₁.1.inode ip).type ≠ T_SYMLINK) || r.isNone) : FsM Bool).run D)
      (fun a _ => a = true) (fun _ _ => True) s') (fun _ _ => True) s₁ := wp_run_bind.mp hdirect
  refine wp_mono hrest (fun r s' hr => ?_) fun _ _ h => h
  rw [wp_run_pure] at hr
  simpa [htype] using hr

/-- An inode that is read or written takes no reference if only `ip` itself is used. -/
theorem wp_resolve {k : Option Ip → FsM α} {r : α → Ip → Int} (h : DirectAt D s ip)
    (hidle : Idle s.1) (hnone : Accounts o (k none) r)
    (hsome : (s.1.inode ip).type ≠ T_SYMLINK → (k (some ip)).Ensures (Balance o r s.1) s.1) :
    wp ((resolve ip >>= k).run D) (fun a s' => Balance o r s.1 a s'.1) (fun _ _ => True) s := by
  by_cases htype : (s.1.inode ip).type = T_SYMLINK
  · -- the path of the link names nothing
    rw [wp_run_bind]
    refine wp_mono (wp_and (h.resolve htype)
      ((ensures_resolve_link (o := o) htype hidle).run D s.2)) ?_ fun _ _ _ => trivial
    rintro _ s₁ ⟨rfl, hnothing⟩
    have hbal : Balance o (fun _ : Unit => o) s.1 () s₁.1 := hnothing.nothing _
    exact wp_mono (hnone.run hbal.1) (fun a s₂ h₂ => hbal.trans h₂) fun _ _ h => h
  · exact ((resolve_direct htype).mpr (hsome htype)).run D s.2

/-- The offset of an open file. -/
theorem accounts_setOff {n : Nat} :
    Accounts o (setFile f fun q => { q with off := q.off + n }) fun _ => o := by
  refine ⟨fun t hidle => ?_⟩
  rw [ensures_setFile]
  have htarget : OpenFile.target { t.file f with off := (t.file f).off + n } = (t.file f).target := rfl
  refine ⟨idle_setFile hidle fun h => hidle f h, fun j => ?_⟩
  rw [spare_setFile, htarget]
  show _ + o j = _ + o j
  omega

theorem wp_readi {off n : Nat} {k : Int × List UInt8 → FsM α} {r : α → Ip → Int}
    (h : DirectAt D s ip) (hidle : Idle s.1) (hnone : Accounts o (k (-1, [])) r)
    (hsome : (s.1.inode ip).type ≠ T_SYMLINK →
      (readData ip off n >>= k).Ensures (Balance o r s.1) s.1) :
    wp ((readi ip off n >>= k).run D) (fun a s' => Balance o r s.1 a s'.1) (fun _ _ => True) s := by
  rw [readi, Prog.bind_assoc]
  exact wp_resolve h hidle hnone hsome

/-- The file may be used, and only its inode. -/
def FileDirect (D : Device Block Stop σ) (s : Mem × σ) (f : Fin NFILE) (may : OpenFile → Bool) : Prop :=
  may (s.1.file f) = true → ∀ ip, (s.1.file f).ip = some ip → Holds D s (isDirect ip)

theorem wp_fileread {n : Nat} (hidle : Idle s.1) (hcheck : FileDirect D s f fun q => q.readable) :
    wp ((fileread f n).run D) (fun a s' => Balance o (fun _ => o) s.1 a s'.1) (fun _ _ => True) s := by
  rw [fileread, wp_run_bind, wp_run_get]
  refine wp_run_ite (fun _ => ⟨hidle, fun _ => rfl⟩) fun hmay => ?_
  rw [Bool.not_eq_false] at hmay
  cases hip : (s.1.file f).ip with
  | none => exact accounts_panic.run hidle
  | some ip =>
    have hrest : ∀ r : Int × List UInt8, Accounts o (do
        if 0 < r.1 then do
          setFile f fun q => { q with off := q.off + r.1.toNat }
          iunlock ip
          pure r
        else do
          iunlock ip
          pure r : FsM (Int × List UInt8)) fun _ => o := fun r =>
      accounts_ite (fun _ => accounts_setOff.bind fun _ => isLocal_iunlock.accounts.bind fun _ =>
        accounts_pure rfl) fun _ => isLocal_iunlock.accounts.bind fun _ => accounts_pure rfl
    show wp ((ilock ip >>= fun _ => readi ip _ n >>= _).run D) _ _ s
    rw [wp_run_bind]
    refine wp_mono (wp_ilock_direct (o := o) (hcheck hmay ip hip) hidle) ?_ fun _ _ h => h
    rintro _ s₁ ⟨hlocked, hdirect⟩
    refine wp_mono (wp_readi (o := o) (r := fun _ => o) hdirect hlocked.1 (hrest _) fun _ => ?_)
      (fun _ _ h => hlocked.trans h) fun _ _ h => h
    exact ((isLocal_readData _ _).accounts.bind hrest).ensures _ hlocked.1

/-- An inode that has been read and is no symbolic link. -/
structure Plain (ip : Ip) (t : Mem) : Prop where
  idle : Idle t
  valid : (t.inode ip).valid = true
  type : (t.inode ip).type ≠ T_SYMLINK

theorem Plain.local (h : Plain ip t) (hlocal : Local ip t t') : Plain ip t' := by
  obtain ⟨hvalid, htype⟩ := hlocal.read h.valid
  exact ⟨idle_local hlocal h.idle, hvalid, fun heq => h.type (htype ▸ heq)⟩

theorem IsLocal.plain_bind {p : FsM α} {q : α → FsM γ} {r : γ → Ip → Int} (hp : IsLocal ip p)
    (h : Plain ip t) (hq : ∀ a t', Plain ip t' → (q a).Ensures (Balance o r t') t') :
    (p >>= q).Ensures (Balance o r t) t := by
  refine ensures_bind.mpr (ensures_mono (hp.ensures t) fun a t₁ hlocal => ?_)
  exact ensures_mono (hq a t₁ (h.local hlocal)) fun _ _ h' => (balance_local hlocal h.idle a).trans h'

/-- A round of `filewrite`, from the write on. -/
theorem ensures_writeRound {src src' : Nat → UInt8} {off n n1 k i : Nat} (h : Plain ip t)
    (hloop : ∀ t, Plain ip t → (fileWriteLoop f ip src n k (i + n1)).Ensures (Balance o (fun _ => o) t) t) :
    (writeData ip src' off n1 >>= fun r =>
      if 0 < r then do
        setFile f fun q => { q with off := q.off + r.toNat }
        iunlock ip
        if r ≠ n1 then panic "short filewrite" else fileWriteLoop f ip src n k (i + n1)
      else do
        iunlock ip
        if r < 0 then pure i
        else panic "short filewrite").Ensures (Balance o (fun _ => o) t) t := by
  refine (isLocal_writeData _ _ _).plain_bind h fun r t₁ h₁ => ensures_ite (fun _ => ?_) fun _ => ?_
  · rw [ensures_bind]
    have hoff := (accounts_setOff (o := o) (f := f) (n := r.toNat)).ensures t₁ h₁.idle
    rw [ensures_setFile] at hoff ⊢
    refine ensures_mono (isLocal_iunlock.plain_bind (t := t₁.setFile f _) ⟨hoff.1, h₁.valid, h₁.type⟩
      fun _ t₂ h₂ => ensures_ite (fun _ => trivial) fun _ => hloop t₂ h₂) fun _ _ h' => hoff.trans h'
  · refine isLocal_iunlock.plain_bind h₁ fun _ t₂ h₂ => ensures_ite (fun _ => ?_) fun _ => trivial
    exact ⟨h₂.idle, fun _ => rfl⟩

theorem ensures_fileWriteLoop {src : Nat → UInt8} {n k i : Nat} (h : Plain ip t) :
    (fileWriteLoop f ip src n k i).Ensures (Balance o (fun _ => o) t) t := by
  induction k generalizing i t with
  | zero => exact ⟨h.idle, fun _ => rfl⟩
  | succ k ih =>
    rw [fileWriteLoop]
    refine ensures_ite (fun _ => ⟨h.idle, fun _ => rfl⟩) fun _ => ?_
    refine isLocal_ilock.plain_bind h fun _ t₁ h₁ => ?_
    rw [ensures_bind, ensures_get, writei, Prog.bind_assoc, resolve_direct h₁.type]
    exact ensures_writeRound h₁ fun _ h' => ih h'

theorem wp_filewrite {src : Nat → UInt8} {n : Nat} (hidle : Idle s.1)
    (hcheck : n ≠ 0 → FileDirect D s f fun q => q.writable) :
    wp ((filewrite f src n).run D) (fun a s' => Balance o (fun _ => o) s.1 a s'.1) (fun _ _ => True) s := by
  rw [filewrite, wp_run_bind, wp_run_get]
  refine wp_run_ite (fun _ => ⟨hidle, fun _ => rfl⟩) fun hmay => ?_
  rw [Bool.not_eq_false] at hmay
  cases hip : (s.1.file f).ip with
  | none => exact accounts_panic.run hidle
  | some ip =>
    have hloop : wp ((fileWriteLoop f ip src n (n / writeMax + 1) 0).run D)
        (fun a s' => Balance o (fun _ => o) s.1 a s'.1) (fun _ _ => True) s := by
      rw [fileWriteLoop]
      refine wp_run_ite (fun _ => ⟨hidle, fun _ => rfl⟩) fun hn => ?_
      rw [wp_run_bind]
      refine wp_mono (wp_ilock_direct (o := o) (hcheck (by omega) hmay ip hip) hidle) ?_ fun _ _ h => h
      rintro _ s₁ ⟨hlocked, hdirect⟩
      rw [wp_run_bind, wp_run_get, writei, Prog.bind_assoc]
      refine wp_mono (wp_resolve (o := o) (r := fun _ => o) hdirect hlocked.1 ?_ fun htype => ?_)
        (fun _ _ h => hlocked.trans h) fun _ _ h => h
      · exact isLocal_iunlock.accounts.bind fun _ => accounts_pure rfl
      · exact ensures_writeRound ⟨hlocked.1, hdirect.valid, htype⟩ fun _ h => ensures_fileWriteLoop h
    rw [wp_run_bind]
    refine wp_mono hloop (fun i s₁ h₁ => ?_) fun _ _ h => h
    exact wp_run_ite (fun _ => h₁) fun _ => h₁

/-! ### `exec` -/

/-- A program is local to an inode that has been read and is no symbolic link. -/
structure LocalPlain (ip : Ip) (p : FsM α) : Prop where
  ensures : ∀ t, Plain ip t → p.Ensures (fun _ t' => Local ip t t') t

theorem localPlain_pure (a : α) : LocalPlain ip (pure a : FsM α) := ⟨fun _ _ => local_refl⟩

theorem LocalPlain.bind {p : FsM α} {q : α → FsM γ} (hp : LocalPlain ip p)
    (hq : ∀ a, LocalPlain ip (q a)) : LocalPlain ip (p >>= q) := by
  refine ⟨fun t h => ensures_bind.mpr (ensures_mono (hp.ensures t h) fun a t₁ h₁ => ?_)⟩
  exact ensures_mono ((hq a).ensures t₁ (h.local h₁)) fun _ _ h₂ => h₁.trans h₂

theorem localPlain_ite {c : Prop} [Decidable c] {p p' : FsM α} (h : LocalPlain ip p)
    (h' : LocalPlain ip p') : LocalPlain ip (if c then p else p') := by
  split
  · exact h
  · exact h'

theorem localPlain_readi {off n : Nat} : LocalPlain ip (readi ip off n) := by
  refine ⟨fun t h => ?_⟩
  rw [readi, resolve_direct h.type]
  exact (isLocal_readData off n).ensures t

theorem localPlain_loaduvm {offset sz : Nat} {is : List Nat} :
    LocalPlain ip (loaduvm ip offset sz is) := by
  induction is with
  | nil => exact localPlain_pure _
  | cons i is ih => exact localPlain_readi.bind fun _ => localPlain_ite (localPlain_pure _) ih

theorem localPlain_loadHeaders {phoff : Nat} {alloc : Nat → Bool} {k i sz : Nat} :
    LocalPlain ip (loadHeaders ip phoff alloc k i sz) := by
  induction k generalizing i sz with
  | zero => exact localPlain_pure _
  | succ k ih =>
    have hstop : LocalPlain ip (pure false : FsM Bool) := localPlain_pure _
    refine localPlain_readi.bind fun r => ?_
    refine localPlain_ite hstop (localPlain_ite ih (localPlain_ite hstop (localPlain_ite hstop
      (localPlain_ite hstop (localPlain_ite hstop (localPlain_ite hstop ?_))))))
    exact localPlain_loaduvm.bind fun ok => localPlain_ite ih hstop

theorem wp_sysExec {path : List UInt8} {alloc : Nat → Bool} (hidle : Idle s.1)
    (hcheck : Holds D s (pathDirect path)) :
    wp ((sysExec path alloc).run D) (fun a s' => Balance o (fun _ => o) s.1 a s'.1) (fun _ _ => True) s := by
  rw [Holds, pathDirect, wp_run_bind] at hcheck
  rw [sysExec, wp_run_bind]
  refine wp_mono (wp_and hcheck ((accounts_namei (o := o)).run hidle)) ?_ fun _ _ _ => trivial
  rintro r s₁ ⟨hdirect, hname⟩
  cases r with
  | none => exact hname.nothing (-1 : Int)
  | some ip =>
    have hput : Accounts (plus o (some ip)) (do iunlockput ip; pure (-1) : FsM Int) fun _ => o :=
      accounts_iunlockput.bind fun _ => accounts_pure rfl
    show wp ((ilock ip >>= fun _ => readi ip 0 ELFHDRSIZE >>= _).run D) _ _ s₁
    rw [wp_run_bind]
    refine wp_mono (wp_ilock_direct (o := plus o (some ip)) hdirect hname.1) ?_ fun _ _ h => h
    rintro _ s₂ ⟨hlocked, hdirect₂⟩
    refine wp_mono (wp_readi (o := plus o (some ip)) (r := fun _ => o) hdirect₂ hlocked.1 ?_
      fun htype => ?_) (fun _ _ h => (hname.trans hlocked).trans h) fun _ _ h => h
    · exact accounts_ite (fun _ => hput) fun h => absurd (Or.inl (by decide)) h
    · refine (isLocal_readData _ _).plain_bind ⟨hlocked.1, hdirect₂.valid, htype⟩ fun r t₃ h₃ => ?_
      refine ensures_ite (fun _ => hput.ensures t₃ h₃.idle) fun _ => ?_
      rw [ensures_bind]
      refine ensures_mono (localPlain_loadHeaders.ensures t₃ h₃) fun ok t₄ hlocal => ?_
      have hend : Accounts (plus o (some ip)) (do
          iunlockput ip
          if ok then pure 0 else pure (-1) : FsM Int) fun _ => o :=
        accounts_iunlockput.bind fun _ => accounts_ite (fun _ => accounts_pure rfl) fun _ => accounts_pure rfl
      exact ensures_mono (hend.ensures t₄ (h₃.local hlocal).idle) fun _ _ h' =>
        (balance_local hlocal h₃.idle ok).trans h'

/-! ### System calls -/

theorem wp_sysSymlink {target link : List UInt8} (hidle : Idle s.1)
    (hcheck : Holds D s (targetUnusable target)) :
    wp ((sysSymlink target link).run D) (fun a s' => Balance o (fun _ => o) s.1 a s'.1) (fun _ _ => True)
      s := by
  rw [Holds, targetUnusable, wp_run_bind] at hcheck
  rw [sysSymlink, wp_run_bind]
  refine wp_mono (wp_and hcheck ((accounts_namei (o := o)).run hidle)) ?_ fun _ _ _ => trivial
  rintro r s₁ ⟨hunusable, hname⟩
  cases r with
  | none => exact hname.nothing (-1 : Int)
  | some ip =>
    have hunusable : wp ((ilock ip >>= fun _ => inodeOf ip >>= fun q =>
        (pure (decide (q.type = T_DIR)) : FsM Bool)).run D) (fun a _ => a = true) (fun _ _ => True) s₁ :=
      hunusable
    have hlock : Accounts (plus o (some ip)) (ilock ip) fun _ => plus o (some ip) := isLocal_ilock.accounts
    show wp ((ilock ip >>= fun _ => inodeOf ip >>= _).run D) _ _ s₁
    rw [wp_run_bind] at hunusable ⊢
    refine wp_mono (wp_and hunusable (hlock.run hname.1)) ?_ fun _ _ _ => trivial
    rintro _ s₂ ⟨hdir, hlocked⟩
    have hdir : (s₂.1.inode ip).type = T_DIR := of_decide_eq_true hdir
    have hput : Accounts (plus o (some ip)) (do iunlockput ip; pure (-1) : FsM Int) fun _ => o :=
      accounts_iunlockput.bind fun _ => accounts_pure rfl
    rw [wp_run_bind]
    refine wp_run_ite (fun _ => ?_) fun h => absurd hdir h
    exact wp_mono (hput.run hlocked.1) (fun _ _ h => (hname.trans hlocked).trans h) fun _ _ h => h

theorem wp_fdDirect {fd : Fd} {may : OpenFile → Bool} (h : Holds D s (fdDirect fd may)) (hf : s.1.ofile fd = some f) :
    FileDirect D s f may := by
  intro hmay ip hip
  rw [Holds, fdDirect, wp_run_bind, argfd, wp_run_bind, wp_run_get, wp_run_pure, hf] at h
  dsimp only at h
  rw [wp_run_bind, wp_run_get, if_neg (by rw [hmay]; decide), hip] at h
  exact h

/-- No call that stays away from symbolic links takes or gives back a spare reference. -/
theorem wp_code (c : Syscall) (hidle : Idle s.1) (hcheck : Holds D s c.direct) :
    wp (c.code.run D) (fun a s' => Balance o (fun _ => o) s.1 a s'.1) (fun _ _ => True) s := by
  cases c with
  | read fd n =>
    have hread : wp ((sysRead fd n).run D) (fun a s' => Balance o (fun _ => o) s.1 a s'.1)
        (fun _ _ => True) s := by
      rw [sysRead, wp_run_bind, argfd, wp_run_bind, wp_run_get, wp_run_pure]
      cases hf : s.1.ofile fd with
      | none => exact ⟨hidle, fun _ => rfl⟩
      | some f => exact wp_fileread hidle (wp_fdDirect hcheck hf)
    rw [Syscall.code, wp_run_bind]
    exact wp_mono hread (fun _ _ h => h) fun _ _ h => h
  | write fd src n =>
    rw [Syscall.code, sysWrite, wp_run_bind, argfd, wp_run_bind, wp_run_get, wp_run_pure]
    cases hf : s.1.ofile fd with
    | none => exact ⟨hidle, fun _ => rfl⟩
    | some f =>
      refine wp_filewrite hidle fun hn => wp_fdDirect ?_ hf
      rwa [Syscall.direct, if_neg hn] at hcheck
  | close fd => exact accounts_sysClose.run hidle
  | dup fd => exact accounts_sysDup.run hidle
  | link old new => exact accounts_sysLink.run hidle
  | unlink path => exact accounts_sysUnlink.run hidle
  | symlink target path => exact wp_sysSymlink hidle hcheck
  | «open» path omode => exact accounts_sysOpen.run hidle
  | mkdir path => exact accounts_makeNode.run hidle
  | mknod path major minor => exact accounts_makeNode.run hidle
  | chdir path => exact accounts_sysChdir.run hidle
  | exec path alloc => exact wp_sysExec hidle hcheck

/-! ### Processes -/

/-- `NPROC`. -/
def NPROC : Nat := 64

instance : NeZero NPROC := ⟨by decide⟩

/-- `struct proc`, what the process has open. -/
structure Proc where
  ofile : Fin NOFILE → Option (Fin NFILE)
  cwd : Ip

/-- The loop of `fork` over the descriptors. -/
def forkFiles : List Fd → FsM Unit
  | [] => pure ()
  | fd :: fds => do
    match ← argfd fd with
    | none => forkFiles fds
    | some f => do
      filedup f
      forkFiles fds

/-- `fork()`, what it does to files, once it has a process. -/
def fork : FsM Unit := do
  forkFiles (List.finRange NOFILE)
  let t ← get
  let _ ← idup t.cwd

/-- The loop of `exit` over the descriptors. -/
def exitFiles : List Fd → FsM Unit
  | [] => pure ()
  | fd :: fds => do
    match ← argfd fd with
    | none => exitFiles fds
    | some f => do
      fileclose f
      modify fun t => { t with ofile := Function.update t.ofile fd none }
      exitFiles fds

/-- `exit()`, what it does to files. -/
def exit : FsM Unit := do
  exitFiles (List.finRange NOFILE)
  let t ← get
  iput t.cwd

/-- The file system with its processes.  The descriptors and the working directory in `mem` are
    those of the process that has made the last call. -/
structure System (σ : Type) where
  mem : Mem
  dev : σ
  proc : Fin NPROC → Option Proc

/-- The state in which a process calls the kernel. -/
def System.enter (w : System σ) (p : Proc) : Mem × σ :=
  ({ w.mem with ofile := p.ofile, cwd := p.cwd }, w.dev)

/-- What the process has open after a call. -/
def Mem.proc (t : Mem) : Proc := ⟨t.ofile, t.cwd⟩

/-- The state after a call of the process `i`, which goes on as `p`. -/
def System.leave (w : System σ) (i : Fin NPROC) (s : Mem × σ) (p : Option Proc) : System σ :=
  { mem := s.1, dev := s.2, proc := Function.update w.proc i p }

/-- What a process does; `fork` has found the free slot `j`. -/
inductive Action
  | call (i : Fin NPROC) (c : Syscall)
  | fork (i j : Fin NPROC)
  | exit (i : Fin NPROC)

/-- A completed call. -/
inductive Step (D : Device Block Stop σ) (w : System σ) : Action → System σ → Prop
  | call {i : Fin NPROC} {p : Proc} {c : Syscall} {r : Int} {s : Mem × σ} (hp : w.proc i = some p)
      (hrun : c.code.run D (w.enter p) = .ok r s) : Step D w (.call i c) (w.leave i s (some s.1.proc))
  | fork {i j : Fin NPROC} {p : Proc} {s : Mem × σ} (hp : w.proc i = some p) (hfree : w.proc j = none)
      (hrun : fork.run D (w.enter p) = .ok () s) :
      Step D w (.fork i j) ((w.leave i s (some s.1.proc)).leave j s (some s.1.proc))
  | exit {i : Fin NPROC} {p : Proc} {s : Mem × σ} (hp : w.proc i = some p)
      (hrun : exit.run D (w.enter p) = .ok () s) : Step D w (.exit i) (w.leave i s none)

/-- The working directories that are an inode. -/
def cwdRefs (w : System σ) (j : Ip) : Nat :=
  (Finset.univ.filter fun i => (w.proc i).map (fun p => p.cwd) = some j).card

/-- The references of the inode cache are those of open files and working directories. -/
structure Accounted (w : System σ) : Prop where
  idle : Idle w.mem
  refs : ∀ j, (w.mem.inode j).ref = fileRefs w.mem j + cwdRefs w j

/-- The process stays away from symbolic links. -/
def Action.Direct (D : Device Block Stop σ) (w : System σ) : Action → Prop
  | .call i c => ∀ p, w.proc i = some p → Holds D (w.enter p) c.direct
  | _ => True

/-! ### Accounting -/

theorem cwdRefs_leave {w : System σ} {i : Fin NPROC} {p : Option Proc} (j : Ip) :
    (cwdRefs (w.leave i s p) j : Int) =
      cwdRefs w j - one ((w.proc i).map fun p => p.cwd) j + one (p.map fun p => p.cwd) j :=
  card_update (fun p : Option Proc => p.map (fun p => p.cwd) = some j) w.proc i p

/-- In a call only the working directories of the other processes are spare references. -/
theorem Accounted.enter {w : System σ} (h : Accounted w) (p : Proc) :
    Idle (w.enter p).1 ∧ ∀ j, spare (w.enter p).1 j = cwdRefs w j - one (some p.cwd) j := by
  refine ⟨h.idle, fun j => ?_⟩
  have hfiles : fileRefs (w.enter p).1 = fileRefs w.mem := fileRefs_congr rfl
  have hrefs := h.refs j
  unfold spare one
  rw [hfiles]
  simp only [Option.some.injEq]
  show (w.mem.inode j).ref - _ - (if p.cwd = j then 1 else 0) = _
  omega

theorem refs_spare (t : Mem) (j : Ip) :
    (t.inode j).ref = spare t j + fileRefs t j + one (some t.cwd) j := by
  unfold spare one
  simp only [Option.some.injEq]
  omega

/-- The references after a call in which the files of the processes other than `i` stay. -/
theorem Accounted.refs_leave {w : System σ} {i : Fin NPROC} {p : Proc} {q : Option Proc} {d : Int}
    {j : Ip} (h : Accounted w) (hp : w.proc i = some p)
    (hspare : spare s.1 j = spare (w.enter p).1 j + d) :
    (s.1.inode j).ref = fileRefs s.1 j + cwdRefs (w.leave i s q) j + d + one (some s.1.cwd) j -
      one (q.map fun p => p.cwd) j := by
  have hrefs := refs_spare s.1 j
  have henter := (h.enter p).2 j
  have hcwd := cwdRefs_leave (w := w) (i := i) (s := s) (p := q) j
  rw [hp, Option.map_some] at hcwd
  omega

theorem accounted_call {w : System σ} {i : Fin NPROC} {p : Proc} {c : Syscall} {r : Int} {s : Mem × σ}
    (h : Accounted w) (hp : w.proc i = some p) (hdirect : Holds D (w.enter p) c.direct)
    (hrun : c.code.run D (w.enter p) = .ok r s) : Accounted (w.leave i s (some s.1.proc)) := by
  have hbal := wp_ok (wp_code (o := fun _ => 0) c (h.enter p).1 hdirect) hrun
  refine ⟨hbal.1, fun j => ?_⟩
  have hrefs := h.refs_leave (q := some s.1.proc) (d := 0) hp ((Int.add_zero _).symm.trans (hbal.2 j))
  have hcwd : one ((some s.1.proc).map fun p => p.cwd) j = one (some s.1.cwd) j := rfl
  show (s.1.inode j).ref = fileRefs s.1 j + cwdRefs (w.leave i s (some s.1.proc)) j
  omega

theorem accounts_forkFiles {fds : List Fd} : Accounts o (forkFiles fds) fun _ => o := by
  induction fds with
  | nil => exact accounts_pure rfl
  | cons fd fds ih =>
    refine accounts_argfd.bind fun r => ?_
    cases r with
    | none => exact ih
    | some f => exact accounts_filedup.bind fun _ => ih

/-- `fork` takes a reference for the working directory of the child. -/
theorem ensures_fork (hidle : Idle t) :
    fork.Ensures (fun _ t' => Idle t' ∧ ∀ j, spare t' j = spare t j + one (some t'.cwd) j) t := by
  rw [fork, ensures_bind]
  refine ensures_mono ((accounts_forkFiles (o := fun _ => 0)).ensures t hidle) fun _ t₁ h₁ => ?_
  rw [ensures_bind, ensures_get, ensures_bind]
  refine ensures_mono ensures_idup ?_
  rintro _ _ ⟨rfl, rfl⟩
  refine ⟨h₁.1, fun j => ?_⟩
  have hj : spare t₁ j + 0 = spare t j + 0 := h₁.2 j
  show _ = _ + one (some t₁.cwd) j
  rw [spare_setEntry rfl, one]
  simp only [Option.some.injEq]
  omega

theorem accounted_fork {w : System σ} {i i' : Fin NPROC} {p : Proc} {s : Mem × σ} (h : Accounted w)
    (hp : w.proc i = some p) (hfree : w.proc i' = none) (hrun : fork.run D (w.enter p) = .ok () s) :
    Accounted ((w.leave i s (some s.1.proc)).leave i' s (some s.1.proc)) := by
  have hbal := wp_ok ((ensures_fork (h.enter p).1).run D w.dev) hrun
  refine ⟨hbal.1, fun j => ?_⟩
  have hrefs := h.refs_leave (q := some s.1.proc) hp (hbal.2 j)
  have hcwd : one ((some s.1.proc).map fun p => p.cwd) j = one (some s.1.cwd) j := rfl
  have hne : i' ≠ i := fun heq => by
    rw [heq, hp] at hfree
    cases hfree
  have hchild := cwdRefs_leave (w := w.leave i s (some s.1.proc)) (i := i') (s := s)
    (p := some s.1.proc) j
  have hslot : (w.leave i s (some s.1.proc)).proc i' = none :=
    (Function.update_of_ne hne _ _).trans hfree
  rw [hslot, Option.map_none, one_none] at hchild
  show (s.1.inode j).ref =
    fileRefs s.1 j + cwdRefs ((w.leave i s (some s.1.proc)).leave i' s (some s.1.proc)) j
  omega

theorem accounts_exitFiles {fds : List Fd} : Accounts o (exitFiles fds) fun _ => o := by
  induction fds with
  | nil => exact accounts_pure rfl
  | cons fd fds ih =>
    refine accounts_argfd.bind fun r => ?_
    cases r with
    | none => exact ih
    | some f => exact accounts_fileclose.bind fun _ => (accounts_ofile _).bind fun _ => ih

/-- `exit` gives back the reference of the working directory. -/
theorem ensures_exit (hidle : Idle t) :
    exit.Ensures (fun _ t' => Idle t' ∧ ∀ j, spare t' j = spare t j - one (some t'.cwd) j) t := by
  rw [exit, ensures_bind]
  refine ensures_mono ((accounts_exitFiles (o := fun _ => 0)).ensures t hidle) fun _ t₁ h₁ => ?_
  rw [ensures_bind, ensures_get]
  refine ensures_mono ensures_iput ?_
  rintro _ _ ⟨q, rfl, -, href, -⟩
  refine ⟨h₁.1, fun j => ?_⟩
  have hj : spare t₁ j + 0 = spare t j + 0 := h₁.2 j
  show _ = _ - one (some t₁.cwd) j
  rw [spare_setEntry (r := -1) href, one]
  simp only [Option.some.injEq]
  split
  · omega
  · omega

theorem accounted_exit {w : System σ} {i : Fin NPROC} {p : Proc} {s : Mem × σ} (h : Accounted w)
    (hp : w.proc i = some p) (hrun : exit.run D (w.enter p) = .ok () s) :
    Accounted (w.leave i s none) := by
  have hbal := wp_ok ((ensures_exit (h.enter p).1).run D w.dev) hrun
  refine ⟨hbal.1, fun j => ?_⟩
  have hrefs := h.refs_leave (q := none) hp ((hbal.2 j).trans (sub_eq_add_neg _ _))
  rw [Option.map_none, one_none] at hrefs
  show (s.1.inode j).ref = fileRefs s.1 j + cwdRefs (w.leave i s none) j
  omega

/-- A call that stays away from symbolic links keeps the count. -/
theorem accounted_step {w w' : System σ} {a : Action} (h : Accounted w) (hdirect : a.Direct D w)
    (hstep : Step D w a w') : Accounted w' := by
  cases hstep with
  | call hp hrun => exact accounted_call h hp (hdirect _ hp) hrun
  | fork hp hfree hrun => exact accounted_fork h hp hfree hrun
  | exit hp hrun => exact accounted_exit h hp hrun

/-- Completed calls that stay away from symbolic links. -/
inductive Run (D : Device Block Stop σ) (w : System σ) : System σ → Prop
  | refl : Run D w w
  | step {w' w'' : System σ} {a : Action} (hrun : Run D w w') (hdirect : a.Direct D w')
      (hstep : Step D w' a w'') : Run D w w''

/-- An entry of the inode cache that something refers to. -/
def Referred (w : System σ) (j : Ip) : Prop :=
  (∃ f, (w.mem.file f).ref ≠ 0 ∧ (w.mem.file f).ip = some j) ∨ ∃ i p, w.proc i = some p ∧ p.cwd = j

theorem Accounted.referred {w : System σ} {j : Ip} (h : Accounted w) (href : (w.mem.inode j).ref ≠ 0) :
    Referred w j := by
  by_contra hnone
  rw [Referred, not_or] at hnone
  obtain ⟨hfile, hproc⟩ := hnone
  have hfiles : fileRefs w.mem j = 0 := by
    rw [fileRefs, Finset.card_eq_zero, Finset.filter_eq_empty_iff]
    exact fun f _ hf => hfile ⟨f, hf⟩
  have hcwds : cwdRefs w j = 0 := by
    rw [cwdRefs, Finset.card_eq_zero, Finset.filter_eq_empty_iff]
    intro i _ hi
    obtain ⟨p, hp, hcwd⟩ := Option.map_eq_some_iff.mp hi
    exact hproc ⟨i, p, hp, hcwd⟩
  have hrefs := h.refs j
  omega

/-- In a run whose calls stay away from symbolic links every entry of the inode cache has as many
    references as open files and working directories refer to it, and what is in use is referred to. -/
theorem run_accounted {σ : Type} (D : Device Block Stop σ) {w w' : System σ} (hw : Accounted w)
    (hrun : Run D w w') : Accounted w' ∧ ∀ j, (w'.mem.inode j).ref ≠ 0 → Referred w' j := by
  have hkeep : Accounted w' := by
    induction hrun with
    | refl => exact hw
    | step _ hdirect hstep ih => exact accounted_step ih hdirect hstep
  exact ⟨hkeep, fun j => hkeep.referred⟩

/-! ### One process in the root directory -/

/-- The process, and the disk with one file. -/
def rootSystem : System (Flat Block) where
  mem := { linkMem {} with inode := fun j => if j = 0 then { inum := 1, ref := 1 } else {} }
  dev := ⟨linkDisk, []⟩
  proc := fun i => if i = 0 then some ⟨fun _ => none, 0⟩ else none

theorem rootSystem_accounted : Accounted rootSystem := ⟨fun _ _ => rfl, by decide +kernel⟩

/-- The references of an entry after a call, the open files for it, and the working directory. -/
def refAfter (m : EStateM Stop (Mem × Flat Block) Int) (s : Mem × Flat Block) (j : Ip) :
    Option (Int × Nat × Ip) :=
  match m s with
  | .ok _ s' => some ((s'.1.inode j).ref, fileRefs s'.1 j, s'.1.cwd)
  | .error _ _ => none

/-- `symlink("f", "g")` keeps the reference to `f`. -/
theorem symlink_leaks : ∃ w, Accounted rootSystem ∧
    Step (array fun _ => True) rootSystem (.call 0 (.symlink [102] [103])) w ∧ ¬ Accounted w := by
  obtain ⟨s, hrun⟩ := exists_ok_of_value
    (show valueOf ((Syscall.symlink [102] [103]).code.run (array fun _ => True))
      (rootSystem.enter ⟨fun _ => none, 0⟩) = some 0 by decide +kernel)
  have hafter : refAfter ((Syscall.symlink [102] [103]).code.run (array fun _ => True))
      (rootSystem.enter ⟨fun _ => none, 0⟩) 1 = some (1, 0, 0) := by decide +kernel
  rw [refAfter, hrun] at hafter
  simp only [Option.some.injEq, Prod.mk.injEq] at hafter
  obtain ⟨href, hfiles, hcwd⟩ := hafter
  refine ⟨_, rootSystem_accounted, .call rfl hrun, fun h => ?_⟩
  have hrefs : (s.1.inode 1).ref = _ := h.refs 1
  have hnew := cwdRefs_leave (w := rootSystem) (i := 0) (s := s) (p := some s.1.proc) 1
  have hold : cwdRefs rootSystem 1 = 0 := by decide +kernel
  have hbefore : one ((rootSystem.proc 0).map fun p => p.cwd) 1 = 0 := by decide
  have hproc : one ((some s.1.proc).map fun p => p.cwd) 1 = 0 := by
    show one (some s.1.cwd) 1 = 0
    rw [hcwd]
    decide
  have hfiles : fileRefs (rootSystem.leave 0 s (some s.1.proc)).mem 1 = 0 := hfiles
  omega

/-- The process opens `f` and makes a child. -/
theorem run_accounted_open : ∃ w w', Step (array fun _ => True) rootSystem (.call 0 (.open [102] 0)) w ∧
    Step (array fun _ => True) w (.fork 0 1) w' ∧
    (Accounted w' ∧ ∀ j, (w'.mem.inode j).ref ≠ 0 → Referred w' j) := by
  obtain ⟨s', hboth⟩ := exists_ok_of_value
    (show valueOf (((Syscall.open [102] 0).code >>= fun _ => fork).run (array fun _ => True))
      (rootSystem.enter ⟨fun _ => none, 0⟩) = some () by decide +kernel)
  rw [run_bind] at hboth
  obtain ⟨r, s, hopen, hfork⟩ := bind_eq_ok_state.mp hboth
  have hcall : Step (array fun _ => True) rootSystem (.call 0 (.open [102] 0)) _ := .call rfl hopen
  have hchild : Step (array fun _ => True) (rootSystem.leave 0 s (some s.1.proc)) (.fork 0 1) _ :=
    .fork (p := s.1.proc) (by rfl) (by rfl) hfork
  have hdirect : Action.Direct (array fun _ => True) rootSystem (.call 0 (.open [102] 0)) :=
    fun _ _ => rfl
  have hrun : Run (array fun _ => True) rootSystem _ :=
    .step (a := .fork 0 1) (.step .refl hdirect hcall) trivial hchild
  exact ⟨_, _, hcall, hchild, run_accounted _ rootSystem_accounted hrun⟩

end Xv6.File
