import Xv6.File.Inode

namespace Xv6.File

open Xv6.Lib
open Xv6.Fs (Block BSIZE Stop)

/-!
# Files — system calls (`pj3/file.c`, `sysfile.c`, and the file part of `exec.c`)

The system calls of one process, with the arguments that `argint`, `argstr` and `argptr` have
accepted: strings are the characters before the zero byte, a buffer is its contents.  Pipes are
left out.
-/

/-- `O_WRONLY`. -/
def O_WRONLY : Nat := 0x001

/-- `O_RDWR`. -/
def O_RDWR : Nat := 0x002

/-- `O_CREATE`. -/
def O_CREATE : Nat := 0x200

/-- A descriptor number that is in range. -/
abbrev Fd := Fin NOFILE

/-- Assign to the fields of an open file. -/
def setFile (f : Fin NFILE) (g : OpenFile → OpenFile) : FsM Unit :=
  modify fun t => { t with file := Function.update t.file f (g (t.file f)) }

/-! ### `file.c` -/

/-- `filealloc()`. -/
def filealloc : FsM (Option (Fin NFILE)) := do
  let t ← get
  match (List.finRange NFILE).find? fun f => (t.file f).ref = 0 with
  | none => pure none
  | some f => do
    setFile f fun q => { q with ref := 1 }
    pure (some f)

/-- `filedup(f)`. -/
def filedup (f : Fin NFILE) : FsM Unit := do
  let t ← get
  if (t.file f).ref < 1 then panic "filedup" else setFile f fun q => { q with ref := q.ref + 1 }

/-- `fileclose(f)`. -/
def fileclose (f : Fin NFILE) : FsM Unit := do
  let t ← get
  if (t.file f).ref < 1 then panic "fileclose"
  else if 1 < (t.file f).ref then setFile f fun q => { q with ref := q.ref - 1 }
  else do
    setFile f fun q => { q with ref := 0, ip := none }
    match (t.file f).ip with
    | none => pure ()
    | some ip => iput ip

/-- `fileread(f, addr, n)`: the result, and the bytes written to `addr`. -/
def fileread (f : Fin NFILE) (n : Nat) : FsM (Int × List UInt8) := do
  let t ← get
  if (t.file f).readable = false then pure (-1, [])
  else
    match (t.file f).ip with
    | none => panic "fileread"
    | some ip => do
      ilock ip
      let r ← readi ip (t.file f).off n
      if 0 < r.1 then do
        setFile f fun q => { q with off := q.off + r.1.toNat }
        iunlock ip
        pure r
      else do
        iunlock ip
        pure r

/-- The number of bytes that `filewrite` writes at a time. -/
def writeMax : Nat := (10 - 1 - 1 - 2) / 2 * 512

/-- The loop of `filewrite`; the result is `i`. -/
def fileWriteLoop (f : Fin NFILE) (ip : Ip) (src : Nat → UInt8) (n : Nat) : Nat → Nat → FsM Nat
  | 0, i => pure i
  | k + 1, i =>
    if n ≤ i then pure i
    else do
      let n1 := min (n - i) writeMax
      ilock ip
      let t ← get
      let r ← writei ip (fun j => src (i + j)) (t.file f).off n1
      if 0 < r then do
        setFile f fun q => { q with off := q.off + r.toNat }
        iunlock ip
        if r ≠ n1 then panic "short filewrite" else fileWriteLoop f ip src n k (i + n1)
      else do
        iunlock ip
        if r < 0 then pure i
        else panic "short filewrite"

/-- `filewrite(f, addr, n)`. -/
def filewrite (f : Fin NFILE) (src : Nat → UInt8) (n : Nat) : FsM Int := do
  let t ← get
  if (t.file f).writable = false then pure (-1)
  else
    match (t.file f).ip with
    | none => panic "filewrite"
    | some ip => do
      let i ← fileWriteLoop f ip src n (n / writeMax + 1) 0
      if i = n then pure n else pure (-1)

/-! ### Descriptors -/

/-- `argfd`: the open file of a descriptor. -/
def argfd (fd : Fd) : FsM (Option (Fin NFILE)) := do
  let t ← get
  pure (t.ofile fd)

/-- `fdalloc(f)`. -/
def fdalloc (f : Fin NFILE) : FsM (Option Fd) := do
  let t ← get
  match (List.finRange NOFILE).find? fun fd => (t.ofile fd).isNone with
  | none => pure none
  | some fd => do
    modify fun t => { t with ofile := Function.update t.ofile fd (some f) }
    pure (some fd)

/-- `sys_dup`. -/
def sysDup (fd : Fd) : FsM Int := do
  match ← argfd fd with
  | none => pure (-1)
  | some f => do
    match ← fdalloc f with
    | none => pure (-1)
    | some fd => do
      filedup f
      pure fd.val

/-- `sys_read`: the result, and the bytes read. -/
def sysRead (fd : Fd) (n : Nat) : FsM (Int × List UInt8) := do
  match ← argfd fd with
  | none => pure (-1, [])
  | some f => fileread f n

/-- `sys_write`. -/
def sysWrite (fd : Fd) (src : Nat → UInt8) (n : Nat) : FsM Int := do
  match ← argfd fd with
  | none => pure (-1)
  | some f => filewrite f src n

/-- `sys_close`. -/
def sysClose (fd : Fd) : FsM Int := do
  match ← argfd fd with
  | none => pure (-1)
  | some f => do
    modify fun t => { t with ofile := Function.update t.ofile fd none }
    fileclose f
    pure 0

/-! ### Names -/

/-- `ip->nlink++`, a `short`. -/
def incLink (ip : Ip) : FsM Unit :=
  setInode ip fun q => { q with nlink := (q.nlink + 1) % 2 ^ 16 }

/-- `ip->nlink--`, a `short`. -/
def decLink (ip : Ip) : FsM Unit :=
  setInode ip fun q => { q with nlink := (q.nlink + (2 ^ 16 - 1)) % 2 ^ 16 }

/-- The exit `bad` of `sys_link`. -/
def linkBad (ip : Ip) : FsM Int := do
  ilock ip
  decLink ip
  iupdate ip
  iunlockput ip
  pure (-1)

/-- `sys_link(old, new)`. -/
def sysLink (old new : List UInt8) : FsM Int := do
  match ← namei old with
  | none => pure (-1)
  | some ip => do
    ilock ip
    let q ← inodeOf ip
    if q.type = T_DIR then do
      iunlockput ip
      pure (-1)
    else do
      incLink ip
      iupdate ip
      iunlock ip
      match ← nameiparent new with
      | none => linkBad ip
      | some (dp, name) => do
        ilock dp
        let q ← inodeOf ip
        let r ← dirlink dp name q.inum
        if r < 0 then do
          iunlockput dp
          linkBad ip
        else do
          iunlockput dp
          iput ip
          pure 0

/-- The loop of `isdirempty`, for the given offsets. -/
def emptyLoop (dp : Ip) : List Nat → FsM Bool
  | [] => pure true
  | off :: offs => do
    let de ← readDirent dp off "isdirempty: readi"
    if direntInum de ≠ 0 then pure false else emptyLoop dp offs

/-- `isdirempty(dp)`. -/
def isdirempty (dp : Ip) : FsM Bool := do
  let q ← inodeOf dp
  emptyLoop dp (direntOffs (2 * DIRENTSIZE) q.size)

/-- The end of `sys_unlink`: the entry of `dp` at `off` is cleared. -/
def unlinkEntry (dp ip : Ip) (off : Nat) : FsM Int := do
  let r ← writeData dp (fun _ => 0) off DIRENTSIZE
  if r ≠ DIRENTSIZE then panic "unlink: writei"
  else do
    let q ← inodeOf ip
    if q.type = T_DIR then do
      decLink dp
      iupdate dp
    else pure ()
    iunlockput dp
    decLink ip
    iupdate ip
    iunlockput ip
    pure 0

/-- The name `"."`. -/
def dot : List UInt8 := [46]

/-- The name `".."`. -/
def dotdot : List UInt8 := [46, 46]

/-- `sys_unlink(path)`. -/
def sysUnlink (path : List UInt8) : FsM Int := do
  match ← nameiparent path with
  | none => pure (-1)
  | some (dp, name) => do
    ilock dp
    if name = dot ∨ name = dotdot then do
      iunlockput dp
      pure (-1)
    else do
      match ← dirlookup dp name with
      | none => do
        iunlockput dp
        pure (-1)
      | some (ip, off) => do
        ilock ip
        let q ← inodeOf ip
        if q.nlink = 0 ∨ 2 ^ 15 ≤ q.nlink then panic "unlink: nlink < 1"
        else if q.type = T_DIR then do
          if ← isdirempty ip then unlinkEntry dp ip off
          else do
            iunlockput ip
            iunlockput dp
            pure (-1)
        else unlinkEntry dp ip off

/-- The end of `create`: the new inode `ip` is entered in `dp`. -/
def createEntry (dp ip : Ip) (name : List UInt8) : FsM (Option Ip) := do
  let q ← inodeOf ip
  let r ← dirlink dp name q.inum
  if r < 0 then panic "create: dirlink"
  else do
    iunlockput dp
    pure (some ip)

/-- `create(path, type, major, minor)`. -/
def create (path : List UInt8) (type major minor : Nat) : FsM (Option Ip) := do
  match ← nameiparent path with
  | none => pure none
  | some (dp, name) => do
    ilock dp
    match ← dirlookup dp name with
    | some (ip, _) => do
      iunlockput dp
      ilock ip
      let q ← inodeOf ip
      if type = T_FILE ∧ q.type = T_FILE then pure (some ip)
      else do
        iunlockput ip
        pure none
    | none => do
      let ip ← ialloc type
      ilock ip
      setInode ip fun q =>
        { q with major := major % 2 ^ 16, minor := minor % 2 ^ 16, nlink := 1 }
      iupdate ip
      if type = T_DIR then do
        incLink dp
        iupdate dp
        let q ← inodeOf ip
        let r ← dirlink ip dot q.inum
        if r < 0 then panic "create dots"
        else do
          let p ← inodeOf dp
          let r ← dirlink ip dotdot p.inum
          if r < 0 then panic "create dots" else createEntry dp ip name
      else createEntry dp ip name

/-- `sys_symlink(target, link)`.  A target that is longer than `addrs` runs over its end. -/
def sysSymlink (target link : List UInt8) : FsM Int := do
  match ← namei target with
  | none => pure (-1)
  | some ip => do
    ilock ip
    let q ← inodeOf ip
    if q.type = T_DIR then do
      iunlockput ip
      pure (-1)
    else do
      iupdate ip
      iunlock ip
      match ← create link T_SYMLINK 0 0 with
      | none => pure (-1)
      | some dp =>
        if ADDRSIZE < target.length then .stop .overrun
        else do
          setInode dp fun q =>
            { q with addrs := q.addrs.splice 0 target.length fun i => target.getD i 0 }
          iupdate dp
          iunlock dp
          pure 0

/-- The end of `sys_open` for the locked inode `ip`. -/
def openInode (ip : Ip) (omode : Nat) : FsM Int := do
  match ← filealloc with
  | none => do
    iunlockput ip
    pure (-1)
  | some f => do
    match ← fdalloc f with
    | none => do
      fileclose f
      iunlockput ip
      pure (-1)
    | some fd => do
      iunlock ip
      setFile f fun q =>
        { q with ip := some ip, off := 0, readable := omode &&& O_WRONLY = 0,
                 writable := omode &&& O_WRONLY ≠ 0 ∨ omode &&& O_RDWR ≠ 0 }
      pure fd.val

/-- `sys_open(path, omode)`. -/
def sysOpen (path : List UInt8) (omode : Nat) : FsM Int :=
  if omode &&& O_CREATE ≠ 0 then do
    match ← create path T_FILE 0 0 with
    | none => pure (-1)
    | some ip => openInode ip omode
  else do
    match ← namei path with
    | none => pure (-1)
    | some ip => do
      ilock ip
      let q ← inodeOf ip
      if q.type = T_DIR ∧ omode ≠ 0 then do
        iunlockput ip
        pure (-1)
      else openInode ip omode

/-- The common part of `sys_mkdir` and `sys_mknod`. -/
def makeNode (path : List UInt8) (type major minor : Nat) : FsM Int := do
  match ← create path type major minor with
  | none => pure (-1)
  | some ip => do
    iunlockput ip
    pure 0

/-- `sys_mkdir(path)`. -/
def sysMkdir (path : List UInt8) : FsM Int := makeNode path T_DIR 0 0

/-- `sys_mknod(path, major, minor)`. -/
def sysMknod (path : List UInt8) (major minor : Nat) : FsM Int := makeNode path T_DEV major minor

/-- `sys_chdir(path)`. -/
def sysChdir (path : List UInt8) : FsM Int := do
  match ← namei path with
  | none => pure (-1)
  | some ip => do
    ilock ip
    let q ← inodeOf ip
    if q.type ≠ T_DIR then do
      iunlockput ip
      pure (-1)
    else do
      iunlock ip
      let t ← get
      iput t.cwd
      modify fun t => { t with cwd := ip }
      pure 0

/-! ### `exec` -/

/-- `sizeof(struct elfhdr)`. -/
def ELFHDRSIZE : Nat := 52

/-- `sizeof(struct proghdr)`. -/
def PROGHDRSIZE : Nat := 32

/-- `PGSIZE`. -/
def PGSIZE : Nat := 4096

/-- `KERNBASE`. -/
def KERNBASE : Nat := 0x80000000

/-- The `w` bytes at `off` of a header, as a number. -/
def field (s : List UInt8) (off w : Nat) : Nat :=
  ((s.drop off).take w).foldr (fun ch v => ch.toNat + 256 * v) 0

/-- The loop of `loaduvm`, for the pages at the given offsets; does it succeed? -/
def loaduvm (ip : Ip) (offset sz : Nat) : List Nat → FsM Bool
  | [] => pure true
  | i :: is => do
    let n := min (sz - i) PGSIZE
    let r ← readi ip ((offset + i) % 2 ^ 32) n
    if r.1 ≠ n then pure false else loaduvm ip offset sz is

/-- The loop of `exec` over the program headers, from number `i` on; does it succeed?
    `alloc (i + 1)` tells whether `allocuvm` finds memory. -/
def loadHeaders (ip : Ip) (phoff : Nat) (alloc : Nat → Bool) : Nat → Nat → Nat → FsM Bool
  | 0, _, _ => pure true
  | k + 1, i, sz => do
    let r ← readi ip ((phoff + i * PROGHDRSIZE) % 2 ^ 32) PROGHDRSIZE
    if r.1 ≠ PROGHDRSIZE then pure false
    else if field r.2 0 4 ≠ 1 then loadHeaders ip phoff alloc k (i + 1) sz
    else if field r.2 20 4 < field r.2 16 4 then pure false
    else if 2 ^ 32 ≤ field r.2 8 4 + field r.2 20 4 then pure false
    else if KERNBASE ≤ field r.2 8 4 + field r.2 20 4 ∨ alloc (i + 1) = false then pure false
    else if max sz (field r.2 8 4 + field r.2 20 4) = 0 then pure false
    else if field r.2 8 4 % PGSIZE ≠ 0 then pure false
    else do
      let filesz := field r.2 16 4
      let pages := (List.range ((filesz + PGSIZE - 1) / PGSIZE)).map fun j => j * PGSIZE
      if ← loaduvm ip (field r.2 4 4) filesz pages then
        loadHeaders ip phoff alloc k (i + 1) (max sz (field r.2 8 4 + field r.2 20 4))
      else pure false

/-- `exec(path, argv)` up to the end of its file operations; `alloc 0` tells whether `setupkvm`
    finds memory. -/
def sysExec (path : List UInt8) (alloc : Nat → Bool) : FsM Int := do
  match ← namei path with
  | none => pure (-1)
  | some ip => do
    ilock ip
    let r ← readi ip 0 ELFHDRSIZE
    if r.1 ≠ ELFHDRSIZE ∨ field r.2 0 4 ≠ 0x464C457F ∨ alloc 0 = false then do
      iunlockput ip
      pure (-1)
    else do
      let ok ← loadHeaders ip (field r.2 28 4) alloc (field r.2 44 2) 0 0
      iunlockput ip
      if ok then pure 0 else pure (-1)

/-! ### System calls -/

/-- The file system calls with their arguments. -/
inductive Syscall
  | read (fd : Fd) (n : Nat)
  | write (fd : Fd) (src : Nat → UInt8) (n : Nat)
  | close (fd : Fd)
  | dup (fd : Fd)
  | link (old new : List UInt8)
  | unlink (path : List UInt8)
  | symlink (target path : List UInt8)
  | open (path : List UInt8) (omode : Nat)
  | mkdir (path : List UInt8)
  | mknod (path : List UInt8) (major minor : Nat)
  | chdir (path : List UInt8)
  | exec (path : List UInt8) (alloc : Nat → Bool)

/-- The code of a system call. -/
def Syscall.code : Syscall → FsM Int
  | .read fd n => do
    let r ← sysRead fd n
    pure r.1
  | .write fd src n => sysWrite fd src n
  | .close fd => sysClose fd
  | .dup fd => sysDup fd
  | .link old new => sysLink old new
  | .unlink path => sysUnlink path
  | .symlink target path => sysSymlink target path
  | .open path omode => sysOpen path omode
  | .mkdir path => sysMkdir path
  | .mknod path major minor => sysMknod path major minor
  | .chdir path => sysChdir path
  | .exec path alloc => sysExec path alloc

end Xv6.File
