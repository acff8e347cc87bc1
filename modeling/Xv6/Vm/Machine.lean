import Xv6.Vm.Page

namespace Xv6.Vm

open Xv6.Thread (Stop Slot NPROC NOFILE PGSIZE KERNBASE pgRoundUp deref)
open Xv6.Lib

/-!
# Memory — `thread_create`, `exec` and `exec2` with their memory

The machine of `Xv6.Thread` with the pages behind the page directories.  The calls are written
down as one piece: nobody else runs in between.  What they do to the process table is what the
steps of `Xv6.Thread` do.
-/

/-- `MAXARG`, the number of arguments of `exec`. -/
def MAXARG : Nat := 32

/-- `ELF_MAGIC`. -/
def ELF_MAGIC : Nat := 0x464C457F

/-- `ELF_PROG_LOAD`. -/
def ELF_PROG_LOAD : Nat := 1

/-- The registers of a thread in user mode that the calls set. -/
structure Trapframe where
  eip : Nat
  esp : Nat
  deriving DecidableEq

/-- The machine: the process table, the memory, the page directories in their pages, the kernel
    stacks, what belongs to a thread and is not in the process table, and the file system: the
    inodes that paths lead to, the contents of the files, the references to inodes, their locks,
    and the number of operations that the log has begun. -/
structure Machine where
  kernel : Thread.Kernel
  mem : Mem
  dir : Page → Option Dir
  kstack : Slot → Option Page
  tf : Slot → Trapframe
  name : Slot → List Char
  namei : List Char → Option Nat
  file : Nat → List UInt8
  ref : Nat → Nat
  locked : Nat → Bool
  ops : Nat

/-- A page directory in use. -/
def Machine.getDir (s : Machine) (pgdir : Option Page) : Except Stop (Page × Dir) :=
  match pgdir with
  | none => .error .nullDeref
  | some p =>
    match s.dir p with
    | none => .error .nullDeref
    | some d => .ok (p, d)

/-- Subtraction of `uint`s. -/
def sub32 (a b : Nat) : Nat := (a + 2 ^ 32 - b % 2 ^ 32) % 2 ^ 32

/-! ### `thread_create` -/

/-- The kernel writes to user memory of the current process; a page that is not mapped is a fault. -/
def store (m : Mem) (d : Dir) (va : Nat) : List UInt8 → Except Stop Mem
  | [] => .ok m
  | b :: buf =>
    match d.walk (va / PGSIZE) with
    | some (some e) => store (m.write e.page (va % PGSIZE) [b]) d (va + 1) buf
    | _ => .error (.panic "trap")

/-- `thread_create` by `c` behind its limit check, with the directory `d` in the page `pgdir` and
    the new size; `m` is the main thread of `c`, and `np` the new slot. -/
def startThread (s : Machine) (c m np : Slot) (pgdir : Page) (d : Dir) (newsz start arg : Nat) :
    Except Stop Machine := do
  let k := (s.kernel.setProc np fun q => { q with sz := newsz }).setProc m fun q =>
    { q with sz := newsz }
  let d ← clearpteu d (sub32 newsz (2 * PGSIZE))
  let usp := sub32 newsz 8
  let (ok, mem) ← copyout s.mem d usp (word 0xffffffff ++ word arg)
  let s := { s with mem := mem, dir := Function.update s.dir pgdir (some d) }
  if ok then
    let k ← Thread.linkThread (k.ret c 0) c np newsz
    .ok { s with kernel := k, tf := Function.update s.tf np ⟨start, usp⟩
                 name := Function.update s.name np (s.name c) }
  else
    let k := (k.setProc np fun q => { q with state := .UNUSED }).ret c (-1)
    .ok { s with kernel := { k with ptableLocked := true }
                 tf := Function.update s.tf np { s.tf c with eip := start } }

/-- `thread_create` by `c` behind `allocproc`, which has returned the slot `np`; `m` is the main
    thread of `c`. -/
def createStack (s : Machine) (c m np : Slot) (thread start arg : Nat) : Except Stop Machine := do
  let k := Thread.attach s.kernel c m np
  let (pgdir, d) ← s.getDir (k.proc c).pgdir
  let mem ← store s.mem d thread (word (k.proc m).createNum)
  let sz := pgRoundUp (k.proc m).sz
  let (newsz, mem, d) ← allocuvm mem d sz (sz + 2 * PGSIZE)
  let s := { s with kernel := k, mem := mem, dir := Function.update s.dir pgdir (some d) }
  if Thread.overLimit k m newsz then .ok { s with kernel := k.ret c (-1) }
  else startThread s c m np pgdir d newsz start arg

/-- `thread_create(thread, start, arg)` by `c`. -/
def threadCreate (s : Machine) (c : Slot) (thread start arg : Nat) : Except Stop Machine := do
  let m ← deref (s.kernel.proc c).mainThread
  match Thread.firstUnused s.kernel with
  | none => .ok { s with kernel := Thread.allocproc s.kernel c (.create m) true }
  | some np =>
    match kalloc s.mem with
    | none => .ok { s with kernel := Thread.allocproc s.kernel c (.create m) false
                           kstack := Function.update s.kstack np none }
    | some (p, mem) =>
      createStack { s with kernel := Thread.allocproc s.kernel c (.create m) true, mem := mem
                           kstack := Function.update s.kstack np (some p) }
        c m np thread start arg

/-! ### Files -/

/-- `begin_op()`. -/
def beginOp (s : Machine) : Machine := { s with ops := s.ops + 1 }

/-- `end_op()`. -/
def endOp (s : Machine) : Machine := { s with ops := s.ops - 1 }

/-- The reference that `namei` returns, and `ilock(ip)`. -/
def igetLock (s : Machine) (ip : Nat) : Machine :=
  { s with ref := Function.update s.ref ip (s.ref ip + 1)
           locked := Function.update s.locked ip true }

/-- `iunlockput(ip)` of a file that has a name. -/
def iunlockput (s : Machine) (ip : Nat) : Machine :=
  { s with ref := Function.update s.ref ip (s.ref ip - 1)
           locked := Function.update s.locked ip false }

/-- `readi(ip, dst, off, n)`: the bytes that are read, or nothing if it returns -1. -/
def readi (file : List UInt8) (off n : Nat) : Option (List UInt8) :=
  if file.length < off ∨ 2 ^ 32 ≤ off + n then none
  else some ((file.drop off).take n)

/-- `readi(ip, dst, off, n) == n`. -/
def readStruct (file : List UInt8) (off n : Nat) : Option (List UInt8) :=
  (readi file off n).filter fun buf => buf.length = n

/-- A little-endian field of `w` bytes. -/
def field (buf : List UInt8) (off w : Nat) : Nat :=
  ((buf.drop off).take w).foldr (fun b v => b.toNat + 256 * v) 0

/-! ### `exec`: the program -/

/-- The fields of `struct elfhdr` that `exec` uses. -/
structure ElfHdr where
  magic : Nat
  entry : Nat
  phoff : Nat
  phnum : Nat

/-- `sizeof(struct elfhdr)`. -/
def ELFHDR : Nat := 52

/-- A `struct elfhdr` as it is in the file. -/
def elfHdr (buf : List UInt8) : ElfHdr := ⟨field buf 0 4, field buf 24 4, field buf 28 4, field buf 44 2⟩

/-- The fields of `struct proghdr` that `exec` uses. -/
structure ProgHdr where
  type : Nat
  off : Nat
  vaddr : Nat
  filesz : Nat
  memsz : Nat

/-- `sizeof(struct proghdr)`. -/
def PROGHDR : Nat := 32

/-- A `struct proghdr` as it is in the file. -/
def progHdr (buf : List UInt8) : ProgHdr :=
  ⟨field buf 0 4, field buf 4 4, field buf 8 4, field buf 16 4, field buf 20 4⟩

/-- The loop of `loaduvm` with `n` more pages to go, at the offset `i`; `false` if the file is too
    short. -/
def loadLoop (file : List UInt8) (d : Dir) (addr off sz : Nat) :
    Nat → Nat → Mem → Except Stop (Bool × Mem)
  | 0, _, m => .ok (true, m)
  | n + 1, i, m =>
    match d.walk ((addr + i) / PGSIZE) with
    | none => .error (.panic "loaduvm: address should exist")
    | some e =>
      let len := min (sz - i) PGSIZE
      match readi file ((off + i) % 2 ^ 32) len with
      | none => .ok (false, m)
      | some buf =>
        -- The address of an entry that is not present is 0.
        let m := m.write ((e.map Pte.page).getD 0) 0 buf
        if buf.length = len then loadLoop file d addr off sz n (i + PGSIZE) m else .ok (false, m)

/-- `loaduvm(pgdir, addr, ip, off, sz)`. -/
def loaduvm (m : Mem) (d : Dir) (addr : Nat) (file : List UInt8) (off sz : Nat) :
    Except Stop (Bool × Mem) :=
  if addr % PGSIZE ≠ 0 then .error (.panic "loaduvm: addr must be page aligned")
  else loadLoop file d addr off sz (pagesUp sz) 0 m

/-- The body of the loop of `exec` over the segments, for a program of size `sz` so far: the new
    size, or nothing for `goto bad`. -/
def loadSegment (file : List UInt8) (ph : ProgHdr) (sz : Nat) (m : Mem) (d : Dir) :
    Except Stop (Option Nat × Mem × Dir) :=
  if ph.type ≠ ELF_PROG_LOAD then .ok (some sz, m, d)
  else if ph.memsz < ph.filesz then .ok (none, m, d)
  else if (ph.vaddr + ph.memsz) % 2 ^ 32 < ph.vaddr then .ok (none, m, d)
  else do
    let (sz, m, d) ← allocuvm m d sz ((ph.vaddr + ph.memsz) % 2 ^ 32)
    if sz = 0 then .ok (none, m, d)
    else if ph.vaddr % PGSIZE ≠ 0 then .ok (none, m, d)
    else
      let (ok, m) ← loaduvm m d ph.vaddr file ph.off ph.filesz
      .ok (if ok then some sz else none, m, d)

/-- The loop of `exec` over the segments, with `n` more headers to go. -/
def loadSegments (file : List UInt8) :
    Nat → Nat → Nat → Mem → Dir → Except Stop (Option Nat × Mem × Dir)
  | 0, _, sz, m, d => .ok (some sz, m, d)
  | n + 1, off, sz, m, d =>
    match readStruct file off PROGHDR with
    | none => .ok (none, m, d)
    | some buf => do
      match ← loadSegment file (progHdr buf) sz m d with
      | (none, m, d) => .ok (none, m, d)
      | (some sz, m, d) => loadSegments file n ((off + PROGHDR) % 2 ^ 32) sz m d

/-! ### `exec`: the stack -/

/-- The loop of `exec` over the arguments, with the stack pointer and the pointers in `ustack` so
    far: the same at its end, or nothing for `goto bad`. -/
def pushArgs (d : Dir) :
    List (List UInt8) → Nat → List Nat → Mem → Except Stop (Option (Nat × List Nat) × Mem)
  | [], sp, ptrs, m => .ok (some (sp, ptrs), m)
  | arg :: argv, sp, ptrs, m =>
    if MAXARG ≤ ptrs.length then .ok (none, m)
    else do
      let sp := sub32 sp (arg.length + 1) / 4 * 4
      let (ok, m) ← copyout m d sp (arg ++ [0])
      if ok then pushArgs d argv sp (ptrs ++ [sp]) m else .ok (none, m)

/-- `ustack`, with the stack pointer behind the strings. -/
def ustack (sp : Nat) (ptrs : List Nat) : List UInt8 :=
  word 0xffffffff ++ word ptrs.length ++ word (sub32 sp ((ptrs.length + 1) * 4)) ++
    ptrs.flatMap word ++ word 0

/-- The arguments on a stack that ends at `sz`: the stack pointer, or nothing for `goto bad`. -/
def pushStack (d : Dir) (argv : List (List UInt8)) (sz : Nat) (m : Mem) :
    Except Stop (Option Nat × Mem) := do
  match ← pushArgs d argv sz [] m with
  | (none, m) => .ok (none, m)
  | (some (sp, ptrs), m) =>
    let usp := sub32 sp ((3 + ptrs.length + 1) * 4)
    let (ok, m) ← copyout m d usp (ustack sp ptrs)
    .ok (if ok then some usp else none, m)

/-! ### `exec`: the call -/

/-- The call of `c` fails. -/
def fail (s : Machine) (c : Slot) : Machine := { s with kernel := s.kernel.ret c (-1) }

/-- The label `bad` of `exec`, with the new directory, if there is one, and the inode, if it is
    still locked. -/
def bad (s : Machine) (c : Slot) (new : Option (Page × Dir)) (ip : Option Nat) :
    Except Stop Machine := do
  let mem ← match new with
    | none => .ok s.mem
    | some (pgdir, d) => freevm s.mem pgdir d
  let s := { s with mem := mem }
  match ip with
  | none => .ok (fail s c)
  | some ip => .ok (fail (endOp (iunlockput s ip)) c)

/-- The name behind the last slash, as `safestrcpy` copies it. -/
def lastName (path : List Char) : List Char :=
  ((path.reverse.takeWhile fun ch => ch ≠ '/').reverse).take 15

/-- `kill_for_exec` up to its `acquire(&ptable.lock)`. -/
def closeAll : Nat → Thread.Kernel → Slot → Except Stop Thread.Kernel
  | 0, _, _ => .error .diverges
  | n + 1, k, c =>
    if k.walk c = .done then .ok k
    else do
      let k ← Thread.closeFiles k c
      closeAll n k c

/-- The kernel stacks that `kill_for_exec` frees. -/
def freeStacks (s : Machine) (c : Slot) (xs : List Slot) : Except Stop Mem :=
  xs.foldlM (fun mem p =>
    if p = c then .ok mem
    else
      match s.kstack p with
      | none => .error (.panic "kfree")
      | some stack => .ok (kfree mem stack)) s.mem

/-- `exec` of `c` behind the limit check; `old` is the directory that is no longer used. -/
def execEnd (s : Machine) (c : Slot) (old : Option Page) : Except Stop Machine := do
  let k ← closeAll (2 * NPROC * (NOFILE + 4)) s.kernel c
  match walkList k.next NPROC (k.proc c).mainThread with
  | none => .error .diverges
  | some xs =>
    let mem ← freeStacks s c xs
    let k ← Thread.execFinish k c old
    let (pgdir, d) ← s.getDir old
    let mem ← freevm mem pgdir d
    .ok { s with kernel := k, mem := mem, dir := Function.update s.dir pgdir none
                 kstack := fun p => if p ∈ xs ∧ p ≠ c then none else s.kstack p }

/-- `exec` of `c` from the line on where it saves the name of the program. -/
def execCommit (s : Machine) (c : Slot) (path : List Char) (pgdir : Page) (d : Dir)
    (sz sp entry : Nat) : Except Stop Machine := do
  let k ← Thread.execCommit s.kernel c pgdir sz
  let s := { s with kernel := k, dir := Function.update s.dir pgdir (some d)
                    name := Function.update s.name c (lastName path) }
  match k.call c with
  | .exec old => execEnd { s with tf := Function.update s.tf c ⟨entry, sp⟩ } c old
  | _ => .ok s

/-- `exec` of `c` from the allocation of the stack on; `sz` is the size of the program. -/
def execStack (s : Machine) (c : Slot) (path : List Char) (argv : List (List UInt8))
    (stackpages : Nat) (pgdir : Page) (d : Dir) (sz entry : Nat) : Except Stop Machine := do
  let sz := pgRoundUp sz
  let (sz, mem, d) ← allocuvm s.mem d sz (sz + stackpages * PGSIZE)
  let s := { s with mem := mem }
  if sz = 0 then bad s c (some (pgdir, d)) none
  else
    let d ← clearpteu d (sub32 sz (2 * PGSIZE))
    let (sp, mem) ← pushStack d argv sz s.mem
    let s := { s with mem := mem }
    match sp with
    | none => bad s c (some (pgdir, d)) none
    | some sp => execCommit s c path pgdir d sz sp entry

/-- `exec` of `c` with the inode of the program. -/
def execFile (s : Machine) (c : Slot) (path : List Char) (argv : List (List UInt8))
    (stackpages ip : Nat) : Except Stop Machine :=
  match readStruct (s.file ip) 0 ELFHDR with
  | none => bad s c none (some ip)
  | some buf =>
    if (elfHdr buf).magic ≠ ELF_MAGIC then bad s c none (some ip)
    else do
      let (new, mem) ← setupkvm s.mem
      let s := { s with mem := mem }
      match new with
      | none => bad s c none (some ip)
      | some (pgdir, d) =>
        let (sz, mem, d) ← loadSegments (s.file ip) (elfHdr buf).phnum (elfHdr buf).phoff 0 s.mem d
        let s := { s with mem := mem }
        match sz with
        | none => bad s c (some (pgdir, d)) (some ip)
        | some sz =>
          execStack (endOp (iunlockput s ip)) c path argv stackpages pgdir d sz (elfHdr buf).entry

/-- The common text of `exec` and `exec2`, with the number of pages for the stack and its guard. -/
def execWith (s : Machine) (c : Slot) (path : List Char) (argv : List (List UInt8))
    (stackpages : Nat) : Except Stop Machine :=
  let s := beginOp s
  match s.namei path with
  | none => .ok (fail (endOp s) c)
  | some ip => execFile (igetLock s ip) c path argv stackpages ip

/-- `exec(path, argv)` by `c`. -/
def exec (s : Machine) (c : Slot) (path : List Char) (argv : List (List UInt8)) :
    Except Stop Machine := execWith s c path argv 2

/-- `exec2(path, argv, stacksize)` by `c`. -/
def exec2 (s : Machine) (c : Slot) (path : List Char) (argv : List (List UInt8)) (stacksize : Int) :
    Except Stop Machine :=
  if stacksize < 1 ∨ 100 < stacksize then .ok (fail s c)
  else execWith s c path argv (stacksize.toNat + 1)

end Xv6.Vm
