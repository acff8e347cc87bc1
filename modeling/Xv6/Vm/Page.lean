import Xv6.Thread.Kernel

namespace Xv6.Vm

open Xv6.Thread (Stop PGSIZE KERNBASE)

/-!
# Memory — pages and page tables (`pj2/xv6-public/vm.c`, `kalloc.c`)

Physical pages are numbers.  A page that is used as a page directory or as a page table is seen
through `Dir` and `Table`, any other one through its bytes.  The kernel part of all directories is
the same, so that only the pages of its page tables are recorded.  Addresses are numbers, and a
page of virtual memory is named by its number, the address divided by `PGSIZE`.
-/

/-- `NPTENTRIES`, the number of entries of a page table. -/
def NPTENTRIES : Nat := 1024

/-- `PHYSTOP`, the top of the physical memory. -/
def PHYSTOP : Nat := 0xE000000

/-- `DEVSPACE`, the devices at high addresses. -/
def DEVSPACE : Nat := 0xFE000000

/-- The number of user pages. -/
def USERPAGES : Nat := KERNBASE / PGSIZE

/-- The number of page tables that the kernel part of a directory needs. -/
def KERNTABLES : Nat := (PHYSTOP + (2 ^ 32 - DEVSPACE)) / (PGSIZE * NPTENTRIES)

/-- A page of the physical memory. -/
abbrev Page := Nat

/-- A page table entry that is present. -/
structure Pte where
  page : Page
  user : Bool
  deriving DecidableEq

/-- A page table, which is itself in a page. -/
structure Table where
  page : Page
  pte : Nat → Option Pte

/-- A page directory: the page tables of the kernel part, and those of the user part. -/
structure Dir where
  kernel : List Page
  table : Nat → Option Table

/-- The free list `kmem.freelist` and the bytes of the pages. -/
structure Mem where
  free : List Page
  data : Page → Nat → UInt8

/-- `PGROUNDUP(sz)` in pages. -/
def pagesUp (sz : Nat) : Nat := (sz + PGSIZE - 1) / PGSIZE

/-! ### `kalloc.c` -/

/-- `kalloc()`. -/
def kalloc (m : Mem) : Option (Page × Mem) :=
  match m.free with
  | [] => none
  | p :: free => some (p, { m with free := free })

/-- `memset(p, v, PGSIZE)`. -/
def Mem.fill (m : Mem) (p : Page) (v : UInt8) : Mem :=
  { m with data := Function.update m.data p fun _ => v }

/-- `kfree(p)`. -/
def kfree (m : Mem) (p : Page) : Mem := { m.fill p 1 with free := p :: m.free }

/-- `memmove` of some bytes into a page. -/
def Mem.write (m : Mem) (p : Page) (off : Nat) (buf : List UInt8) : Mem :=
  { m with data := Function.update m.data p fun i =>
      if off ≤ i ∧ i < off + buf.length then buf.getD (i - off) 0 else m.data p i }

/-! ### Page tables -/

/-- The entries of the kernel part: the physical memory and the devices, not for the user. -/
def kernelPte (a : Nat) : Option (Option Pte) :=
  if a < (KERNBASE + PHYSTOP) / PGSIZE then some (some ⟨a - USERPAGES, false⟩)
  else if a < DEVSPACE / PGSIZE then none
  else some (some ⟨a, false⟩)

/-- `walkpgdir(pgdir, a, 0)`: the entry, if there is a page table for it. -/
def Dir.walk (d : Dir) (a : Nat) : Option (Option Pte) :=
  if a < USERPAGES then (d.table (a / NPTENTRIES)).map fun t => t.pte (a % NPTENTRIES)
  else kernelPte a

/-- Assign to an entry of the directory. -/
def Dir.setTable (d : Dir) (i : Nat) (t : Table) : Dir :=
  { d with table := Function.update d.table i (some t) }

/-- Assign to the entry of a user page. -/
def Dir.setPte (d : Dir) (a : Nat) (e : Option Pte) : Dir :=
  match d.table (a / NPTENTRIES) with
  | none => d
  | some t =>
    d.setTable (a / NPTENTRIES) { t with pte := Function.update t.pte (a % NPTENTRIES) e }

/-- `walkpgdir(pgdir, a, 1)` for a user page: make the page table if there is none. -/
def walkAlloc (m : Mem) (d : Dir) (a : Nat) : Option (Mem × Dir) :=
  match d.table (a / NPTENTRIES) with
  | some _ => some (m, d)
  | none =>
    match kalloc m with
    | none => none
    | some (p, m) => some (m.fill p 0, d.setTable (a / NPTENTRIES) ⟨p, fun _ => none⟩)

/-- `mappages(pgdir, a, PGSIZE, ...)` for a user page, or nothing if there is no page left for a
    page table. -/
def mappages (m : Mem) (d : Dir) (a : Nat) (e : Pte) : Except Stop (Option (Mem × Dir)) :=
  match walkAlloc m d a with
  | none => .ok none
  | some (m, d) =>
    match d.walk a with
    | some (some _) => .error (.panic "remap")
    | _ => .ok (some (m, d.setPte a (some e)))

/-! ### Growing and shrinking -/

/-- The body of the loop of `deallocuvm`. -/
def freePage (s : Mem × Dir) (a : Nat) : Except Stop (Mem × Dir) :=
  match s.2.walk a with
  | some (some e) =>
    if e.page = 0 then .error (.panic "kfree") else .ok (kfree s.1 e.page, s.2.setPte a none)
  | _ => .ok s

/-- The part of the loop of `deallocuvm` in the page table `i`.  A page table that does not exist
    is passed over. -/
def freeTable (lo hi : Nat) (s : Mem × Dir) (i : Nat) : Except Stop (Mem × Dir) :=
  match s.2.table i with
  | none => .ok s
  | some _ =>
    let first := max lo (i * NPTENTRIES)
    (List.range' first (min hi ((i + 1) * NPTENTRIES) - first)).foldlM freePage s

/-- `deallocuvm(pgdir, oldsz, newsz)`. -/
def deallocuvm (m : Mem) (d : Dir) (oldsz newsz : Nat) : Except Stop (Mem × Dir) :=
  if oldsz ≤ newsz then .ok (m, d)
  else
    let lo := pagesUp newsz
    let hi := pagesUp oldsz
    (List.range' (lo / NPTENTRIES) ((hi - 1) / NPTENTRIES + 1 - lo / NPTENTRIES)).foldlM
      (freeTable lo hi) (m, d)

/-- The loop of `allocuvm` with `n` more pages to go. -/
def allocLoop (oldsz newsz : Nat) : Nat → Nat → Mem → Dir → Except Stop (Nat × Mem × Dir)
  | 0, _, m, d => .ok (newsz, m, d)
  | n + 1, a, m, d =>
    match kalloc m with
    | none => do
      let (m, d) ← deallocuvm m d newsz oldsz
      .ok (0, m, d)
    | some (p, m) => do
      let m := m.fill p 0
      match ← mappages m d a ⟨p, true⟩ with
      | none =>
        let (m, d) ← deallocuvm m d newsz oldsz
        .ok (0, kfree m p, d)
      | some (m, d) => allocLoop oldsz newsz n (a + 1) m d

/-- `allocuvm(pgdir, oldsz, newsz)`: the new size, or 0. -/
def allocuvm (m : Mem) (d : Dir) (oldsz newsz : Nat) : Except Stop (Nat × Mem × Dir) :=
  if KERNBASE ≤ newsz then .ok (0, m, d)
  else if newsz < oldsz then .ok (oldsz, m, d)
  else allocLoop oldsz newsz (pagesUp newsz - pagesUp oldsz) (pagesUp oldsz) m d

/-- The page tables of a directory, in the order in which `freevm` frees them. -/
def Dir.tables (d : Dir) : List Page :=
  (List.range (USERPAGES / NPTENTRIES)).filterMap (fun i => (d.table i).map Table.page) ++ d.kernel

/-- `freevm(pgdir)` of a directory in the page `pgdir`. -/
def freevm (m : Mem) (pgdir : Page) (d : Dir) : Except Stop Mem := do
  let (m, d) ← deallocuvm m d KERNBASE 0
  .ok (kfree (d.tables.foldl kfree m) pgdir)

/-- The loops of `setupkvm` with `n` more page tables to go; `false` if there is no page left. -/
def mapKernel : Nat → Mem → Dir → Bool × Mem × Dir
  | 0, m, d => (true, m, d)
  | n + 1, m, d =>
    match kalloc m with
    | none => (false, m, d)
    | some (p, m) => mapKernel n (m.fill p 0) { d with kernel := d.kernel ++ [p] }

/-- `setupkvm()`: a new directory, or nothing, and the memory. -/
def setupkvm (m : Mem) : Except Stop (Option (Page × Dir) × Mem) :=
  match kalloc m with
  | none => .ok (none, m)
  | some (pgdir, m) =>
    match mapKernel KERNTABLES (m.fill pgdir 0) ⟨[], fun _ => none⟩ with
    | (true, m, d) => .ok (some (pgdir, d), m)
    | (false, m, d) => do
      let m ← freevm m pgdir d
      .ok (none, m)

/-- `memmove(p, q, PGSIZE)`. -/
def Mem.copy (m : Mem) (p q : Page) : Mem :=
  { m with data := Function.update m.data p (m.data q) }

/-- The loop of `copyuvm` with `n` more pages to go; `false` for `goto bad`. -/
def copyLoop (pgdir : Dir) : Nat → Nat → Mem → Dir → Except Stop (Bool × Mem × Dir)
  | 0, _, m, d => .ok (true, m, d)
  | n + 1, i, m, d =>
    match pgdir.walk i with
    | none => .error (.panic "copyuvm: pte should exist")
    | some none => .error (.panic "copyuvm: page not present")
    | some (some pte) =>
      match kalloc m with
      | none => .ok (false, m, d)
      | some (mem, m) => do
        let m := m.copy mem pte.page
        match ← mappages m d i ⟨mem, pte.user⟩ with
        | none => .ok (false, kfree m mem, d)
        | some (m, d) => copyLoop pgdir n (i + 1) m d

/-- `copyuvm(pgdir, sz)`: a new directory, or nothing, and the memory. -/
def copyuvm (m : Mem) (pgdir : Dir) (sz : Nat) : Except Stop (Option (Page × Dir) × Mem) := do
  match ← setupkvm m with
  | (none, m) => .ok (none, m)
  | (some (page, d), m) =>
    let (ok, m, d) ← copyLoop pgdir (pagesUp sz) 0 m d
    if ok then .ok (some (page, d), m)
    else do
      let m ← freevm m page d
      .ok (none, m)

/-! ### User memory -/

/-- `clearpteu(pgdir, uva)`. -/
def clearpteu (d : Dir) (uva : Nat) : Except Stop Dir :=
  match d.walk (uva / PGSIZE) with
  | none => .error (.panic "clearpteu")
  | some e => .ok (d.setPte (uva / PGSIZE) (e.map fun e => { e with user := false }))

/-- `uva2ka(pgdir, uva)`.  The pointer that `walkpgdir` returns is followed without a check. -/
def uva2ka (d : Dir) (uva : Nat) : Except Stop (Option Page) :=
  match d.walk (uva / PGSIZE) with
  | none => .error .nullDeref
  | some none => .ok none
  | some (some e) => .ok (if e.user then some e.page else none)

/-- The loop of `copyout`, which goes through at most as many pages as there are bytes; `false` if
    it meets a page that is not for the user. -/
def copyoutLoop (d : Dir) : Nat → Mem → Nat → List UInt8 → Except Stop (Bool × Mem)
  | _, m, _, [] => .ok (true, m)
  | 0, _, _, _ :: _ => .error .diverges
  | fuel + 1, m, va, b :: buf => do
    match ← uva2ka d va with
    | none => .ok (false, m)
    | some p =>
      let n := min (PGSIZE - va % PGSIZE) (b :: buf).length
      copyoutLoop d fuel (m.write p (va % PGSIZE) ((b :: buf).take n))
        ((va - va % PGSIZE + PGSIZE) % 2 ^ 32) ((b :: buf).drop n)

/-- `copyout(pgdir, va, buf, len)`. -/
def copyout (m : Mem) (d : Dir) (va : Nat) (buf : List UInt8) : Except Stop (Bool × Mem) :=
  copyoutLoop d buf.length m va buf

/-- A little-endian word. -/
def word (v : Nat) : List UInt8 := (List.range 4).map fun i => UInt8.ofNat (v / 256 ^ i)

end Xv6.Vm
