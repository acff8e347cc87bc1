import Xv6.Lib.Bytes
import Xv6.Lib.Device
import Xv6.Fs.Cache

namespace Xv6.File

open Xv6.Lib
open Xv6.Fs (Block BSIZE Stop)

/-!
# Files — blocks, inodes, directories and paths (`pj3/fs.c`, `fs.h`, `file.h`, `stat.h`)

The code of `fs.c` as programs over a block device: `bread`, the change of a locked buffer with
`B_DIRTY`, and `brelse`.  The same programs run on an array of blocks and on the buffer cache.

The in-memory state is the inode cache and what the process has open.  There is one device, so
that `dev` is left out.  System calls run one after the other: a sleep lock that is taken a
second time never becomes free (`Stop.deadlock`).  The fields of a disk inode and of `addrs` are
kept as bytes, because `addrs` holds block numbers or, in a symbolic link, the path of the
target.  `begin_op` and `end_op` only count and are left out.
-/

/-! ### Data -/

/-- `NDIRECT`. -/
def NDIRECT : Nat := 10

/-- `NINDIRECT`, the number of block numbers in a block. -/
def NINDIRECT : Nat := BSIZE / 4

/-- `DINDIRECT`. -/
def DINDIRECT : Nat := 128 * 128

/-- `TINDIRECT`. -/
def TINDIRECT : Nat := 128 * 128 * 128

/-- `MAXFILE`, the largest number of blocks of a file. -/
def MAXFILE : Nat := NDIRECT + NINDIRECT + DINDIRECT + TINDIRECT

/-- `sizeof(ip->addrs)`. -/
def ADDRSIZE : Nat := (NDIRECT + 3) * 4

/-- `sizeof(struct dinode)`. -/
def DINODESIZE : Nat := 12 + ADDRSIZE

/-- `IPB`, inodes per block. -/
def IPB : Nat := BSIZE / DINODESIZE

/-- `BPB`, bitmap bits per block. -/
def BPB : Nat := BSIZE * 8

/-- `DIRSIZ`. -/
def DIRSIZ : Nat := 14

/-- `sizeof(struct dirent)`. -/
def DIRENTSIZE : Nat := 2 + DIRSIZ

/-- `ROOTINO`. -/
def ROOTINO : Nat := 1

/-- `T_DIR`. -/
def T_DIR : Nat := 1

/-- `T_FILE`. -/
def T_FILE : Nat := 2

/-- `T_DEV`. -/
def T_DEV : Nat := 3

/-- `T_SYMLINK`. -/
def T_SYMLINK : Nat := 4

/-- `CONSOLE`, the only device in `devsw`. -/
def CONSOLE : Nat := 1

/-- `NINODE`, the number of entries of the inode cache. -/
def NINODE : Nat := 50

/-- `NFILE`, the number of open files. -/
def NFILE : Nat := 100

/-- `NOFILE`, open files per process. -/
def NOFILE : Nat := 16

instance : NeZero NINODE := ⟨by decide⟩

/-- A `struct inode *` that is not null. -/
abbrev Ip := Fin NINODE

/-- `struct superblock`, the fields that `fs.c` uses. -/
structure Superblock where
  size : Nat
  ninodes : Nat
  inodestart : Nat
  bmapstart : Nat
  deriving DecidableEq, Repr

/-- `struct inode`.  Fields of type `short` and `uint` hold their unsigned value. -/
structure Inode where
  inum : Nat := 0
  ref : Int := 0
  locked : Bool := false
  valid : Bool := false
  type : Nat := 0
  major : Nat := 0
  minor : Nat := 0
  nlink : Nat := 0
  size : Nat := 0
  addrs : Bytes ADDRSIZE := fun _ => 0

/-- `struct file`; a file that is not open has `ref` 0. -/
structure OpenFile where
  ref : Nat := 0
  ip : Option Ip := none
  readable : Bool := false
  writable : Bool := false
  off : Nat := 0

/-- The state in memory: the super block, the inode cache, the file table, and the descriptors
    and the working directory of the process; `console` is what a read of the console gives, if
    the process is not killed while it waits. -/
structure Mem where
  sb : Superblock
  inode : Ip → Inode
  file : Fin NFILE → OpenFile
  ofile : Fin NOFILE → Option (Fin NFILE)
  cwd : Ip
  console : Nat → Option (List UInt8)

/-- Kernel code over a block device. -/
abbrev FsM := Prog Mem Block Stop

/-- `bread(dev, b)`; the result is `b->data`. -/
def bread (b : Nat) : FsM Block := .bread b .ret

/-- Change the data of a buffer and set `B_DIRTY`. -/
def store (b : Nat) (d : Block) : FsM Unit := .store b d (.ret ())

/-- `brelse(b)`. -/
def brelse (b : Nat) : FsM Unit := .brelse b (.ret ())

/-- `panic(msg)`. -/
def panic {α : Type} (msg : String) : FsM α := .stop (.panic msg)

/-- The fields of an inode. -/
def inodeOf (ip : Ip) : FsM Inode := do
  let t ← get
  pure (t.inode ip)

/-- Assign to the fields of an inode. -/
def setInode (ip : Ip) (f : Inode → Inode) : FsM Unit :=
  modify fun t => { t with inode := Function.update t.inode ip (f (t.inode ip)) }

/-! ### Blocks -/

/-- `bzero(dev, b)`. -/
def bzero (b : Nat) : FsM Unit := do
  let _ ← bread b
  store b fun _ => 0
  brelse b

/-- `1 << (bi % 8)`. -/
def bitMask (bi : Nat) : UInt8 := UInt8.ofNat (1 <<< (bi % 8))

/-- `bp->data[bi/8] & m`. -/
def bitUsed (d : Block) (bi : Nat) : Bool := d.get (bi / 8) &&& bitMask bi ≠ 0

/-- `bp->data[bi/8] |= m`. -/
def markUsed (d : Block) (bi : Nat) : Block := d.set (bi / 8) (d.get (bi / 8) ||| bitMask bi)

/-- `bp->data[bi/8] &= ~m`. -/
def markFree (d : Block) (bi : Nat) : Block := d.set (bi / 8) (d.get (bi / 8) &&& ~~~bitMask bi)

/-- The inner loop of `balloc`: the first free block of a bitmap block. -/
def firstFree (d : Block) (n : Nat) : Option Nat := (List.range n).find? fun bi => !bitUsed d bi

/-- `BBLOCK(b, sb)`. -/
def bblock (sb : Superblock) (b : Nat) : Nat := b / BPB + sb.bmapstart

/-- The outer loop of `balloc`, for the given values of `b`. -/
def ballocLoop (sb : Superblock) : List Nat → FsM Nat
  | [] => panic "balloc: out of blocks"
  | b :: bs => do
    let d ← bread (bblock sb b)
    match firstFree d (min BPB (sb.size - b)) with
    | some bi => do
      store (bblock sb b) (markUsed d bi)
      brelse (bblock sb b)
      bzero (b + bi)
      pure (b + bi)
    | none => do
      brelse (bblock sb b)
      ballocLoop sb bs

/-- `balloc(dev)`. -/
def balloc : FsM Nat := do
  let t ← get
  ballocLoop t.sb ((List.range ((t.sb.size + BPB - 1) / BPB)).map fun i => i * BPB)

/-- `bfree(dev, b)`. -/
def bfree (b : Nat) : FsM Unit := do
  let t ← get
  let d ← bread (bblock t.sb b)
  if bitUsed d (b % BPB) = false then panic "freeing free block"
  else do
    store (bblock t.sb b) (markFree d (b % BPB))
    brelse (bblock t.sb b)

/-! ### Inodes -/

/-- `IBLOCK(i, sb)`. -/
def iblock (sb : Superblock) (inum : Nat) : Nat := inum / IPB + sb.inodestart

/-- The offset of `struct dinode` number `inum` in its block. -/
def dinodeOff (inum : Nat) : Nat := inum % IPB * DINODESIZE

/-- `dip->type`. -/
def dinodeType (d : Block) (inum : Nat) : Nat := d.le (dinodeOff inum) 2

/-- The fields that `ilock` copies from the disk inode. -/
def readDinode (d : Block) (ip : Inode) : Inode :=
  let o := dinodeOff ip.inum
  { ip with type := d.le o 2, major := d.le (o + 2) 2, minor := d.le (o + 4) 2,
            nlink := d.le (o + 6) 2, size := d.le (o + 8) 4, addrs := d.sub (o + 12) ADDRSIZE }

/-- The fields that `iupdate` copies to the disk inode. -/
def writeDinode (d : Block) (ip : Inode) : Block :=
  let o := dinodeOff ip.inum
  (((((d.setLe o 2 ip.type).setLe (o + 2) 2 ip.major).setLe (o + 4) 2 ip.minor).setLe (o + 6) 2
    ip.nlink).setLe (o + 8) 4 ip.size).splice (o + 12) ADDRSIZE ip.addrs.get

/-- `iupdate(ip)`. -/
def iupdate (ip : Ip) : FsM Unit := do
  let t ← get
  let b := iblock t.sb (t.inode ip).inum
  let d ← bread b
  store b (writeDinode d (t.inode ip))
  brelse b

/-- `iget(dev, inum)`. -/
def iget (inum : Nat) : FsM Ip := do
  let t ← get
  match (List.finRange NINODE).find? fun i => 0 < (t.inode i).ref ∧ (t.inode i).inum = inum with
  | some ip => do
    setInode ip fun q => { q with ref := q.ref + 1 }
    pure ip
  | none =>
    match (List.finRange NINODE).find? fun i => (t.inode i).ref = 0 with
    | none => panic "iget: no inodes"
    | some ip => do
      setInode ip fun q => { q with inum := inum, ref := 1, valid := false }
      pure ip

/-- The loop of `ialloc`, for the given inode numbers. -/
def iallocLoop (sb : Superblock) (type : Nat) : List Nat → FsM Ip
  | [] => panic "ialloc: no inodes"
  | inum :: rest => do
    let d ← bread (iblock sb inum)
    if dinodeType d inum = 0 then do
      store (iblock sb inum)
        ((d.splice (dinodeOff inum) DINODESIZE fun _ => 0).setLe (dinodeOff inum) 2 type)
      brelse (iblock sb inum)
      iget inum
    else do
      brelse (iblock sb inum)
      iallocLoop sb type rest

/-- `ialloc(dev, type)`. -/
def ialloc (type : Nat) : FsM Ip := do
  let t ← get
  iallocLoop t.sb type ((List.range t.sb.ninodes).drop 1)

/-- `idup(ip)`. -/
def idup (ip : Ip) : FsM Ip := do
  setInode ip fun q => { q with ref := q.ref + 1 }
  pure ip

/-- `acquiresleep(&ip->lock)`. -/
def acquireInode (ip : Ip) : FsM Unit := do
  let q ← inodeOf ip
  if q.locked then .stop .deadlock else setInode ip fun q => { q with locked := true }

/-- `ilock(ip)`. -/
def ilock (ip : Ip) : FsM Unit := do
  let q ← inodeOf ip
  if q.ref < 1 then panic "ilock"
  else do
    acquireInode ip
    if q.valid = false then do
      let t ← get
      let d ← bread (iblock t.sb q.inum)
      setInode ip fun q => readDinode d q
      brelse (iblock t.sb q.inum)
      setInode ip fun q => { q with valid := true }
      let q ← inodeOf ip
      if q.type = 0 then panic "ilock: no type" else pure ()
    else pure ()

/-- `iunlock(ip)`. -/
def iunlock (ip : Ip) : FsM Unit := do
  let q ← inodeOf ip
  if q.locked = false ∨ q.ref < 1 then panic "iunlock"
  else setInode ip fun q => { q with locked := false }

/-- `ip->addrs[i]`. -/
def Inode.addr (q : Inode) (i : Nat) : Nat := q.addrs.le (4 * i) 4

/-- `ip->addrs[i] = a`. -/
def Inode.setAddr (q : Inode) (i a : Nat) : Inode := { q with addrs := q.addrs.setLe (4 * i) 4 a }

/-- `a[i]` for the block numbers in a block. -/
def entry (d : Block) (i : Nat) : Nat := d.le (4 * i) 4

/-- The loop of `itrunc` over the direct blocks. -/
def truncDirect (ip : Ip) : List Nat → FsM Unit
  | [] => pure ()
  | i :: is => do
    let q ← inodeOf ip
    if q.addr i ≠ 0 then do
      bfree (q.addr i)
      setInode ip fun q => q.setAddr i 0
      truncDirect ip is
    else truncDirect ip is

/-- The loop of `itrunc` over the entries of the indirect block. -/
def truncEntries (d : Block) : List Nat → FsM Unit
  | [] => pure ()
  | j :: js =>
    if entry d j ≠ 0 then do
      bfree (entry d j)
      truncEntries d js
    else truncEntries d js

/-- The part of `itrunc` for the indirect block. -/
def truncIndirect (ip : Ip) : FsM Unit := do
  let q ← inodeOf ip
  if q.addr NDIRECT ≠ 0 then do
    let d ← bread (q.addr NDIRECT)
    truncEntries d (List.range NINDIRECT)
    brelse (q.addr NDIRECT)
    bfree (q.addr NDIRECT)
    setInode ip fun q => q.setAddr NDIRECT 0
  else pure ()

/-- `itrunc(ip)`. -/
def itrunc (ip : Ip) : FsM Unit := do
  truncDirect ip (List.range NDIRECT)
  truncIndirect ip
  setInode ip fun q => { q with size := 0 }
  iupdate ip

/-- `iput(ip)`. -/
def iput (ip : Ip) : FsM Unit := do
  acquireInode ip
  let q ← inodeOf ip
  if q.valid = true ∧ q.nlink = 0 ∧ q.ref = 1 then do
    itrunc ip
    setInode ip fun q => { q with type := 0 }
    iupdate ip
    setInode ip fun q => { q with valid := false }
  else pure ()
  setInode ip fun q => { q with locked := false, ref := q.ref - 1 }

/-- `iunlockput(ip)`. -/
def iunlockput (ip : Ip) : FsM Unit := do
  iunlock ip
  iput ip

/-! ### Inode content -/

/-- `if((addr = ip->addrs[i]) == 0) ip->addrs[i] = addr = balloc(ip->dev)`. -/
def mapAddr (ip : Ip) (i : Nat) : FsM Nat := do
  let q ← inodeOf ip
  if q.addr i = 0 then do
    let addr ← balloc
    setInode ip fun q => q.setAddr i addr
    pure addr
  else pure (q.addr i)

/-- Load a block of block numbers and allocate the block of entry `i` if there is none. -/
def mapEntry (b i : Nat) : FsM Nat := do
  let d ← bread b
  if entry d i = 0 then do
    let addr ← balloc
    store b (d.setLe (4 * i) 4 addr)
    brelse b
    pure addr
  else do
    brelse b
    pure (entry d i)

/-- `bmap(ip, bn)`. -/
def bmap (ip : Ip) (bn : Nat) : FsM Nat :=
  if bn < NDIRECT then mapAddr ip bn
  else
    let bn := bn - NDIRECT
    if bn < NINDIRECT then do
      let addr ← mapAddr ip NDIRECT
      mapEntry addr bn
    else
      let bn := bn - NINDIRECT
      if bn < DINDIRECT then do
        let addr ← mapAddr ip (NDIRECT + 1)
        let addr ← mapEntry addr (bn / NINDIRECT)
        mapEntry addr (bn % NINDIRECT)
      else
        let bn := bn - DINDIRECT
        if bn < TINDIRECT then do
          let addr ← mapAddr ip (NDIRECT + 2)
          let addr ← mapEntry addr (bn / (NINDIRECT * NINDIRECT))
          let addr ← mapEntry addr (bn / NINDIRECT % NINDIRECT)
          mapEntry addr (bn % NINDIRECT)
        else panic "bmap: out of range"

/-- The loop of `readi`: `n` bytes from `off` on. -/
def readLoop (ip : Ip) : Nat → Nat → Nat → FsM (List UInt8)
  | 0, _, _ => pure []
  | k + 1, off, n =>
    if n = 0 then pure []
    else do
      let b ← bmap ip (off / BSIZE)
      let d ← bread b
      let m := min n (BSIZE - off % BSIZE)
      brelse b
      let rest ← readLoop ip k (off + m) (n - m)
      pure ((List.range m).map (fun i => d.get (off % BSIZE + i)) ++ rest)

/-- The loop of `writei`: `n` bytes of `src` from `tot` on to `off`. -/
def writeLoop (ip : Ip) (src : Nat → UInt8) : Nat → Nat → Nat → Nat → FsM Unit
  | 0, _, _, _ => pure ()
  | k + 1, tot, off, n =>
    if n = 0 then pure ()
    else do
      let b ← bmap ip (off / BSIZE)
      let d ← bread b
      let m := min n (BSIZE - off % BSIZE)
      store b (d.splice (off % BSIZE) m fun i => src (tot + i))
      brelse b
      writeLoop ip src k (tot + m) (off + m) (n - m)

/-- `devsw[ip->major].read(ip, dst, n)` of the console. -/
def consoleRead (ip : Ip) (n : Nat) : FsM (Int × List UInt8) := do
  iunlock ip
  let t ← get
  ilock ip
  match t.console n with
  | none => pure (-1, [])
  | some s => pure ((s.take n).length, s.take n)

/-- `devsw[ip->major].write(ip, src, n)` of the console. -/
def consoleWrite (ip : Ip) (n : Nat) : FsM Int := do
  iunlock ip
  ilock ip
  pure n

/-- `readi(ip, dst, off, n)` for an inode that is not a symbolic link: the result, and the bytes
    written to `dst`. -/
def readData (ip : Ip) (off n : Nat) : FsM (Int × List UInt8) := do
  let q ← inodeOf ip
  if q.type = T_DEV then
    if q.major = CONSOLE then consoleRead ip n else pure (-1, [])
  else if q.size < off ∨ (off + n) % 2 ^ 32 < off then pure (-1, [])
  else do
    let n := if q.size < off + n then q.size - off else n
    let ds ← readLoop ip (n / BSIZE + 2) off n
    pure (n, ds)

/-- `writei(ip, src, off, n)` for an inode that is not a symbolic link. -/
def writeData (ip : Ip) (src : Nat → UInt8) (off n : Nat) : FsM Int := do
  let q ← inodeOf ip
  if q.type = T_DEV then
    if q.major = CONSOLE then consoleWrite ip n else pure (-1)
  else if q.size < off ∨ (off + n) % 2 ^ 32 < off then pure (-1)
  else if MAXFILE * BSIZE < off + n then pure (-1)
  else do
    writeLoop ip src (n / BSIZE + 2) 0 off n
    let q ← inodeOf ip
    if 0 < n ∧ q.size < off + n then do
      setInode ip fun q => { q with size := off + n }
      iupdate ip
      pure n
    else pure n

/-! ### Directories -/

/-- The characters of a C string. -/
def cString (s : List UInt8) : List UInt8 := s.takeWhile fun ch => ch ≠ 0

/-- `de.inum` of a directory entry. -/
def direntInum (de : List UInt8) : Nat := (de.getD 0 0).toNat + 256 * (de.getD 1 0).toNat

/-- `de.name` of a directory entry. -/
def direntName (de : List UInt8) : List UInt8 := cString (de.drop 2)

/-- A directory entry with the given name, cut and filled up by `strncpy`, and number. -/
def dirent (name : List UInt8) (inum : Nat) : List UInt8 :=
  [UInt8.ofNat inum, UInt8.ofNat (inum / 256)] ++ name.take DIRSIZ ++
    List.replicate (DIRSIZ - name.length) 0

/-- Read one directory entry. -/
def readDirent (dp : Ip) (off : Nat) (msg : String) : FsM (List UInt8) := do
  let (r, de) ← readData dp off DIRENTSIZE
  if r = DIRENTSIZE then pure de else panic msg

/-- The loop of `dirlookup`, for the given offsets. -/
def lookupLoop (dp : Ip) (name : List UInt8) : List Nat → FsM (Option (Ip × Nat))
  | [] => pure none
  | off :: offs => do
    let de ← readDirent dp off "dirlookup read"
    if direntInum de ≠ 0 ∧ direntName de = name then do
      let ip ← iget (direntInum de)
      pure (some (ip, off))
    else lookupLoop dp name offs

/-- The offsets of the entries of a directory from `start` on. -/
def direntOffs (start size : Nat) : List Nat :=
  (List.range ((size - start + DIRENTSIZE - 1) / DIRENTSIZE)).map fun i => start + i * DIRENTSIZE

/-- `dirlookup(dp, name, poff)`: the inode and the offset of the entry.  A directory is not a
    symbolic link, so that `readi` does not resolve it. -/
def dirlookup (dp : Ip) (name : List UInt8) : FsM (Option (Ip × Nat)) := do
  let q ← inodeOf dp
  if q.type ≠ T_DIR then panic "dirlookup not DIR"
  else lookupLoop dp name (direntOffs 0 q.size)

/-- The loop of `dirlink`: the first unused entry, or the end of the directory. -/
def freeEntry (dp : Ip) (stop : Nat) : List Nat → FsM Nat
  | [] => pure stop
  | off :: offs => do
    let de ← readDirent dp off "dirlink read"
    if direntInum de = 0 then pure off else freeEntry dp stop offs

/-- `dirlink(dp, name, inum)`. -/
def dirlink (dp : Ip) (name : List UInt8) (inum : Nat) : FsM Int := do
  match ← dirlookup dp name with
  | some (ip, _) => do
    iput ip
    pure (-1)
  | none => do
    let q ← inodeOf dp
    let offs := direntOffs 0 q.size
    let off ← freeEntry dp (offs.length * DIRENTSIZE) offs
    let r ← writeData dp (fun i => (dirent name inum).getD i 0) off DIRENTSIZE
    if r = DIRENTSIZE then pure 0 else panic "dirlink"

/-! ### Paths -/

/-- The character `'/'`. -/
def slash : UInt8 := 47

/-- `skipelem(path, name)`: the next element of the path, cut to `DIRSIZ`, and the rest. -/
def skipelem (path : List UInt8) : Option (List UInt8 × List UInt8) :=
  match path.dropWhile fun ch => ch = slash with
  | [] => none
  | ch :: rest =>
    let s := ch :: rest
    some ((s.takeWhile fun ch => ch ≠ slash).take DIRSIZ,
      (s.dropWhile fun ch => ch ≠ slash).dropWhile fun ch => ch = slash)

/-- The loop of `namex`. -/
def namexLoop (parent : Bool) : Nat → Ip → List UInt8 → FsM (Option (Ip × List UInt8))
  | 0, _, _ => .stop .depth
  | k + 1, ip, path =>
    match skipelem path with
    | none =>
      if parent then do
        iput ip
        pure none
      else pure (some (ip, []))
    | some (name, path) => do
      ilock ip
      let q ← inodeOf ip
      if q.type ≠ T_DIR then do
        iunlockput ip
        pure none
      else if parent = true ∧ path = [] then do
        iunlock ip
        pure (some (ip, name))
      else do
        match ← dirlookup ip name with
        | none => do
          iunlockput ip
          pure none
        | some (next, _) => do
          iunlockput ip
          namexLoop parent k next path

/-- `namex(path, nameiparent, name)`. -/
def namex (path : List UInt8) (parent : Bool) : FsM (Option (Ip × List UInt8)) :=
  if path.head? = some slash then do
    let ip ← iget ROOTINO
    namexLoop parent (path.length + 1) ip path
  else do
    let t ← get
    let ip ← idup t.cwd
    namexLoop parent (path.length + 1) ip path

/-- `namei(path)`. -/
def namei (path : List UInt8) : FsM (Option Ip) := do
  let r ← namex path false
  pure (r.map fun x => x.1)

/-- `nameiparent(path, name)`. -/
def nameiparent (path : List UInt8) : FsM (Option (Ip × List UInt8)) := namex path true

/-! ### Symbolic links -/

/-- `(char*)(ip->addrs)`, if it ends inside the field. -/
def Inode.path (q : Inode) : Option (List UInt8) :=
  let s := (List.range ADDRSIZE).map q.addrs.get
  if 0 ∈ s then some (cString s) else none

/-- `ip` itself, or for a symbolic link the inode that `namei` finds for the path in `addrs`. -/
def resolve (ip : Ip) : FsM (Option Ip) := do
  let q ← inodeOf ip
  if q.type = T_SYMLINK then
    match q.path with
    | none => .stop .overrun
    | some path => namei path
  else pure (some ip)

/-- `readi(ip, dst, off, n)`. -/
def readi (ip : Ip) (off n : Nat) : FsM (Int × List UInt8) := do
  match ← resolve ip with
  | none => pure (-1, [])
  | some ip => readData ip off n

/-- `writei(ip, src, off, n)`. -/
def writei (ip : Ip) (src : Nat → UInt8) (off n : Nat) : FsM Int := do
  match ← resolve ip with
  | none => pure (-1)
  | some ip => writeData ip src off n

end Xv6.File
