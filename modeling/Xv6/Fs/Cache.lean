import Xv6.Lib.Bytes
import Xv6.Lib.Wp

namespace Xv6.Fs

open Xv6.Lib

/-!
# Buffer cache and log — the model (`pj3/bio.c`, `log.c`, `ide.c`, `buf.h`, `param.h`)

The machine is the buffer cache, the in-memory log header and the disk.  The cache is the list
of buffers in the order of `bcache.head.next`, most recently used first.  The file system lives
on one device, so that a buffer is named by its block number, and a buffer that was never used
has none.  One process at a time is inside a buffer operation: a buffer has `refcnt` 1 exactly
while its sleep lock is held, and a second `acquiresleep` on it by the same process never
returns (`Stop.deadlock`).

`bget` calls `sync` when too many buffers are dirty, and `sync` reads its blocks through `bget`.
The model follows this recursion to a given depth.

The field `writes` is not in the source: it records the blocks written to the disk, in order,
so that a crash leaves the disk after some prefix of them.
-/

/-! ### Data -/

/-- `BSIZE`, the size of a block in bytes. -/
def BSIZE : Nat := 512

/-- `NBUF`, the number of buffers. -/
def NBUF : Nat := 100

/-- `LOGSIZE`, the number of block numbers in a log header. -/
def LOGSIZE : Nat := 100

/-- `FSSIZE`, the number of blocks of the disk. -/
def FSSIZE : Nat := 2000000

/-- The contents of a block. -/
abbrev Block := Bytes BSIZE

/-- `struct buf`. -/
structure Buf where
  blockno : Option Nat := none
  valid : Bool := false
  dirty : Bool := false
  held : Bool := false
  data : Block := fun _ => 0

/-- `struct log`; `lh` holds the first `lh.n` entries of `lh.block`. -/
structure Log where
  start : Nat
  size : Nat
  committing : Bool
  lh : List Nat

/-- The buffer cache, the log and the disk. -/
structure Machine where
  bufs : List Buf
  isfull : Bool
  log : Log
  disk : Nat → Block
  writes : List (Nat × Block)

/-- Why an operation does not come back: a `panic`, a sleep lock that its own holder waits for,
    a recursion of `bget` and `sync` deeper than the model follows, or a log header on disk with
    more entries than `lh.block` has room for. -/
inductive Stop
  | panic (msg : String)
  | deadlock
  | depth
  | overrun
  deriving DecidableEq, Repr

/-- Kernel code over the machine. -/
abbrev M := EStateM Stop Machine

/-- The buffer of a block. -/
def lookup (bufs : List Buf) (b : Nat) : Option Buf := bufs.find? fun x => x.blockno = some b

/-- Assign to the fields of the buffer of a block. -/
def setBuf (bufs : List Buf) (b : Nat) (f : Buf → Buf) : List Buf :=
  bufs.map fun x => if x.blockno = some b then f x else x

/-- The block numbers of the dirty buffers, in list order. -/
def dirtyBlocks (bufs : List Buf) : List Nat :=
  (bufs.filter fun x => x.dirty).filterMap fun x => x.blockno

/-! ### `bio.c` and `ide.c` -/

/-- `buffer_isfull()`. -/
def bufferIsFull (s : Machine) : Bool := NBUF - 3 ≤ (s.bufs.filter fun x => x.dirty).length

/-- Recycle the last unused and clean buffer of the list for block `b`. -/
def recycle (b : Nat) : List Buf → Option (List Buf)
  | [] => none
  | x :: xs =>
    match recycle b xs with
    | some xs' => some (x :: xs')
    | none =>
      if x.held = false ∧ x.dirty = false then
        some ({ x with blockno := some b, valid := false, dirty := false, held := true } :: xs)
      else none

/-- The second part of `bget`: find the buffer of the block or recycle one, and lock it. -/
def getBuf (b : Nat) : M Unit := fun s =>
  match lookup s.bufs b with
  | some x =>
    if x.held then .error .deadlock s
    else .ok () { s with bufs := setBuf s.bufs b fun x => { x with held := true } }
  | none =>
    match recycle b s.bufs with
    | none => .error (.panic "bget: no buffers") s
    | some bufs => .ok () { s with bufs := bufs }

/-- The first part of `bget`: call `sync` when the cache is full of dirty buffers. -/
def autoSync (sync : M Int) : M Unit := fun s =>
  if s.isfull = false ∧ bufferIsFull s = true then
    (do
      modify fun s => { s with isfull := true }
      let _ ← sync
      modify fun s => { s with isfull := false } : M Unit) s
  else .ok () s

/-- `bget(dev, b)`. -/
def bget (sync : M Int) (b : Nat) : M Unit := do
  autoSync sync
  getBuf b

/-- `iderw(b)`: write the buffer to the disk if it is dirty, else read it. -/
def iderw (b : Nat) : M Unit := fun s =>
  match lookup s.bufs b with
  | none => .error (.panic "iderw: buf not locked") s
  | some x =>
    if x.held = false then .error (.panic "iderw: buf not locked") s
    else if x.valid = true ∧ x.dirty = false then .error (.panic "iderw: nothing to do") s
    else if FSSIZE ≤ b then .error (.panic "incorrect blockno") s
    else if x.dirty then
      .ok () { s with bufs := setBuf s.bufs b fun x => { x with valid := true, dirty := false }
                      disk := Function.update s.disk b x.data
                      writes := s.writes ++ [(b, x.data)] }
    else
      .ok () { s with bufs := setBuf s.bufs b fun x =>
                        { x with valid := true, dirty := false, data := s.disk b } }

/-- The second part of `bread`: read the buffer from the disk unless it is valid. -/
def readBuf (b : Nat) : M Unit := fun s =>
  match lookup s.bufs b with
  | some x => if x.valid then .ok () s else iderw b s
  | none => .ok () s

/-- `b->data`. -/
def bufData (b : Nat) : M Block := fun s =>
  .ok (((lookup s.bufs b).map fun x => x.data).getD fun _ => 0) s

/-- `bread(dev, b)` once `bget` has dealt with a full cache. -/
def breadBuf (b : Nat) : M Block := do
  getBuf b
  readBuf b
  bufData b

/-- `bread(dev, b)`; the result is `b->data`. -/
def bread (sync : M Int) (b : Nat) : M Block := do
  autoSync sync
  breadBuf b

/-- `memmove(b->data, d, BSIZE)`. -/
def setData (b : Nat) (d : Block) : M Unit := modify fun s =>
  { s with bufs := setBuf s.bufs b fun x => { x with data := d } }

/-- `b->flags |= B_DIRTY`. -/
def setDirty (b : Nat) : M Unit := modify fun s =>
  { s with bufs := setBuf s.bufs b fun x => { x with dirty := true } }

/-- `holdingsleep(&b->lock)`. -/
def holding (s : Machine) (b : Nat) : Bool := ((lookup s.bufs b).map fun x => x.held).getD false

/-- `bwrite(b)`. -/
def bwrite (b : Nat) : M Unit := fun s =>
  if holding s b then (do setDirty b; iderw b : M Unit) s
  else .error (.panic "bwrite") s

/-- `brelse(b)`: unlock the buffer and move it to the head of the list. -/
def brelse (b : Nat) : M Unit := fun s =>
  match lookup s.bufs b with
  | none => .error (.panic "brelse") s
  | some x =>
    if x.held then
      .ok () { s with bufs := { x with held := false } ::
                        s.bufs.filter fun y => y.blockno ≠ some b }
    else .error (.panic "brelse") s

/-! ### `log.c` -/

/-- The header block `d` with `n` and the first `n` block numbers of `lh` written into it. -/
def setHeader (d : Block) (lh : List Nat) : Block :=
  (d.setLe 0 4 lh.length).setFields 4 4 lh

/-- `lh->n` of a header block, a 32-bit `int`. -/
def headerN (d : Block) : Int :=
  if d.le 0 4 < 2 ^ 31 then d.le 0 4 else (d.le 0 4 : Int) - 2 ^ 32

/-- The block numbers of a header block. -/
def headerBlocks (d : Block) : List Nat := d.getFields 4 4 (headerN d).toNat

/-- `log_write(b)` for a buffer of block `b`. -/
def logWrite (b : Nat) : M Unit := fun s =>
  if LOGSIZE ≤ s.log.lh.length ∨ s.log.size ≤ s.log.lh.length + 1 then
    .error (.panic "too big a transaction") s
  else
    .ok () { s with log := { s.log with lh := if b ∈ s.log.lh then s.log.lh else s.log.lh ++ [b] }
                    bufs := setBuf s.bufs b fun x => { x with dirty := true } }

/-- `log_write` for each block of a list. -/
def logAll : List Nat → M Unit
  | [] => pure ()
  | b :: bs => do
    logWrite b
    logAll bs

/-- `logDirtyBuffer()`. -/
def logDirtyBuffer : M Nat := do
  let s ← get
  logAll (dirtyBlocks s.bufs)
  pure (s.bufs.filter fun x => x.dirty).length

/-- One round of `write_log()`. -/
def writeLogOne (sync : M Int) (tail : Nat) : M Unit := do
  let s ← get
  let lbuf := s.log.start + tail + 1
  let dbuf := s.log.lh.getD tail 0
  let _ ← bread sync lbuf
  let d ← bread sync dbuf
  setData lbuf d
  bwrite lbuf
  brelse dbuf
  brelse lbuf

/-- `write_log()`. -/
def writeLog (sync : M Int) : M Unit := do
  let s ← get
  forUpTo s.log.lh.length (writeLogOne sync)

/-- One round of `install_trans()`. -/
def installOne (sync : M Int) (tail : Nat) : M Unit := do
  let s ← get
  let lbuf := s.log.start + tail + 1
  let dbuf := s.log.lh.getD tail 0
  let d ← bread sync lbuf
  let _ ← bread sync dbuf
  setData dbuf d
  bwrite dbuf
  brelse lbuf
  brelse dbuf

/-- `install_trans()`. -/
def installTrans (sync : M Int) : M Unit := do
  let s ← get
  forUpTo s.log.lh.length (installOne sync)

/-- `write_head()`. -/
def writeHead (sync : M Int) : M Unit := do
  let s ← get
  let d ← bread sync s.log.start
  setData s.log.start (setHeader d s.log.lh)
  bwrite s.log.start
  brelse s.log.start

/-- `read_head()`. -/
def readHead (sync : M Int) : M Unit := do
  let s ← get
  let d ← bread sync s.log.start
  if (LOGSIZE : Int) < headerN d then throw .overrun
  else do
    modify fun s => { s with log := { s.log with lh := headerBlocks d } }
    brelse s.log.start

/-- `log.committing = c`. -/
def setCommitting (c : Bool) : M Unit := modify fun s =>
  { s with log := { s.log with committing := c } }

/-- `log.lh.n = 0`; the old value is returned. -/
def clearLog : M Nat := do
  let s ← get
  set { s with log := { s.log with lh := [] } }
  pure s.log.lh.length

/-- `recover_from_log()`. -/
def recoverFromLog (sync : M Int) : M Unit := do
  readHead sync
  installTrans sync
  let _ ← clearLog
  writeHead sync

/-- The part of `sync()` that commits and installs the logged blocks. -/
def commit (sync : M Int) : M Int := do
  writeLog sync
  writeHead sync
  installTrans sync
  let n ← clearLog
  writeHead sync
  setCommitting false
  pure n

/-- `sync()` once `log.committing` is set. -/
def syncBody (sync : M Int) : M Int := do
  let temp ← logDirtyBuffer
  if temp = 0 then do
    setCommitting false
    pure 0
  else commit sync

/-- `sync()`, with calls of `bget` and `sync` nested at most to the given depth. -/
def syncDepth : Nat → M Int
  | 0 => throw .depth
  | d + 1 => fun s =>
    if s.log.committing then .ok (-1) s
    else syncBody (syncDepth d) { s with log := { s.log with committing := true } }

/-- `sync()`.  While it runs `log.committing` is set, so that the calls of `sync` inside its own
    `bget` return at once. -/
def sync : M Int := syncDepth 2

/-- The machine after `binit()`, with the log at `start` and nothing logged yet. -/
def boot (disk : Nat → Block) (start size : Nat) : Machine where
  bufs := List.replicate NBUF {}
  isfull := false
  log := { start := start, size := size, committing := false, lh := [] }
  disk := disk
  writes := []

end Xv6.Fs
