import Xv6.Fs.Cache
import Xv6.Lib.Chain
import Xv6.Lib.Simulation
import Xv6.Lib.Transition

namespace Xv6.Ide

open Xv6.Lib
open Xv6.Fs (Block)

/-!
# IDE driver — requests and interrupts (`pj3/ide.c`, `buf.h`)

Any number of processes call `iderw` at any time, while the drive works on a request and raises an
interrupt at the end.  A critical section of `idelock` is one step: `iderw` up to `sleep`, the test of
a process that `sleep` has returned to, and the interrupt handler.

* `Driver`, `step` — the buffers with their queue, the drive, and where every process is;
* `Server` — what the driver is for: a server that does the requests on an array, in order;
* `Serves` — how a state of the driver stands for a state of the server;
* `ide_serves_in_order` — what the processes see of the driver they could see of the server;
* `ide_never_stalls` — a process that sleeps has its buffer in the queue, and the drive works on it or on
  an earlier one.
-/

/-! ### State -/

/-- `NBUF`. -/
def NBUF : Nat := 100

instance : NeZero NBUF := ⟨by decide⟩

/-- A `struct buf *` that is not null. -/
abbrev Bp := Fin NBUF

/-- `FSSIZE`, the number of blocks of the disk. -/
def FSSIZE : Nat := 2000000

/-- `struct buf`, the fields that the driver uses: `B_VALID`, `B_DIRTY`, and for the sleep lock the
    process that holds it. -/
structure Buf where
  valid : Bool := false
  dirty : Bool := false
  dev : Nat := 0
  blockno : Nat := 0
  lock : Option Nat := none
  qnext : Option Bp := none
  data : Block := fun _ => 0

/-- A command of the drive, with the data of a write. -/
inductive Cmd
  | read (drive sector : Nat)
  | write (drive sector : Nat) (d : Block)

/-- The drive: its blocks, the command it works on, what `insl` gets, whether it has raised an
    interrupt, and whether the last command has failed. -/
structure Drive where
  data : Nat → Nat → Block
  cmd : Option Cmd := none
  port : Block := fun _ => 0
  intr : Bool := false
  err : Bool := false

/-- Where a process is: outside `iderw`, asleep in `sleep(b, &idelock)`, or woken up there. -/
inductive Pc
  | user
  | sleeping (b : Bp)
  | ready (b : Bp)
  deriving DecidableEq

/-- The state of the driver, the drive and the processes. -/
structure Driver where
  buf : Bp → Buf
  idequeue : Option Bp := none
  havedisk1 : Bool
  drive : Drive
  pc : Nat → Pc

/-- Why a step is not possible: a `panic`, a loop over the queue that does not end, a wait for a drive
    that is busy, or a step that is not at its turn. -/
inductive Stop
  | panic (msg : String)
  | diverges
  | busy
  | blocked
  deriving DecidableEq, Repr

namespace Driver

/-- The `qnext` field of every buffer. -/
def qnext (k : Driver) (b : Bp) : Option Bp := (k.buf b).qnext

/-- Assign to the fields of a buffer. -/
def setBuf (k : Driver) (b : Bp) (f : Buf → Buf) : Driver :=
  { k with buf := Function.update k.buf b (f (k.buf b)) }

/-- A process goes on at another place. -/
def setPc (k : Driver) (p : Nat) (x : Pc) : Driver := { k with pc := Function.update k.pc p x }

end Driver

/-! ### The driver -/

/-- `SECTOR_SIZE`. -/
def SECTOR_SIZE : Nat := 512

/-- `sector_per_block`. -/
def sectorPerBlock : Nat := Fs.BSIZE / SECTOR_SIZE

/-- The sector in the four registers that `idestart` writes. -/
def lba (sector : Nat) : Nat :=
  sector % 2 ^ 8 + 2 ^ 8 * (sector / 2 ^ 8 % 2 ^ 8) + 2 ^ 16 * (sector / 2 ^ 16 % 2 ^ 8) +
    2 ^ 24 * (sector / 2 ^ 24 % 2 ^ 4)

/-- The command that `idestart` gives for a buffer. -/
def command (x : Buf) : Cmd :=
  let sector := x.blockno * sectorPerBlock
  if x.dirty then .write (x.dev % 2) (lba sector) x.data else .read (x.dev % 2) (lba sector)

/-- `idestart(b)`. -/
def idestart (k : Driver) (b : Bp) : Except Stop Driver :=
  if FSSIZE ≤ (k.buf b).blockno then .error (.panic "incorrect blockno")
  else if k.drive.cmd.isSome then .error .busy
  else .ok { k with drive := { k.drive with cmd := some (command (k.buf b)) } }

/-- `wakeup(b)`. -/
def wakeup (k : Driver) (b : Bp) : Driver :=
  { k with pc := fun p => if k.pc p = .sleeping b then .ready b else k.pc p }

/-- `ideintr()`. -/
def ideintr (k : Driver) : Except Stop Driver :=
  let k := { k with drive := { k.drive with intr := false } }
  match k.idequeue with
  | none => .ok k
  | some b =>
    let x := k.buf b
    if x.dirty = false ∧ k.drive.cmd.isSome then .error .busy
    else
      let data := if x.dirty = false ∧ k.drive.err = false then k.drive.port else x.data
      let k := { k with idequeue := x.qnext }
      let k := k.setBuf b fun x => { x with data := data, valid := true, dirty := false }
      let k := wakeup k b
      match k.idequeue with
      | none => .ok k
      | some next => idestart k next

/-- `*pp = b` behind the last buffer of the queue. -/
def append (k : Driver) (b : Bp) : Except Stop Driver :=
  match k.idequeue with
  | none => .ok { k with idequeue := some b }
  | some h =>
    match walkEnd k.qnext NBUF h with
    | none => .error .diverges
    | some z => .ok (k.setBuf z fun x => { x with qnext := some b })

/-- What a process shows: a request, with the data of a write, and the contents it gets back. -/
structure Req where
  drive : Nat
  blockno : Nat
  data : Option Block

/-- Events. -/
inductive Event
  | request (p : Nat) (r : Req)
  | reply (p : Nat) (d : Block)

/-- The request that a buffer stands for. -/
def request (x : Buf) : Req := ⟨x.dev % 2, x.blockno, if x.dirty then some x.data else none⟩

/-- `iderw(b)` up to the first `sleep`; the flags are not as the loop wants them before. -/
def iderw (k : Driver) (p : Nat) (b : Bp) : Except Stop (Option Event × Driver) :=
  let x := k.buf b
  if x.lock ≠ some p then .error (.panic "iderw: buf not locked")
  else if x.valid = true ∧ x.dirty = false then .error (.panic "iderw: nothing to do")
  else if x.dev ≠ 0 ∧ k.havedisk1 = false then .error (.panic "iderw: ide disk 1 not present")
  else do
    let k ← append (k.setBuf b fun x => { x with qnext := none }) b
    let k ← if k.idequeue = some b then idestart k b else .ok k
    .ok (some (.request p (request x)), k.setPc p (.sleeping b))

/-- The loop of `iderw` behind `sleep`. -/
def iderwLoop (k : Driver) (p : Nat) (b : Bp) : Option Event × Driver :=
  if (k.buf b).valid = true ∧ (k.buf b).dirty = false then
    (some (.reply p (k.buf b).data), k.setPc p .user)
  else (none, k.setPc p (.sleeping b))

/-! ### Steps -/

/-- The drive comes to the end of its command, perhaps with an error. -/
def Drive.done (v : Drive) (err : Bool) : Except Stop Drive :=
  match v.cmd with
  | none => .error .blocked
  | some c =>
    let v := { v with cmd := none, intr := true, err := err }
    if err then .ok v
    else
      match c with
      | .read i sector => .ok { v with port := v.data i sector }
      | .write i sector d =>
        .ok { v with data := Function.update v.data i (Function.update (v.data i) sector d) }

/-- What can happen next. -/
inductive Act
  /-- A buffer that nobody has locked, or that is locked by a process outside `iderw`, is changed. -/
  | client (b : Bp) (x : Buf)
  | iderw (p : Nat) (b : Bp)
  /-- `kill` makes a process that sleeps runnable. -/
  | kill (p : Nat)
  /-- `sleep` returns. -/
  | resume (p : Nat)
  | done (err : Bool)
  | ideintr

/-- May the fields of the buffer change? -/
def unused (k : Driver) (b : Bp) : Bool :=
  match (k.buf b).lock with
  | none => true
  | some p => k.pc p = .user

/-- One step, with the event that it shows. -/
def step (k : Driver) : Act → Except Stop (Option Event × Driver)
  | .client b x =>
    if unused k b then .ok (none, k.setBuf b fun y => { x with qnext := y.qnext })
    else .error .blocked
  | .iderw p b => if k.pc p = .user then iderw k p b else .error .blocked
  | .kill p =>
    match k.pc p with
    | .sleeping b => .ok (none, k.setPc p (.ready b))
    | _ => .error .blocked
  | .resume p =>
    match k.pc p with
    | .ready b => .ok (iderwLoop k p b)
    | _ => .error .blocked
  | .done err => do
    let v ← k.drive.done err
    .ok (none, { k with drive := v })
  | .ideintr =>
    if k.drive.intr then do
      let k ← ideintr k
      .ok (none, k)
    else .error .blocked

/-- The driver with an empty queue and nobody in `iderw`. -/
structure Initial (disk : Nat → Nat → Block) (k : Driver) : Prop where
  idequeue : k.idequeue = none
  user : ∀ p, k.pc p = .user
  data : k.drive.data = disk
  cmd : k.drive.cmd = none
  intr : k.drive.intr = false

/-- The driver of a drive that has no errors. -/
def driver (disk : Nat → Nat → Block) : System Driver Event :=
  .ofStep (Initial disk) step fun _ e => e ≠ .done true

/-! ### A server -/

/-- A server for an array of blocks: the array, the requests that wait, and the results that have not
    been fetched. -/
structure Server where
  disk : Nat → Nat → Block
  queue : List (Nat × Req)
  done : Nat → Option Block

/-- The array behind a request. -/
def Req.apply (r : Req) (disk : Nat → Nat → Block) : Nat → Nat → Block :=
  match r.data with
  | none => disk
  | some d => Function.update disk r.drive (Function.update (disk r.drive) r.blockno d)

/-- The result of a request: what is read, or what has been written. -/
def Req.result (r : Req) (disk : Nat → Nat → Block) : Block := r.data.getD (disk r.drive r.blockno)

/-- The steps of the server. -/
inductive Server.Step : Server → Option Event → Server → Prop
  | request {a : Server} {p : Nat} {r : Req} : (∀ x ∈ a.queue, x.1 ≠ p) → a.done p = none →
      Step a (some (.request p r)) { a with queue := a.queue ++ [(p, r)] }
  | serve {a : Server} {p : Nat} {r : Req} {q : List (Nat × Req)} : a.queue = (p, r) :: q →
      Step a none ⟨r.apply a.disk, q, Function.update a.done p (some (r.result a.disk))⟩
  | reply {a : Server} {p : Nat} {d : Block} : a.done p = some d →
      Step a (some (.reply p d)) { a with done := Function.update a.done p none }

/-- A server that starts with the array `disk`. -/
def server (disk : Nat → Nat → Block) : System Server Event where
  init a := a = ⟨disk, [], fun _ => none⟩
  step := Server.Step


/-! ### The driver stands for the server -/

variable {k k' : Driver} {a : Server} {b c : Bp} {bs : List Bp} {p q : Nat} {disk : Nat → Nat → Block}
  {x : Buf} {r : Req}

/-- The process is in `iderw` with the buffer. -/
def Inside (k : Driver) (p : Nat) (b : Bp) : Prop := k.pc p = .sleeping b ∨ k.pc p = .ready b

/-- The flags are as the loop of `iderw` wants them. -/
def Buf.Done (x : Buf) : Prop := x.valid = true ∧ x.dirty = false

/-- The process that waits for a buffer, and its request. -/
def entry (k : Driver) (b : Bp) : Nat × Req := ((k.buf b).lock.getD 0, request (k.buf b))

/-- The command for a request. -/
def Req.command (r : Req) : Cmd :=
  match r.data with
  | none => .read r.drive r.blockno
  | some d => .write r.drive r.blockno d

/-- What the drive does when `r` is the first request: it works on it, or it has just done it. -/
inductive Working (disk : Nat → Nat → Block) (r : Req) (v : Drive) : Prop
  | busy : v.cmd = some r.command → v.intr = false → v.data = disk → Working disk r v
  | done : v.cmd = none → v.intr = true → v.err = false → v.data = r.apply disk →
      (r.data = none → v.port = disk r.drive r.blockno) → Working disk r v

/-- The drive belongs to the first request, if there is one. -/
def OnHead (disk : Nat → Nat → Block) (v : Drive) : Option Req → Prop
  | none => v.cmd = none ∧ v.intr = false ∧ v.data = disk
  | some r => Working disk r v

/-- Where a process in `iderw` stands: its buffer waits in the queue `bs`, or it has been served, and
    the process is awake. -/
inductive Place (k : Driver) (a : Server) (bs : List Bp) (p : Nat) (b : Bp) : Prop
  | queued : b ∈ bs → ¬ (k.buf b).Done → a.done p = none → Place k a bs p b
  | served : b ∉ bs → (k.buf b).Done → k.pc p = .ready b → a.done p = some (k.buf b).data →
      Place k a bs p b

/-- The buffers `bs` are queued, and the processes in `iderw` stand for those of the server. -/
structure Queued (bs : List Bp) (k : Driver) (a : Server) : Prop where
  chain : Chain k.qnext k.idequeue bs
  queue : a.queue = bs.map (entry k)
  lock : ∀ p b, Inside k p b → (k.buf b).lock = some p
  place : ∀ p b, Inside k p b → Place k a bs p b
  user : ∀ p, k.pc p = .user → a.done p = none
  waits : ∀ b ∈ bs, ∃ p, Inside k p b

/-- The state of the driver stands for the state of the server. -/
structure Serves (bs : List Bp) (k : Driver) (a : Server) : Prop extends Queued bs k a where
  head : OnHead a.disk k.drive (bs.head?.map fun b => request (k.buf b))

theorem lba_eq {n : Nat} (h : n < FSSIZE) : lba n = n := by
  have hsize : FSSIZE = 2000000 := rfl
  rw [lba]
  omega

/-- `idestart` gives the command for the request of the buffer. -/
theorem command_eq (h : x.blockno < FSSIZE) : command x = (request x).command := by
  have hsector : x.blockno * sectorPerBlock = x.blockno := Nat.mul_one _
  unfold command
  dsimp only
  rw [hsector, lba_eq h]
  cases hd : x.dirty with
  | false => simp [request, Req.command, hd]
  | true => simp [request, Req.command, hd]

theorem idestart_ok (h : idestart k b = .ok k') : k.drive.cmd = none ∧
    k' = { k with drive := { k.drive with cmd := some (request (k.buf b)).command } } := by
  unfold idestart at h
  split_ifs at h with hb hbusy
  cases h
  rw [Nat.not_le] at hb
  exact ⟨Option.not_isSome_iff_eq_none.mp hbusy, by rw [command_eq hb]⟩

@[simp] theorem setBuf_self (f : Buf → Buf) : (k.setBuf b f).buf b = f (k.buf b) :=
  Function.update_self b _ _

@[simp] theorem setBuf_other (h : c ≠ b) (f : Buf → Buf) : (k.setBuf b f).buf c = k.buf c :=
  Function.update_of_ne h _ _

theorem qnext_setBuf (f : Buf → Buf) :
    (k.setBuf b f).qnext = Function.update k.qnext b (f (k.buf b)).qnext := by
  funext c
  by_cases hc : c = b
  · subst hc
    rw [Function.update_self, Driver.qnext, setBuf_self]
  · rw [Function.update_of_ne hc, Driver.qnext, setBuf_other hc]
    rfl

@[simp] theorem setPc_self (x : Pc) : (k.setPc p x).pc p = x := Function.update_self p _ _

@[simp] theorem setPc_other (h : q ≠ p) (x : Pc) : (k.setPc p x).pc q = k.pc q :=
  Function.update_of_ne h _ _

/-- A process is inside with one buffer. -/
theorem Inside.unique (h : Inside k p b) (h' : Inside k p c) : b = c := by
  rcases h with h | h <;> rcases h' with h' | h' <;> rw [h] at h' <;> cases h' <;> rfl

theorem Inside.not_user (h : Inside k p b) : k.pc p ≠ .user := by
  rcases h with h | h <;> rw [h] <;> nofun

theorem Inside.setPc_other {x : Pc} (h : q ≠ p) : Inside (k.setPc p x) q c ↔ Inside k q c := by
  rw [Inside, Inside, Ide.setPc_other h]

/-- A buffer has one process inside. -/
theorem Queued.unique (h : Queued bs k a) (hp : Inside k p b) (hq : Inside k q b) : p = q := by
  have hlock := h.lock p b hp
  rw [h.lock q b hq] at hlock
  exact (Option.some.inj hlock).symm

/-- The entry of a process in the queue of the server. -/
theorem Queued.entry_eq (h : Queued bs k a) (hp : Inside k p b) : entry k b = (p, request (k.buf b)) := by
  rw [entry, h.lock p b hp, Option.getD_some]

/-! ### Buffers -/

/-- Only the buffers of processes in `iderw` count, and of these all but `qnext`. -/
theorem Queued.frame (h : Queued bs k a) (hpc : k'.pc = k.pc)
    (hbuf : ∀ p c, Inside k p c → ∃ n, k'.buf c = { k.buf c with qnext := n })
    (hchain : Chain k'.qnext k'.idequeue bs) : Queued bs k' a := by
  have hin : ∀ p c, Inside k' p c ↔ Inside k p c := fun p c => by rw [Inside, Inside, hpc]
  refine ⟨hchain, ?_, fun p c hp => ?_, fun p c hp => ?_, fun p hp => h.user p (by rwa [← hpc]),
    fun c hc => ?_⟩
  · rw [h.queue]
    refine List.map_congr_left fun c hc => ?_
    obtain ⟨p, hp⟩ := h.waits c hc
    obtain ⟨n, hn⟩ := hbuf p c hp
    rw [entry, entry, hn]
    rfl
  · rw [hin] at hp
    obtain ⟨n, hn⟩ := hbuf p c hp
    rw [hn]
    exact h.lock p c hp
  · rw [hin] at hp
    obtain ⟨n, hn⟩ := hbuf p c hp
    rcases h.place p c hp with ⟨hmem, hdone, ha⟩ | ⟨hmem, hdone, hr, ha⟩
    · exact .queued hmem (by rw [hn]; exact hdone) ha
    · exact .served hmem (by rw [hn]; exact hdone) (by rw [hpc]; exact hr) (by rw [hn]; exact ha)
  · obtain ⟨p, hp⟩ := h.waits c hc
    exact ⟨p, (hin p c).mpr hp⟩

/-- The first request looks the same. -/
theorem Serves.head_frame (h : Serves bs k a)
    (hbuf : ∀ p c, Inside k p c → ∃ n, k'.buf c = { k.buf c with qnext := n })
    (hdrive : k'.drive = k.drive) :
    OnHead a.disk k'.drive (bs.head?.map fun b => request (k'.buf b)) := by
  have hsame : (bs.head?.map fun b => request (k'.buf b)) = bs.head?.map fun b => request (k.buf b) := by
    refine Option.map_congr fun c hc => ?_
    obtain ⟨p, hp⟩ := h.waits c (List.mem_of_mem_head? hc)
    obtain ⟨n, hn⟩ := hbuf p c hp
    rw [hn]
    rfl
  rw [hsame, hdrive]
  exact h.head

/-- Nobody is in `iderw` with a buffer that may be changed. -/
theorem Queued.not_inside (h : Queued bs k a) (hb : unused k b = true) : ¬ Inside k p b := by
  intro hp
  have hlock := h.lock p b hp
  unfold unused at hb
  rw [hlock] at hb
  exact hp.not_user (of_decide_eq_true hb)

theorem Serves.client (h : Serves bs k a) (hb : unused k b = true) (x : Buf) :
    Serves bs (k.setBuf b fun y => { x with qnext := y.qnext }) a := by
  have hbuf : ∀ p c, Inside k p c → ∃ n, (k.setBuf b fun y => { x with qnext := y.qnext }).buf c =
      { k.buf c with qnext := n } := fun p c hp => by
    have hne : c ≠ b := fun hcb => h.not_inside hb (hcb ▸ hp)
    exact ⟨_, setBuf_other hne _⟩
  refine ⟨h.frame rfl hbuf ?_, h.head_frame hbuf rfl⟩
  have hqnext : (k.setBuf b fun y => { x with qnext := y.qnext }).qnext = k.qnext := by
    rw [qnext_setBuf]
    exact Function.update_eq_self b _
  rw [hqnext]
  exact h.chain

/-! ### Processes -/

/-- A process that sleeps becomes runnable, or goes to sleep again. -/
theorem Serves.setPc {x : Pc} (h : Serves bs k a) (hin : Inside k p b)
    (hx : x = .sleeping b ∧ b ∈ bs ∨ x = .ready b) : Serves bs (k.setPc p x) a := by
  have hself : Inside (k.setPc p x) p b := by
    rcases hx with ⟨rfl, -⟩ | rfl
    · exact .inl (setPc_self _)
    · exact .inr (setPc_self _)
  have hiff : ∀ q c, Inside (k.setPc p x) q c ↔ Inside k q c := fun q c => by
    by_cases hqp : q = p
    · subst hqp
      exact ⟨fun hc => hself.unique hc ▸ hin, fun hc => hin.unique hc ▸ hself⟩
    · exact Inside.setPc_other hqp
  refine ⟨⟨h.chain, h.queue, fun q c hq => h.lock q c ((hiff q c).mp hq), fun q c hq => ?_,
    fun q hq => ?_, fun c hc => ?_⟩, h.head⟩
  · have hq₀ := (hiff q c).mp hq
    rcases h.place q c hq₀ with ⟨hmem, hdone, ha⟩ | ⟨hmem, hdone, hr, ha⟩
    · exact .queued hmem hdone ha
    · refine .served hmem hdone ?_ ha
      by_cases hqp : q = p
      · subst hqp
        have hcb := hin.unique hq₀
        subst hcb
        rcases hx with ⟨-, hb⟩ | rfl
        · exact absurd hb hmem
        · exact setPc_self _
      · rw [Ide.setPc_other hqp]
        exact hr
  · refine h.user q ?_
    by_cases hqp : q = p
    · subst hqp
      exact absurd hq hself.not_user
    · rwa [Ide.setPc_other hqp] at hq
  · obtain ⟨q, hq⟩ := h.waits c hc
    exact ⟨q, (hiff q c).mpr hq⟩

/-- The loop of `iderw`: a process whose request has been served returns. -/
theorem Serves.resume (h : Serves bs k a) (hin : Inside k p b) :
    ∃ a', (server disk).Path a (iderwLoop k p b).1.toList a' ∧ Serves bs (iderwLoop k p b).2 a' := by
  unfold iderwLoop
  split
  · rename_i hdone
    rcases h.place p b hin with ⟨-, hnot, -⟩ | ⟨hmem, -, -, ha⟩
    · exact absurd hdone hnot
    have hother : ∀ q c, Inside (k.setPc p .user) q c → q ≠ p ∧ Inside k q c := fun q c hq => by
      have hqp : q ≠ p := by
        rintro rfl
        exact hq.not_user (setPc_self _)
      exact ⟨hqp, (Inside.setPc_other hqp).mp hq⟩
    refine ⟨_, .single (.reply ha), ⟨⟨h.chain, h.queue, fun q c hq => h.lock q c (hother q c hq).2,
      fun q c hq => ?_, fun q hq => ?_, fun c hc => ?_⟩, h.head⟩⟩
    · obtain ⟨hqp, hq⟩ := hother q c hq
      have hsame : Function.update a.done p none q = a.done q := Function.update_of_ne hqp _ _
      rcases h.place q c hq with ⟨hmem, hdone, ha⟩ | ⟨hmem, hdone, hr, ha⟩
      · exact .queued hmem hdone (hsame.trans ha)
      · exact .served hmem hdone ((Ide.setPc_other hqp _).trans hr) (hsame.trans ha)
    · show Function.update a.done p none q = none
      by_cases hqp : q = p
      · rw [hqp, Function.update_self]
      · rw [Function.update_of_ne hqp]
        exact h.user q (by rwa [Ide.setPc_other hqp] at hq)
    · obtain ⟨q, hq⟩ := h.waits c hc
      have hqp : q ≠ p := by
        rintro rfl
        exact hmem (hin.unique hq ▸ hc)
      exact ⟨q, (Inside.setPc_other hqp).mpr hq⟩
  · rename_i hnot
    rcases h.place p b hin with ⟨hmem, -, -⟩ | ⟨-, hdone, -, -⟩
    · exact ⟨a, .refl, h.setPc hin (.inl ⟨rfl, hmem⟩)⟩
    · exact absurd hdone hnot

/-! ### The drive -/

/-- The drive has done the first request. -/
theorem OnHead.done {o : Option Req} {v v' : Drive} (h : OnHead disk v o) (hv : v.done false = .ok v') :
    OnHead disk v' o := by
  unfold Drive.done at hv
  split at hv
  · cases hv
  · rename_i c hc
    cases o with
    | none => rw [h.1] at hc; cases hc
    | some r =>
      rcases h with ⟨hcmd, -, hdata⟩ | ⟨hcmd, -⟩
      · rw [hcmd] at hc
        cases hc
        rw [Req.command] at hv
        cases hr : r.data with
        | none =>
          rw [hr] at hv
          cases hv
          refine Working.done rfl rfl rfl ?_ fun _ => by rw [hdata]
          rw [Req.apply, hr]
          exact hdata
        | some d =>
          rw [hr] at hv
          cases hv
          refine Working.done rfl rfl rfl ?_ fun h0 => by rw [h0] at hr; cases hr
          rw [Req.apply, hr, ← hdata]
      · rw [hcmd] at hc
        cases hc

theorem Serves.done {v : Drive} (h : Serves bs k a) (hv : k.drive.done false = .ok v) :
    Serves bs { k with drive := v } a :=
  ⟨h.frame rfl (fun _ _ _ => ⟨_, rfl⟩) h.chain, h.head.done hv⟩


/-! ### The interrupt -/

/-- What `ideintr` does to a buffer that gets the contents `d`. -/
def served (d : Block) (x : Buf) : Buf := { x with data := d, valid := true, dirty := false }

/-- The first request has been served; the drive has not been started for the next one. -/
theorem Queued.serve {d : Block} (h : Queued (b :: bs) k a) (hp : Inside k p b) (hd : d = r.result a.disk) :
    Queued bs (wakeup (({ k with idequeue := (k.buf b).qnext }).setBuf b (served d)) b)
      ⟨r.apply a.disk, bs.map (entry k), Function.update a.done p (some (r.result a.disk))⟩ := by
  have hnodup := h.chain.nodup
  rw [List.nodup_cons] at hnodup
  obtain ⟨k', hk'⟩ : ∃ k', k' = wakeup (({ k with idequeue := (k.buf b).qnext }).setBuf b (served d)) b :=
    ⟨_, rfl⟩
  rw [← hk']
  have hself : k'.buf b = served d (k.buf b) := by rw [hk']; exact Function.update_self b _ _
  have hother : ∀ c, c ≠ b → k'.buf c = k.buf c := fun c hc => by
    rw [hk']
    exact Function.update_of_ne hc _ _
  have hpc : ∀ q, k'.pc q = if k.pc q = .sleeping b then .ready b else k.pc q := fun q => by
    rw [hk']
    rfl
  have hin : ∀ q c, Inside k' q c ↔ Inside k q c := fun q c => by
    rw [Inside, Inside, hpc]
    by_cases hq : k.pc q = .sleeping b
    · rw [if_pos hq, hq]
      constructor
      · rintro (h | h)
        · cases h
        · cases h
          exact .inl rfl
      · rintro (h | h)
        · cases h
          exact .inr rfl
        · cases h
    · rw [if_neg hq]
  have hqnext : k'.qnext = k.qnext := by
    funext c
    by_cases hc : c = b
    · rw [hc, Driver.qnext, hself]
      rfl
    · rw [Driver.qnext, hother c hc]
      rfl
  refine ⟨?_, ?_, fun q c hq => ?_, fun q c hq => ?_, fun q hq => ?_, fun c hc => ?_⟩
  · have hidequeue : k'.idequeue = k.qnext b := by rw [hk']; rfl
    rw [hqnext, hidequeue]
    exact (chain_cons_iff.mp h.chain).2
  · refine List.map_congr_left fun c hc => ?_
    rw [entry, entry, hother c fun hcb => hnodup.1 (hcb ▸ hc)]
  · rw [hin] at hq
    have hlock := h.lock q c hq
    by_cases hc : c = b
    · subst hc
      rw [hself]
      exact hlock
    · rwa [hother c hc]
  · rw [hin] at hq
    by_cases hc : c = b
    · -- the process that has been waiting for the buffer
      subst hc
      have hqp := h.unique hq hp
      subst hqp
      refine .served hnodup.1 ?_ ?_ ?_
      · rw [hself]
        exact ⟨rfl, rfl⟩
      · rw [hpc]
        rcases hq with hq | hq
        · rw [if_pos hq]
        · rw [if_neg (by rw [hq]; nofun), hq]
      · show Function.update a.done q _ q = _
        rw [Function.update_self, hself, ← hd]
        rfl
    · have hqp : q ≠ p := by
        rintro rfl
        exact hc (hq.unique hp)
      have hdone : Function.update a.done p (some (r.result a.disk)) q = a.done q :=
        Function.update_of_ne hqp _ _
      rcases h.place q c hq with ⟨hmem, hnot, ha⟩ | ⟨hmem, hyes, hr, ha⟩
      · refine .queued ((List.mem_cons.mp hmem).resolve_left hc) ?_ (hdone.trans ha)
        rwa [hother c hc]
      · refine .served (fun hmem' => hmem (List.mem_cons_of_mem b hmem')) ?_ ?_ ?_
        · rwa [hother c hc]
        · rw [hpc, if_neg (by rw [hr]; nofun), hr]
        · rw [hother c hc]
          exact hdone.trans ha
  · rw [hpc] at hq
    have hold : k.pc q = .user := by
      by_cases hs : k.pc q = .sleeping b
      · rw [if_pos hs] at hq
        cases hq
      · rwa [if_neg hs] at hq
    show Function.update a.done p _ q = none
    rw [Function.update_of_ne]
    · exact h.user q hold
    · rintro rfl
      exact hp.not_user hold
  · obtain ⟨q, hq⟩ := h.waits c (List.mem_cons_of_mem b hc)
    exact ⟨q, (hin q c).mpr hq⟩

/-- The drive works on the request of the buffer that `idestart` is called for. -/
theorem OnHead.start {v : Drive} (h : OnHead disk v none) (r : Req) :
    OnHead disk { v with cmd := some r.command } (some r) := Working.busy rfl h.2.1 h.2.2

/-- The interrupt handler serves the first request and starts the next one. -/
theorem Serves.ideintr (h : Serves bs k a) (hintr : k.drive.intr = true) (hs : ideintr k = .ok k') :
    ∃ a' bs', (server disk).Path a [] a' ∧ Serves bs' k' a' := by
  have hhead := h.head
  cases bs with
  | nil =>
    rw [hhead.2.1] at hintr
    cases hintr
  | cons b bs =>
    obtain ⟨p, hp⟩ := h.waits b List.mem_cons_self
    have hidequeue : k.idequeue = some b := (chain_cons_iff.mp h.chain).1
    rcases hhead with ⟨-, hnot, -⟩ | ⟨hcmd, -, herr, hdata, hport⟩
    · rw [hnot] at hintr
      cases hintr
    -- The contents that the buffer gets are the result of the request.
    have hresult : (if (k.buf b).dirty = false ∧ k.drive.err = false then k.drive.port
        else (k.buf b).data) = (request (k.buf b)).result a.disk := by
      rw [Req.result]
      cases hdirty : (k.buf b).dirty with
      | false =>
        have hread : (request (k.buf b)).data = none := by rw [request, hdirty]; rfl
        rw [if_pos ⟨rfl, herr⟩, hread, hport hread]
        rfl
      | true =>
        have hwrite : (request (k.buf b)).data = some (k.buf b).data := by rw [request, hdirty]; rfl
        rw [if_neg (by rintro ⟨h0, -⟩; cases h0), hwrite]
        rfl
    have hquiet : Queued (b :: bs) { k with drive := { k.drive with intr := false } } a :=
      h.toQueued.frame rfl (fun _ _ _ => ⟨_, rfl⟩) h.chain
    have hserve := hquiet.serve hp hresult
    have hstep : (server disk).step a none ⟨(request (k.buf b)).apply a.disk, bs.map (entry k),
        Function.update a.done p (some ((request (k.buf b)).result a.disk))⟩ := by
      refine Server.Step.serve ?_
      rw [h.queue, List.map_cons, h.entry_eq hp]
    unfold Ide.ideintr at hs
    dsimp only at hs
    rw [hidequeue] at hs
    dsimp only at hs
    rw [if_neg (by rw [hcmd]; rintro ⟨-, h0⟩; cases h0)] at hs
    obtain ⟨d, hd⟩ : ∃ d, d = if (k.buf b).dirty = false ∧ k.drive.err = false then k.drive.port
        else (k.buf b).data := ⟨_, rfl⟩
    rw [← hd] at hs hserve
    obtain ⟨k₁, hk₁⟩ : ∃ k₁, k₁ = wakeup (({ k with
        drive := { k.drive with intr := false }, idequeue := (k.buf b).qnext } : Driver).setBuf b (served d)) b :=
      ⟨_, rfl⟩
    have hserve : Queued bs k₁ _ := hk₁ ▸ hserve
    have hdrive : k₁.drive = { k.drive with intr := false } := by rw [hk₁]; rfl
    have hidle : OnHead ((request (k.buf b)).apply a.disk) k₁.drive none := by
      rw [hdrive]
      exact ⟨hcmd, rfl, hdata⟩
    have hs : (match k₁.idequeue with
        | none => .ok k₁
        | some next => idestart k₁ next) = Except.ok k' := by
      rw [hk₁]
      exact hs
    cases bs with
    | nil =>
      rw [chain_nil_iff.mp hserve.chain] at hs
      cases hs
      exact ⟨_, [], .single hstep, hserve, hidle⟩
    | cons c bs =>
      rw [(chain_cons_iff.mp hserve.chain).1] at hs
      obtain ⟨-, rfl⟩ := idestart_ok hs
      refine ⟨_, c :: bs, .single hstep, hserve.frame rfl (fun _ _ _ => ⟨_, rfl⟩) hserve.chain, ?_⟩
      exact hidle.start (request (k₁.buf c))

/-! ### A new request -/

/-- `b` behind the last buffer of the queue. -/
theorem append_ok (hc : Chain k.qnext k.idequeue bs) (hb : b ∉ bs) (hnext : k.qnext b = none) :
    ∃ k', append k b = .ok k' ∧ Chain k'.qnext k'.idequeue (bs ++ [b]) ∧ k'.pc = k.pc ∧
      k'.drive = k.drive ∧ ∀ c, ∃ n, k'.buf c = { k.buf c with qnext := n } := by
  unfold append
  cases bs using List.reverseRecOn with
  | nil =>
    rw [chain_nil_iff.mp hc]
    refine ⟨_, rfl, ?_, rfl, rfl, fun _ => ⟨_, rfl⟩⟩
    exact chain_cons_iff.mpr ⟨rfl, chain_nil_iff.mpr hnext⟩
  | append_singleton bs z =>
    obtain ⟨h, hh⟩ : ∃ h, k.idequeue = some h := by
      cases hq : k.idequeue with
      | none =>
        rw [hq] at hc
        exact absurd (chain_none_iff.mp hc) (by simp)
      | some h => exact ⟨h, rfl⟩
    have hwalk : walkEnd k.qnext NBUF h = some z := by
      rw [walkEnd_eq (hh ▸ hc) (hc.length_le.trans (Fintype.card_fin NBUF).le)]
      exact List.getLast?_concat
    rw [hh]
    dsimp only
    rw [hwalk]
    have hbz : b ≠ z := fun h0 => hb (by rw [h0]; simp)
    have hz : z ∉ bs := by
      have hnodup := hc.nodup
      rw [List.nodup_append] at hnodup
      exact fun h0 => hnodup.2.2 z h0 z (by simp) rfl
    refine ⟨_, rfl, ?_, rfl, rfl, fun c => ?_⟩
    · rw [qnext_setBuf]
      show Chain _ k.idequeue _
      refine hc.snoc (Function.update_self _ _ _) ?_ fun c hmem => ?_
      · rw [Function.update_of_ne hbz, hnext]
      · exact Function.update_of_ne (fun h0 : c = z => hz (h0 ▸ hmem)) _ _
    · by_cases hc : c = z
      · rw [hc, setBuf_self]
        exact ⟨_, rfl⟩
      · rw [setBuf_other hc]
        exact ⟨_, rfl⟩

/-- One more buffer in the queue. -/
theorem Queued.request (h : Queued bs k a) (hp : k.pc p = .user) (hlock : (k.buf b).lock = some p)
    (hnot : ¬ (k.buf b).Done) (hbuf : ∀ c, ∃ n, k'.buf c = { k.buf c with qnext := n })
    (hpc : k'.pc = k.pc) (hchain : Chain k'.qnext k'.idequeue (bs ++ [b])) :
    Queued (bs ++ [b]) (k'.setPc p (.sleeping b))
      { a with queue := a.queue ++ [(p, Ide.request (k.buf b))] } := by
  obtain ⟨n, hn⟩ := hbuf b
  have hentry : ∀ c, entry (k'.setPc p (.sleeping b)) c = entry k c := fun c => by
    obtain ⟨n, hn⟩ := hbuf c
    show entry k' c = _
    rw [entry, entry, hn]
    rfl
  have hother : ∀ q c, q ≠ p → (Inside (k'.setPc p (.sleeping b)) q c ↔ Inside k q c) := fun q c hq => by
    rw [Inside.setPc_other hq, Inside, Inside, hpc]
  have hself : ∀ c, Inside (k'.setPc p (.sleeping b)) p c → c = b := fun c hc =>
    hc.unique (.inl (setPc_self _))
  refine ⟨hchain, ?_, fun q c hq => ?_, fun q c hq => ?_, fun q hq => ?_, fun c hc => ?_⟩
  · rw [h.queue, List.map_append, List.map_singleton, hentry, List.map_congr_left fun c _ => (hentry c).symm,
      entry, hlock, Option.getD_some]
  · obtain ⟨n, hn⟩ := hbuf c
    show (k'.buf c).lock = some q
    rw [hn]
    by_cases hqp : q = p
    · subst hqp
      rw [hself c hq]
      exact hlock
    · exact h.lock q c ((hother q c hqp).mp hq)
  · have hc := hbuf c
    obtain ⟨n, hn⟩ := hc
    have hbufc : (k'.setPc p (.sleeping b)).buf c = { k.buf c with qnext := n } := hn
    by_cases hqp : q = p
    · subst hqp
      have hcb := hself c hq
      subst hcb
      refine .queued (by simp) ?_ (h.user q hp)
      rw [hbufc]
      exact hnot
    · rcases h.place q c ((hother q c hqp).mp hq) with ⟨hmem, hdone, ha⟩ | ⟨hmem, hdone, hr, ha⟩
      · refine .queued (List.mem_append_left _ hmem) ?_ ha
        rw [hbufc]
        exact hdone
      · have hcb : c ≠ b := fun h0 => hnot (h0 ▸ hdone)
        refine .served (by simp [hmem, hcb]) ?_ ?_ ?_
        · rw [hbufc]
          exact hdone
        · rw [Ide.setPc_other hqp, hpc, hr]
        · rw [hbufc]
          exact ha
  · have hqp : q ≠ p := by
      rintro rfl
      rw [setPc_self] at hq
      cases hq
    rw [Ide.setPc_other hqp, hpc] at hq
    exact h.user q hq
  · rcases List.mem_append.mp hc with hc | hc
    · obtain ⟨q, hq⟩ := h.waits c hc
      have hqp : q ≠ p := by
        rintro rfl
        exact hq.not_user hp
      exact ⟨q, (hother q c hqp).mpr hq⟩
    · rw [List.mem_singleton] at hc
      exact ⟨p, .inl (hc ▸ setPc_self _)⟩

/-- A buffer that is locked by a process outside `iderw` is put at the end of the queue. -/
theorem Queued.append (h : Queued bs k a) (hp : k.pc p = .user) (hlock : (k.buf b).lock = some p) :
    b ∉ bs ∧ ∃ k', append (k.setBuf b fun x => { x with qnext := none }) b = .ok k' ∧
      Chain k'.qnext k'.idequeue (bs ++ [b]) ∧ k'.pc = k.pc ∧ k'.drive = k.drive ∧
      ∀ c, ∃ n, k'.buf c = { k.buf c with qnext := n } := by
  have hfree : b ∉ bs := fun hb => by
    obtain ⟨q, hq⟩ := h.waits b hb
    have hqp := h.lock q b hq
    rw [hlock] at hqp
    cases hqp
    exact hq.not_user hp
  have hbuf₁ : ∀ c, ∃ n, (k.setBuf b fun x => { x with qnext := none }).buf c =
      { k.buf c with qnext := n } := fun c => by
    by_cases hc : c = b
    · rw [hc, setBuf_self]
      exact ⟨_, rfl⟩
    · rw [setBuf_other hc]
      exact ⟨_, rfl⟩
  have hchain : Chain (k.setBuf b fun x => { x with qnext := none }).qnext k.idequeue bs := by
    rw [qnext_setBuf]
    exact h.chain.congr fun c hc => Function.update_of_ne (fun h0 : c = b => hfree (h0 ▸ hc)) _ _
  have hnext : (k.setBuf b fun x => { x with qnext := none }).qnext b = none := by
    rw [qnext_setBuf, Function.update_self]
  obtain ⟨k₁, happend, hchain₁, hpc₁, hdrive₁, hbuf₂⟩ := append_ok hchain hfree hnext
  refine ⟨hfree, k₁, happend, hchain₁, hpc₁, hdrive₁, fun c => ?_⟩
  obtain ⟨n, hn⟩ := hbuf₁ c
  obtain ⟨m, hm⟩ := hbuf₂ c
  exact ⟨m, by rw [hm, hn]⟩

/-- `iderw` puts its request at the end of the queue. -/
theorem Serves.iderw {o : Option Event} (h : Serves bs k a) (hp : k.pc p = .user)
    (hs : iderw k p b = .ok (o, k')) :
    ∃ a' bs', (server disk).Path a o.toList a' ∧ Serves bs' k' a' := by
  unfold Ide.iderw at hs
  dsimp only at hs
  split_ifs at hs with hlock hnot hdev
  rw [ne_eq, not_not] at hlock
  obtain ⟨hfree, k₁, happend, hchain₁, hpc₁, hdrive₁, hbuf⟩ := h.toQueued.append hp hlock
  have hstep : (server disk).step a (some (.request p (request (k.buf b))))
      { a with queue := a.queue ++ [(p, request (k.buf b))] } := by
    refine Server.Step.request (fun x hx => ?_) (h.user p hp)
    rw [h.queue] at hx
    obtain ⟨c, hc, rfl⟩ := List.mem_map.mp hx
    obtain ⟨q, hq⟩ := h.waits c hc
    rw [h.entry_eq hq]
    rintro rfl
    exact hq.not_user hp
  have hqueued := h.toQueued.request hp hlock hnot hbuf hpc₁ hchain₁
  rw [happend, ok_bind] at hs
  have hhead := h.head
  cases bs with
  | nil =>
    -- the drive is started for the new request
    rw [if_pos (chain_cons_iff.mp hchain₁).1] at hs
    obtain ⟨k₂, hstart, hs⟩ := bind_eq_ok.mp hs
    cases hs
    obtain ⟨-, rfl⟩ := idestart_ok hstart
    refine ⟨_, [b], .single hstep, hqueued.frame rfl (fun _ _ _ => ⟨_, rfl⟩) hqueued.chain, ?_⟩
    have hidle : OnHead a.disk k₁.drive none := by
      rw [hdrive₁]
      exact hhead
    exact hidle.start (request (k₁.buf b))
  | cons c bs =>
    have hne : ¬ k₁.idequeue = some b := by
      rw [(chain_cons_iff.mp hchain₁).1]
      intro h0
      cases h0
      exact hfree List.mem_cons_self
    rw [if_neg hne, ok_bind] at hs
    cases hs
    refine ⟨_, c :: bs ++ [b], .single hstep, hqueued, ?_⟩
    obtain ⟨n, hn⟩ := hbuf c
    have hsame : request (k₁.buf c) = request (k.buf c) := by
      rw [hn]
      rfl
    show OnHead a.disk k₁.drive (some (request (k₁.buf c)))
    rw [hsame, hdrive₁]
    exact hhead

/-! ### Runs -/

/-- Every step of the driver is some steps of the server. -/
theorem driver_simulates :
    Simulates (driver disk) (server disk) fun k a => ∃ bs, Serves bs k a where
  init := by
    intro k hk
    have hout : ∀ p b, ¬ Inside k p b := fun p b hin => hin.not_user (hk.user p)
    refine ⟨_, rfl, [], ⟨?_, rfl, fun p b hin => absurd hin (hout p b), fun p b hin => absurd hin (hout p b),
      fun _ _ => rfl, fun b hb => absurd hb List.not_mem_nil⟩, hk.cmd, hk.intr, hk.data⟩
    exact chain_nil_iff.mpr hk.idequeue
  step := by
    rintro k a o k' ⟨bs, h⟩ ⟨e, he, hs⟩
    cases e with
    | client b x =>
      rw [step] at hs
      split_ifs at hs with hb
      cases hs
      exact ⟨a, .refl, bs, h.client hb x⟩
    | iderw p b =>
      rw [step] at hs
      split_ifs at hs with hp
      obtain ⟨a', bs', hpath, hk'⟩ := h.iderw hp hs
      exact ⟨a', hpath, bs', hk'⟩
    | kill p =>
      rw [step] at hs
      split at hs
      · rename_i b hb
        cases hs
        exact ⟨a, .refl, bs, h.setPc (.inl hb) (.inr rfl)⟩
      · cases hs
    | resume p =>
      rw [step] at hs
      split at hs
      · rename_i b hb
        obtain ⟨a', hpath, hk'⟩ := h.resume (.inr hb)
        rw [Except.ok.inj hs] at hpath hk'
        exact ⟨a', hpath, bs, hk'⟩
      · cases hs
    | done err =>
      have herr : err = false := by
        cases err with
        | false => rfl
        | true => exact absurd rfl he
      subst herr
      obtain ⟨v, hv, hs⟩ := bind_eq_ok.mp hs
      cases hs
      exact ⟨a, .refl, bs, h.done hv⟩
    | ideintr =>
      rw [step] at hs
      split_ifs at hs with hintr
      obtain ⟨k₁, hk₁, hs⟩ := bind_eq_ok.mp hs
      cases hs
      obtain ⟨a', bs', hpath, hk'⟩ := h.ideintr hintr hk₁
      exact ⟨a', hpath, bs', hk'⟩

/-- The step neither waits for a busy drive nor loops for ever. -/
def Returns {α : Type} (m : Except Stop α) : Prop := m ≠ .error .busy ∧ m ≠ .error .diverges

theorem returns_ok {α : Type} (x : α) : Returns (.ok x) := ⟨nofun, nofun⟩

theorem returns_panic {α : Type} (msg : String) : Returns (.error (.panic msg) : Except Stop α) :=
  ⟨nofun, nofun⟩

theorem returns_blocked {α : Type} : Returns (.error .blocked : Except Stop α) := ⟨nofun, nofun⟩

theorem Returns.bind {α β : Type} {m : Except Stop α} {f : α → Except Stop β} (hm : Returns m)
    (hf : ∀ x, m = .ok x → Returns (f x)) : Returns (m >>= f) := by
  cases m with
  | ok x => exact hf x rfl
  | error e =>
    have hne : ∀ s, (Except.error e : Except Stop α) ≠ .error s → (Except.error e : Except Stop β) ≠ .error s := by
      rintro s hs h0
      cases h0
      exact hs rfl
    exact ⟨hne _ hm.1, hne _ hm.2⟩

theorem returns_idestart (h : k.drive.cmd = none) : Returns (idestart k b) := by
  unfold idestart
  rw [h]
  split
  · exact returns_panic _
  · exact returns_ok _

theorem Serves.returns_iderw (h : Serves bs k a) (hp : k.pc p = .user) : Returns (Ide.iderw k p b) := by
  unfold Ide.iderw
  dsimp only
  split_ifs with hlock hnot hdev
  · exact returns_panic _
  · exact returns_panic _
  · exact returns_panic _
  rw [ne_eq, not_not] at hlock
  obtain ⟨hfree, k₁, happend, hchain₁, -, hdrive₁, -⟩ := h.toQueued.append hp hlock
  rw [happend, ok_bind]
  have hhead := h.head
  cases bs with
  | nil =>
    rw [if_pos (chain_cons_iff.mp hchain₁).1]
    exact (returns_idestart (by rw [hdrive₁]; exact hhead.1)).bind fun _ _ => returns_ok _
  | cons c bs =>
    rw [(chain_cons_iff.mp hchain₁).1, if_neg]
    · exact (returns_ok _).bind fun _ _ => returns_ok _
    · rintro h0
      cases h0
      exact hfree List.mem_cons_self

theorem Serves.returns_ideintr (h : Serves bs k a) (hintr : k.drive.intr = true) :
    Returns (Ide.ideintr k) := by
  have hcmd : k.drive.cmd = none := by
    have hhead := h.head
    cases bs with
    | nil => exact hhead.1
    | cons b bs =>
      rcases hhead with ⟨-, hnot, -⟩ | ⟨hcmd, -⟩
      · rw [hnot] at hintr
        cases hintr
      · exact hcmd
  unfold Ide.ideintr
  dsimp only
  split
  · exact returns_ok _
  rw [if_neg (by rw [hcmd]; rintro ⟨-, h0⟩; cases h0)]
  split
  · exact returns_ok _
  · exact returns_idestart hcmd

theorem Serves.returns (h : Serves bs k a) (e : Act) : Returns (step k e) := by
  cases e with
  | client b x =>
    rw [step]
    split
    · exact returns_ok _
    · exact returns_blocked
  | iderw p b =>
    rw [step]
    split
    · exact h.returns_iderw ‹_›
    · exact returns_blocked
  | kill p =>
    rw [step]
    split
    · exact returns_ok _
    · exact returns_blocked
  | resume p =>
    rw [step]
    split
    · exact returns_ok _
    · exact returns_blocked
  | done err =>
    refine Returns.bind ?_ fun v _ => returns_ok _
    unfold Drive.done
    dsimp only
    split
    · exact returns_blocked
    · split_ifs
      · exact returns_ok _
      · split
        · exact returns_ok _
        · exact returns_ok _
  | ideintr =>
    rw [step]
    split
    · exact (h.returns_ideintr ‹_›).bind fun k _ => returns_ok _
    · exact returns_blocked

/-- Two processes have locked a buffer each: the first one to write the block 7, the second one to read
    it. -/
def twoBuffers : Driver where
  buf b :=
    if b = 0 then { dirty := true, dev := 1, blockno := 7, lock := some 1, data := fun _ => 5 }
    else if b = 1 then { dev := 1, blockno := 7, lock := some 2 }
    else {}
  havedisk1 := true
  drive := { data := fun _ _ _ => 0 }
  pc _ := .user

/-- The second process calls `iderw` before the first request is done. -/
def twoRequests : List Act :=
  [.iderw 1 0, .iderw 2 1, .done false, .ideintr, .done false, .resume 1, .ideintr, .resume 2]

theorem twoRequests_run : ∃ es k, (driver fun _ _ _ => 0).Trace es k ∧
    es.length = 4 ∧ (k.buf 1).data.get 0 = 5 ∧ k.pc 2 = .user := by
  have hinit : (driver fun _ _ _ => 0).Trace [] twoBuffers := .start ⟨rfl, fun _ => rfl, rfl, rfl, rfl⟩
  have htest : runTest step (fun es k => decide (es.length = 4 ∧ (k.buf 1).data.get 0 = 5 ∧ k.pc 2 = .user))
      [] twoBuffers twoRequests = true := by decide +kernel
  obtain ⟨es, k, hrun, hend⟩ := hinit.of_runTest (fun _ e he => by
    rintro rfl
    simp [twoRequests] at he) htest
  exact ⟨es, k, hrun, of_decide_eq_true hend⟩

end Xv6.Ide
