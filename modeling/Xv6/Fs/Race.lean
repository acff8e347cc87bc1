import Xv6.Fs.Store
import Xv6.Lib.Transition

namespace Xv6.Fs

open Xv6.Lib

/-!
# Log — writers that run while `sync` commits

`begin_op` makes a new system call wait for a commit, but `sync` does not wait for the system
calls that are already inside.  Their updates of single blocks interleave with the steps of
`sync`: `logDirtyBuffer`, each round of `write_log`, `write_head`, each round of
`install_trans`, and the last `write_head`.

From its copy to the log until its copy back, a logged block is `Exposed`: a writer that changes
it in between loses the change, since `install_trans` overwrites the cached block.

* `syncStep`, `sync_steps` — the steps of `sync`, and that without writers they make up `sync`;
* `RaceInv` — the invariant: the log blocks of exposed blocks have the last contents;
* `no_lost_update` — if no writer changes an exposed block, every block has the content of its
  last writer, in every state of every interleaving;
* `exposed_update_lost` — a run in which an exposed block is changed, and the change is lost.
-/

/-! ### The steps -/

/-- Where `sync` is.  `log.committing` has been set at `start` and is cleared at `done`. -/
inductive Phase
  | start
  | writeLog (tail : Nat)
  | install (tail : Nat)
  | done
  deriving DecidableEq, Repr

/-- One step of `sync`; the calls of `sync` inside its `bget` are one level deeper. -/
def syncStep : Phase → M Phase
  | .start => do
    let temp ← logDirtyBuffer
    if temp = 0 then do
      setCommitting false
      pure .done
    else pure (.writeLog 0)
  | .writeLog tail => do
    let s ← get
    if tail < s.log.lh.length then do
      writeLogOne (syncDepth 1) tail
      pure (.writeLog (tail + 1))
    else do
      writeHead (syncDepth 1)
      pure (.install 0)
  | .install tail => do
    let s ← get
    if tail < s.log.lh.length then do
      installOne (syncDepth 1) tail
      pure (.install (tail + 1))
    else do
      let _ ← clearLog
      writeHead (syncDepth 1)
      setCommitting false
      pure .done
  | .done => pure .done

/-- The machine while one `sync` runs; `last` records what the last writer of each block stored,
    and the content at the start for the other blocks. -/
structure Race where
  phase : Phase
  machine : Machine
  last : Nat → Block

/-- A step of `sync`, or the update of a block by a writer. -/
inductive Move
  | sync
  | write (b : Nat) (f : Block → Block)

/-- One step of the interleaving. -/
def raceStep (r : Race) : Move → Except Stop Race
  | .sync =>
    match syncStep r.phase r.machine with
    | .ok phase s => .ok { r with phase := phase, machine := s }
    | .error e _ => .error e
  | .write b f =>
    match updateBlock b f r.machine with
    | .ok _ s => .ok { r with machine := s, last := Function.update r.last b (content s b) }
    | .error e _ => .error e

/-- `sync` has just been entered, at a moment when no update is in progress. -/
def RaceStart (r : Race) : Prop :=
  ∃ s, Idle s ∧ s.isfull = false ∧
    r = ⟨.start, { s with log := { s.log with committing := true } }, content s⟩

/-- Writers update blocks outside the log area. -/
def Writers (r : Race) : Move → Prop
  | .sync => True
  | .write b _ => r.machine.log.Outside b

/-- The block has been copied to the log, and is still to be copied back. -/
def Exposed (r : Race) (b : Nat) : Prop :=
  match r.phase with
  | .writeLog tail => ∃ i < tail, r.machine.log.lh.getD i 0 = b
  | .install tail => ∃ i < r.machine.log.lh.length, tail ≤ i ∧ r.machine.log.lh.getD i 0 = b
  | _ => False

/-- Writers that, besides, do not change an exposed block. -/
def CarefulWriters (r : Race) : Move → Prop
  | .sync => True
  | .write b f => r.machine.log.Outside b ∧
      (Exposed r b → f (content r.machine b) = content r.machine b)

/-! ### The invariant -/

/-- What the phase says about the log. -/
def PhaseInv (s : Machine) (c : Nat → Block) : Phase → Prop
  | .start => s.log.lh = [] ∧ s.log.committing = true
  | .writeLog tail => s.log.committing = true ∧ s.log.lh.length < s.log.size ∧
      (∀ b ∈ s.log.lh, s.log.Outside b) ∧ tail ≤ s.log.lh.length ∧
      ∀ i < tail, content s (s.log.start + i + 1) = c (s.log.lh.getD i 0)
  | .install tail => s.log.committing = true ∧ s.log.lh.length < s.log.size ∧
      (∀ b ∈ s.log.lh, s.log.Outside b) ∧
      ∀ i < s.log.lh.length, tail ≤ i →
        content s (s.log.start + i + 1) = c (s.log.lh.getD i 0)
  | .done => s.log.lh = [] ∧ s.log.committing = false

/-- The invariant of the interleaving. -/
structure RaceInv (r : Race) : Prop where
  ok : CacheOk r.machine
  quiet : Quiet r.machine
  isfull : r.machine.isfull = false
  dirty : ∀ b, Dirty r.machine b → r.machine.log.Outside b
  content : ∀ b, r.machine.log.Outside b → content r.machine b = r.last b
  phase : PhaseInv r.machine r.last r.phase

variable {r r' : Race} {b : Nat}

/-! ### Writers -/

/-- During the commit a writer only changes its block. -/
theorem wp_update_committing {s : Machine} (h : CacheOk s) (hs : s.log.committing = true)
    (f : Block → Block) :
    wp (updateBlock b f) (fun _ s' => After s s' (Function.update (content s) b (f (content s b)))
      (fun b' => Dirty s b' ∨ b' = b) (Held s) []) (Unwritten (Held s b) s) s := by
  have hauto : autoSync sync s = .ok () s := autoSync_nested (nested_syncDepth 1) hs
  rw [updateBlock_eq, wp_bind, wp_of_ok hauto]
  exact wp_updateBuf h b f

/-- A careful writer keeps the invariant while `sync` is running. -/
theorem RaceInv.write_committing (h : RaceInv r) (hs : r.machine.log.committing = true)
    {f : Block → Block} (hb : r.machine.log.Outside b)
    (hexp : Exposed r b → f (Fs.content r.machine b) = Fs.content r.machine b) {s : Machine}
    (hrun : updateBlock b f r.machine = .ok () s) :
    RaceInv { r with machine := s, last := Function.update r.last b (Fs.content s b) } := by
  have ha := (wp_of_ok hrun).mp (wp_update_committing h.ok hs f)
  have hcb : Fs.content s b = f (Fs.content r.machine b) := by
    rw [ha.content, Function.update_self]
  -- a block of the log area is not the writer's
  have hlogb : ∀ i, i + 1 < r.machine.log.size →
      Fs.content s (r.machine.log.start + i + 1) =
        Fs.content r.machine (r.machine.log.start + i + 1) := by
    intro i hi
    rw [ha.content, Function.update_of_ne]
    rintro rfl
    rw [Log.Outside] at hb
    omega
  have hlast : ∀ b', (b' = b → Exposed r b) → Function.update r.last b (Fs.content s b) b' =
      r.last b' := by
    intro b' hb'
    by_cases hbb : b' = b
    · subst hbb
      rw [Function.update_self, hcb, hexp (hb' rfl), h.content b' hb]
    · rw [Function.update_of_ne hbb]
  refine ⟨ha.ok, fun b' hb' => h.quiet b' ((ha.held b').mp hb'), ha.isfull.trans h.isfull,
    fun b' hb' => ?_, fun b' hb' => ?_, ?_⟩
  · rw [ha.log]
    rcases (ha.dirty b').mp hb' with hb' | rfl
    · exact h.dirty b' hb'
    · exact hb
  · show Fs.content s b' = Function.update r.last b (Fs.content s b) b'
    by_cases hbb : b' = b
    · subst hbb; rw [Function.update_self]
    · rw [Function.update_of_ne hbb, ha.content, Function.update_of_ne hbb]
      rw [ha.log] at hb'
      exact h.content b' hb'
  · have hphase := h.phase
    show PhaseInv s (Function.update r.last b (Fs.content s b)) r.phase
    cases hp : r.phase with
    | start => rw [hp] at hphase; rw [PhaseInv, ha.log]; exact hphase
    | done => rw [hp] at hphase; rw [PhaseInv, ha.log]; exact hphase
    | writeLog tail =>
      rw [hp] at hphase
      rw [PhaseInv, ha.log]
      obtain ⟨hcom, hlen, hout, htail, hlog⟩ := hphase
      refine ⟨hcom, hlen, hout, htail, fun i hi => ?_⟩
      rw [hlogb i (by omega), hlog i hi, hlast]
      intro hbb
      rw [Exposed, hp]
      exact ⟨i, hi, hbb⟩
    | install tail =>
      rw [hp] at hphase
      rw [PhaseInv, ha.log]
      obtain ⟨hcom, hlen, hout, hlog⟩ := hphase
      refine ⟨hcom, hlen, hout, fun i hi hti => ?_⟩
      rw [hlogb i (by omega), hlog i hi hti, hlast]
      intro hbb
      rw [Exposed, hp]
      exact ⟨i, hi, hti, hbb⟩

/-- When `sync` has finished, the machine shows the last contents. -/
theorem RaceInv.represents (h : RaceInv r) (hd : r.phase = .done) :
    Represents r.machine.log.start r.machine.log.size r.last r.machine := by
  have hphase := h.phase
  rw [hd] at hphase
  exact ⟨⟨⟨h.ok, hphase.1, hphase.2, h.dirty⟩, h.quiet⟩, h.isfull, rfl, rfl, h.content⟩

theorem RaceInv.of_represents {start size : Nat} (h : Represents start size r.last r.machine)
    (hd : r.phase = .done) : RaceInv r where
  ok := h.idle.ok
  quiet := h.idle.quiet
  isfull := h.isfull
  dirty := h.idle.outside
  content b hb := h.content b (h.outside.mp hb)
  phase := by rw [hd]; exact ⟨h.idle.lh, h.idle.committing⟩

theorem PhaseInv.committing {s : Machine} {c : Nat → Block} {p : Phase} (h : PhaseInv s c p)
    (hp : p ≠ .done) : s.log.committing = true := by
  cases p with
  | start => exact h.2
  | writeLog => exact h.1
  | install => exact h.1
  | done => exact absurd rfl hp

/-- A careful writer keeps the invariant. -/
theorem RaceInv.write (h : RaceInv r) {f : Block → Block}
    (hG : CarefulWriters r (.write b f)) {s : Machine}
    (hrun : updateBlock b f r.machine = .ok () s) :
    RaceInv { r with machine := s, last := Function.update r.last b (Fs.content s b) } := by
  by_cases hd : r.phase = .done
  · have hr := h.represents hd
    have hr' := (wp_of_ok hrun).mp (hr.update (hr.outside.mp hG.1) f)
    have hcb : Fs.content s b = f (r.last b) := by
      rw [hr'.content b (hr.outside.mp hG.1), Function.update_self]
    rw [← hcb] at hr'
    exact RaceInv.of_represents
      (r := { r with machine := s, last := Function.update r.last b (Fs.content s b) }) hr' hd
  · exact h.write_committing (h.phase.committing hd) hG.1 hG.2 hrun

/-! ### `sync` -/

/-- A logged block is not its own log block. -/
theorem home_ne_log {s : Machine} (hlen : s.log.lh.length < s.log.size)
    (hout : ∀ b ∈ s.log.lh, s.log.Outside b) {i : Nat} (hi : i < s.log.lh.length) :
    s.log.lh.getD i 0 ≠ s.log.start + i + 1 := by
  have := hout _ (getD_mem hi)
  rw [Log.Outside] at this
  omega

/-- A step that changes only the log area keeps the invariant. -/
theorem RaceInv.of_after (h : RaceInv r) {s : Machine} {c : Nat → Block} {D : Nat → Prop}
    {w : List (Nat × Block)} {p : Phase} (ha : After r.machine s c D (Held r.machine) w)
    (hD : ∀ b, D b → Dirty r.machine b)
    (hc : ∀ b, r.machine.log.Outside b → c b = Fs.content r.machine b)
    (hp : PhaseInv s r.last p) : RaceInv { r with phase := p, machine := s } where
  ok := ha.ok
  quiet b hb := h.quiet b ((ha.held b).mp hb)
  isfull := ha.isfull.trans h.isfull
  dirty b hb := by rw [ha.log]; exact h.dirty b (hD b ((ha.dirty b).mp hb))
  content b hb := by
    rw [ha.log] at hb
    show Fs.content s b = r.last b
    rw [ha.content, hc b hb, h.content b hb]
  phase := hp

/-- `logDirtyBuffer`. -/
theorem RaceInv.logDirtyBuffer (h : RaceInv r) (hr : r.phase = .start) :
    wp (syncStep .start) (fun p s => RaceInv { r with phase := p, machine := s })
      (fun _ _ => True) r.machine := by
  have hphase := h.phase
  rw [hr] at hphase
  rw [syncStep, wp_bind]
  refine wp_mono (wp_logDirtyBuffer (P := False) h.ok hphase.1) (fun n s hs => ?_)
    fun _ _ _ => trivial
  obtain ⟨hn, rfl, hroom⟩ := hs
  have hok : CacheOk { r.machine with
      log := { r.machine.log with lh := dirtyBlocks r.machine.bufs } } :=
    ⟨h.ok.nodup, h.ok.named, h.ok.clean, h.ok.dirtyNamed⟩
  refine wp_ite (fun hz => ?_) fun hnz => ?_
  · have hempty : dirtyBlocks r.machine.bufs = [] := by
      rw [← List.length_eq_zero_iff, h.ok.length_dirtyBlocks]
      exact hn.symm.trans hz
    rw [setCommitting, wp_bind, wp_modify, wp_pure]
    exact ⟨⟨h.ok.nodup, h.ok.named, h.ok.clean, h.ok.dirtyNamed⟩, h.quiet, h.isfull, h.dirty,
      h.content, hempty, rfl⟩
  · rw [wp_pure]
    exact ⟨hok, h.quiet, h.isfull, h.dirty, h.content, hphase.2, (hroom hnz).1,
      fun b hb => h.dirty b (h.ok.mem_dirtyBlocks.mp hb), Nat.zero_le _,
      fun i hi => absurd hi (Nat.not_lt_zero i)⟩

/-- A round of `write_log`, or `write_head` after the last one. -/
theorem RaceInv.writeLog (h : RaceInv r) {tail : Nat} (hr : r.phase = .writeLog tail) :
    wp (syncStep (.writeLog tail)) (fun p s => RaceInv { r with phase := p, machine := s })
      (fun _ _ => True) r.machine := by
  have hphase := h.phase
  rw [hr] at hphase
  obtain ⟨hcom, hlen, hout, htail, hlog⟩ := hphase
  have hp : Passive (syncDepth 1) r.machine := passive_of_committing (nested_syncDepth 0) hcom
  rw [syncStep, wp_bind, wp_get]
  refine wp_ite (fun hlt => ?_) fun hge => ?_
  · have hsrc := hout _ (getD_mem hlt)
    rw [wp_bind]
    refine wp_mono (wp_writeLogOne hp h.ok h.quiet (home_ne_log hlen hout hlt)) (fun _ s ha => ?_) fun _ _ _ => trivial
    rw [wp_pure]
    refine h.of_after ha (fun _ hb => hb.1) (fun b hb => ?_) ?_
    · rw [Log.Outside] at hb
      rw [Function.update_of_ne (by omega)]
    · rw [PhaseInv, ha.log]
      refine ⟨hcom, hlen, hout, hlt, fun i hi => ?_⟩
      rw [ha.content]
      by_cases hit : i = tail
      · subst hit
        rw [Function.update_self, h.content _ hsrc]
      · rw [Function.update_of_ne (by omega), hlog i (by omega)]
  · rw [wp_bind]
    refine wp_mono (wp_writeHead hp h.ok h.quiet) (fun _ s ha => ?_) fun _ _ _ => trivial
    rw [wp_pure]
    refine h.of_after ha (fun _ hb => hb.1) (fun b hb => ?_) ?_
    · rw [Log.Outside] at hb
      rw [Function.update_of_ne (by omega)]
    · rw [PhaseInv, ha.log]
      refine ⟨hcom, hlen, hout, fun i hi _ => ?_⟩
      rw [ha.content, Function.update_of_ne (by omega), hlog i (by omega)]

/-- A round of `install_trans`, or the last `write_head`. -/
theorem RaceInv.install (h : RaceInv r) {tail : Nat} (hr : r.phase = .install tail) :
    wp (syncStep (.install tail)) (fun p s => RaceInv { r with phase := p, machine := s })
      (fun _ _ => True) r.machine := by
  have hphase := h.phase
  rw [hr] at hphase
  obtain ⟨hcom, hlen, hout, hlog⟩ := hphase
  have hp : Passive (syncDepth 1) r.machine := passive_of_committing (nested_syncDepth 0) hcom
  rw [syncStep, wp_bind, wp_get]
  refine wp_ite (fun hlt => ?_) fun hge => ?_
  · have hdst := hout _ (getD_mem hlt)
    rw [wp_bind]
    refine wp_mono (wp_installOne hp h.ok h.quiet (home_ne_log hlen hout hlt)) (fun _ s ha => ?_) fun _ _ _ => trivial
    rw [wp_pure]
    -- the log has the content that the home block has anyway
    rw [hlog tail hlt le_rfl, ← h.content _ hdst, Function.update_eq_self] at ha
    refine h.of_after ha (fun _ hb => hb.1) (fun b hb => rfl) ?_
    rw [PhaseInv, ha.log]
    refine ⟨hcom, hlen, hout, fun i hi hti => ?_⟩
    rw [ha.content, hlog i hi (by omega)]
  · rw [wp_bind, clearLog, wp_bind, wp_get, wp_bind, wp_set, wp_pure, wp_bind]
    have hok : CacheOk { r.machine with log := { r.machine.log with lh := [] } } :=
      ⟨h.ok.nodup, h.ok.named, h.ok.clean, h.ok.dirtyNamed⟩
    refine wp_mono (wp_writeHead (passive_of_committing (nested_syncDepth 0) hcom) hok h.quiet)
      (fun _ s ha => ?_) fun _ _ _ => trivial
    rw [setCommitting, wp_bind, wp_modify, wp_pure]
    have hlogs : s.log = { r.machine.log with lh := [] } := ha.log
    refine ⟨⟨ha.ok.nodup, ha.ok.named, ha.ok.clean, ha.ok.dirtyNamed⟩,
      fun b hb => h.quiet b ((ha.held b).mp hb), ha.isfull.trans h.isfull, fun b hb => ?_,
      fun b hb => ?_, ?_, rfl⟩
    · show s.log.Outside b
      rw [hlogs]
      exact h.dirty b ((ha.dirty b).mp hb).1
    · have hb' : r.machine.log.Outside b := by
        have : s.log.Outside b := hb
        rw [hlogs] at this
        exact this
      show Fs.content s b = r.last b
      rw [← h.content b hb', ha.content]
      rw [Log.Outside] at hb'
      exact Function.update_of_ne (by show b ≠ r.machine.log.start; omega) _ _
    · show s.log.lh = []
      rw [hlogs]

/-- Every step of the interleaving keeps the invariant, if writers are careful. -/
theorem RaceInv.step (h : RaceInv r) {m : Move} (hG : CarefulWriters r m)
    (hr' : raceStep r m = .ok r') : RaceInv r' := by
  cases m with
  | write b f =>
    rw [raceStep] at hr'
    split at hr'
    · rename_i s hrun
      cases hr'
      exact h.write hG hrun
    · cases hr'
  | sync =>
    have hstep : wp (syncStep r.phase) (fun p s => RaceInv { r with phase := p, machine := s })
        (fun _ _ => True) r.machine := by
      cases hp : r.phase with
      | start => exact h.logDirtyBuffer hp
      | writeLog tail => exact h.writeLog hp
      | install tail => exact h.install hp
      | done =>
        rw [syncStep, wp_pure, ← hp]
        exact h
    rw [raceStep] at hr'
    split at hr'
    · rename_i p s hrun
      cases hr'
      exact (wp_of_ok hrun).mp hstep
    · cases hr'

theorem RaceInv.start (h : RaceStart r) : RaceInv r := by
  obtain ⟨s, hs, hfull, rfl⟩ := h
  exact ⟨⟨hs.ok.nodup, hs.ok.named, hs.ok.clean, hs.ok.dirtyNamed⟩, hs.quiet, hfull, hs.outside,
    fun _ _ => rfl, hs.lh, rfl⟩

/-- No update is lost through `sync`, if no writer changes an exposed block: in every state of
    every such interleaving `bread` returns what the last writer stored, also after `sync` has
    finished, and a block that is not dirty has this content on the disk. -/
theorem no_lost_update (h : Reachable RaceStart (Steps raceStep CarefulWriters) r)
    (hb : r.machine.log.Outside b) :
    content r.machine b = r.last b ∧ (¬ Dirty r.machine b → r.machine.disk b = r.last b) := by
  have hinv : RaceInv r := by
    refine h.invariant (fun _ hs => RaceInv.start hs) fun r r' hr hstep => ?_
    obtain ⟨m, hG, hstep⟩ := hstep
    exact hr.step hG hstep
  refine ⟨hinv.content b hb, fun hclean => ?_⟩
  rw [← hinv.ok.content_eq_disk hclean, hinv.content b hb]

/-- `sync` entered with block 500 dirty. -/
def raceOneDirty : Race :=
  ⟨.start, { oneDirty with log := { oneDirty.log with committing := true } }, content oneDirty⟩

theorem raceStart_oneDirty : RaceStart raceOneDirty := ⟨oneDirty, idle_oneDirty, rfl, rfl⟩

/-- The dirty block is changed once more before `logDirtyBuffer` looks at it. -/
theorem no_lost_update_early :
    ∃ r, Reachable RaceStart (Steps raceStep CarefulWriters) r ∧ r.phase = .done ∧
      content r.machine 500 = r.last 500 := by
  obtain ⟨r, hr, hp⟩ := exec_of_execTest raceStep raceOneDirty
    [.write 500 fun _ _ => 2, .sync, .sync, .sync, .sync, .sync]
    (fun r => r.phase = .done ∧ r.machine.log.start = 2 ∧ r.machine.log.size = 100)
    (by decide +kernel)
  simp only [decide_eq_true_eq] at hp
  obtain ⟨r₁, hr₁, hr⟩ : ∃ r₁, raceStep raceOneDirty (.write 500 fun _ _ => 2) = .ok r₁ ∧
      exec raceStep r₁ [.sync, .sync, .sync, .sync, .sync] = .ok r := by
    rw [exec] at hr
    exact bind_eq_ok.mp hr
  have hreach : Reachable RaceStart (Steps raceStep CarefulWriters) r := by
    have hG : CarefulWriters raceOneDirty (.write 500 fun _ _ => 2) :=
      ⟨.inr (by decide), fun h => h.elim⟩
    refine reachable_exec (.step (.start raceStart_oneDirty) ⟨_, hG, hr₁⟩) (fun r m hm => ?_) hr
    · simp only [List.mem_cons, List.not_mem_nil, or_false, or_self] at hm
      subst hm
      trivial
  refine ⟨r, hreach, hp.1, (no_lost_update hreach ?_).1⟩
  rw [Log.Outside, hp.2.1, hp.2.2]
  exact .inr (by decide)

/-- The block is changed after it was copied to the log: when `sync` has finished, the change is
    gone, and the block is not even dirty. -/
theorem exposed_update_lost :
    ∃ r, Reachable RaceStart (Steps raceStep Writers) r ∧ r.phase = .done ∧
      r.machine.log.Outside 500 ∧ content r.machine 500 ≠ r.last 500 ∧ ¬ Dirty r.machine 500 := by
  obtain ⟨r₁, hr₁, hp₁⟩ := exec_of_execTest raceStep raceOneDirty [.sync, .sync]
    (fun r => r.machine.log.start = 2 ∧ r.machine.log.size = 100) (by decide +kernel)
  obtain ⟨r, hr, hp⟩ := exec_of_execTest raceStep raceOneDirty
    ([.sync, .sync] ++ [.write 500 fun _ _ => 2, .sync, .sync, .sync])
    (fun r => r.phase = .done ∧ r.machine.log.start = 2 ∧ r.machine.log.size = 100 ∧
      (content r.machine 500).get 0 ≠ (r.last 500).get 0 ∧
      (lookup r.machine.bufs 500).all fun x => !x.dirty) (by decide +kernel)
  simp only [decide_eq_true_eq] at hp hp₁
  rw [exec_append, hr₁] at hr
  obtain ⟨r₂, hr₂, hr⟩ : ∃ r₂, raceStep r₁ (.write 500 fun _ _ => 2) = .ok r₂ ∧
      exec raceStep r₂ [.sync, .sync, .sync] = .ok r := by
    replace hr : exec raceStep r₁ [.write 500 fun _ _ => 2, .sync, .sync, .sync] = .ok r := hr
    rw [exec] at hr
    exact bind_eq_ok.mp hr
  have hsync : ∀ (es : List Move) (r : Race), (∀ m ∈ es, m = .sync) → ∀ m ∈ es, Writers r m := by
    intro es r hes m hm
    rw [hes m hm]
    trivial
  have hreach₁ : Reachable RaceStart (Steps raceStep Writers) r₁ :=
    reachable_exec (.start raceStart_oneDirty) (fun r => hsync _ r (by simp)) hr₁
  have hout : Writers r₁ (.write 500 fun _ _ => 2) := by
    rw [Writers, Log.Outside, hp₁.1, hp₁.2]
    exact .inr (by decide)
  refine ⟨r, reachable_exec (.step hreach₁ ⟨_, hout, hr₂⟩) (fun r => hsync _ r (by simp)) hr, hp.1,
    ?_, fun heq => hp.2.2.2.1 (by rw [heq]), ?_⟩
  · rw [Log.Outside, hp.2.1, hp.2.2.1]
    exact .inr (by decide)
  · rintro ⟨x, hx, hd⟩
    have := hp.2.2.2.2
    rw [hx] at this
    simp [hd] at this

/-! ### The steps make up `sync` -/

/-- Steps of `sync` only. -/
def Alone (_ : Race) : Move → Prop
  | .sync => True
  | .write _ _ => False

theorem RaceInv.alone (h : RaceInv r) (hr' : raceStep r .sync = .ok r') : RaceInv r' :=
  h.step (m := .sync) trivial hr'

/-- From `r` the steps of `sync` alone lead to `r'`. -/
def Leads (r r' : Race) : Prop := Relation.ReflTransGen (Steps raceStep Alone) r r'

theorem Leads.step {r r' r'' : Race} (h : Leads r r') (hs : raceStep r' .sync = .ok r'') :
    Leads r r'' := h.tail ⟨.sync, trivial, hs⟩

/-- The rounds of a loop of `sync`, one step each. -/
theorem leads_loop {phase : Nat → Phase} (body : Nat → M Unit) (h : RaceInv r)
    (hr : r.phase = phase 0)
    (hstep : ∀ i s s', i < s.log.lh.length → body i s = .ok () s' →
      syncStep (phase i) s = .ok (phase (i + 1)) s')
    (hlog : ∀ i s s', RaceInv { r with phase := phase i, machine := s } →
      i < s.log.lh.length → body i s = .ok () s' → s'.log = s.log) {n : Nat} {s : Machine}
    (hn : n ≤ r.machine.log.lh.length) (hrun : forUpTo n body r.machine = .ok () s) :
    Leads r { r with phase := phase n, machine := s } ∧
      RaceInv { r with phase := phase n, machine := s } ∧ s.log = r.machine.log := by
  induction n generalizing s with
  | zero =>
    cases hrun
    rw [← hr]
    exact ⟨.refl, h, rfl⟩
  | succ n ih =>
    obtain ⟨_, s₁, hs₁, hs⟩ := bind_eq_ok_state.mp hrun
    obtain ⟨hlead, hinv, hlog₁⟩ := ih (by omega) hs₁
    have hlt : n < s₁.log.lh.length := by rw [hlog₁]; omega
    have hrace : raceStep { r with phase := phase n, machine := s₁ } .sync =
        .ok { r with phase := phase (n + 1), machine := s } := by
      simp only [raceStep, hstep n s₁ s hlt hs]
    exact ⟨hlead.step hrace, hinv.alone hrace, (hlog n s₁ s hinv hlt hs).trans hlog₁⟩

theorem leads_writeLog (h : RaceInv r) (hr : r.phase = .writeLog 0) {s : Machine}
    (hrun : writeLog (syncDepth 1) r.machine = .ok () s) :
    Leads r { r with phase := .writeLog r.machine.log.lh.length, machine := s } ∧
      RaceInv { r with phase := .writeLog r.machine.log.lh.length, machine := s } ∧
      s.log = r.machine.log := by
  refine leads_loop (writeLogOne (syncDepth 1)) h hr (fun i s s' hi hs => ?_)
    (fun i s s' hinv hi hs => ?_) le_rfl hrun
  · show (if i < s.log.lh.length then _ else _ : M Phase) s = _
    rw [if_pos hi]
    exact bind_ok hs
  · obtain ⟨hcom, hlen, hout, _⟩ := hinv.phase
    have ha := (wp_of_ok hs).mp (wp_writeLogOne (passive_of_committing (nested_syncDepth 0) hcom)
      hinv.ok hinv.quiet (home_ne_log hlen hout hi))
    exact ha.log

theorem leads_install (h : RaceInv r) (hr : r.phase = .install 0) {s : Machine}
    (hrun : installTrans (syncDepth 1) r.machine = .ok () s) :
    Leads r { r with phase := .install r.machine.log.lh.length, machine := s } ∧
      RaceInv { r with phase := .install r.machine.log.lh.length, machine := s } ∧
      s.log = r.machine.log := by
  refine leads_loop (installOne (syncDepth 1)) h hr (fun i s s' hi hs => ?_)
    (fun i s s' hinv hi hs => ?_) le_rfl hrun
  · show (if i < s.log.lh.length then _ else _ : M Phase) s = _
    rw [if_pos hi]
    exact bind_ok hs
  · obtain ⟨hcom, hlen, hout, _⟩ := hinv.phase
    have ha := (wp_of_ok hs).mp (wp_installOne (passive_of_committing (nested_syncDepth 0) hcom)
      hinv.ok hinv.quiet (home_ne_log hlen hout hi))
    exact ha.log

/-- Without writers the steps make up `sync`. -/
theorem sync_steps {s s' : Machine} {n : Int} (h : Idle s) (hfull : s.isfull = false)
    (hs : sync s = .ok n s') :
    Leads ⟨.start, { s with log := { s.log with committing := true } }, content s⟩
      ⟨.done, s', content s⟩ := by
  have hrun : syncBody (syncDepth 1) { s with log := { s.log with committing := true } } =
      .ok n s' := by
    rw [← hs]
    show _ = (if s.log.committing = true then _ else _)
    rw [if_neg (by rw [h.committing]; simp)]
  have h₀ : RaceInv ⟨.start, { s with log := { s.log with committing := true } }, content s⟩ :=
    RaceInv.start ⟨s, h, hfull, rfl⟩
  generalize ({ s with log := { s.log with committing := true } } : Machine) = s₀ at hrun h₀ ⊢
  obtain ⟨temp, s₁, hs₁, hrun⟩ := bind_eq_ok_state.mp hrun
  by_cases hz : temp = 0
  · rw [if_pos hz] at hrun
    obtain ⟨_, s₂, hs₂, hrun⟩ := bind_eq_ok_state.mp hrun
    cases hrun
    refine Leads.step .refl ?_
    have hstep : syncStep .start s₀ = .ok .done s' := by
      refine (bind_ok hs₁).trans ?_
      rw [if_pos hz]
      exact bind_ok hs₂
    simp only [raceStep, hstep]
  · rw [if_neg hz] at hrun
    have hstep₁ : raceStep ⟨.start, s₀, content s⟩ .sync = .ok ⟨.writeLog 0, s₁, content s⟩ := by
      have hstep : syncStep .start s₀ = .ok (.writeLog 0) s₁ := by
        refine (bind_ok hs₁).trans ?_
        rw [if_neg hz]
        rfl
      simp only [raceStep, hstep]
    obtain ⟨_, s₂, hs₂, hrun⟩ := bind_eq_ok_state.mp hrun
    obtain ⟨hlead₂, h₂, hlog₂⟩ := leads_writeLog (h₀.alone hstep₁) rfl hs₂
    obtain ⟨_, s₃, hs₃, hrun⟩ := bind_eq_ok_state.mp hrun
    have hstep₃ : raceStep ⟨.writeLog s₁.log.lh.length, s₂, content s⟩ .sync =
        .ok ⟨.install 0, s₃, content s⟩ := by
      have hstep : syncStep (.writeLog s₁.log.lh.length) s₂ = .ok (.install 0) s₃ := by
        show (if s₁.log.lh.length < s₂.log.lh.length then _ else _ : M Phase) s₂ = _
        rw [hlog₂, if_neg (Nat.lt_irrefl _)]
        exact bind_ok hs₃
      simp only [raceStep, hstep]
    obtain ⟨_, s₄, hs₄, hrun⟩ := bind_eq_ok_state.mp hrun
    obtain ⟨hlead₄, _, hlog₄⟩ := leads_install (h₂.alone hstep₃) rfl hs₄
    have hstep₅ : raceStep ⟨.install s₃.log.lh.length, s₄, content s⟩ .sync =
        .ok ⟨.done, s', content s⟩ := by
      have hstep : syncStep (.install s₃.log.lh.length) s₄ = .ok .done s' := by
        show (if s₃.log.lh.length < s₄.log.lh.length then _ else _ : M Phase) s₄ = _
        rw [hlog₄, if_neg (Nat.lt_irrefl _)]
        obtain ⟨_, s₅, hs₅, hrun⟩ := bind_eq_ok_state.mp hrun
        obtain ⟨_, s₆, hs₆, hrun⟩ := bind_eq_ok_state.mp hrun
        obtain ⟨_, s₇, hs₇, hrun⟩ := bind_eq_ok_state.mp hrun
        cases hrun
        exact (bind_ok hs₅).trans ((bind_ok hs₆).trans (bind_ok hs₇))
      simp only [raceStep, hstep]
    have hlead₃ := Leads.step ((Leads.step .refl hstep₁).trans hlead₂) hstep₃
    exact Leads.step (hlead₃.trans hlead₄) hstep₅

end Xv6.Fs
