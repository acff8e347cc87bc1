import Xv6.Fs.Sync
import Xv6.Lib.Agree

namespace Xv6.Fs

open Xv6.Lib

/-!
# Cache and log — the recursion of `bget` and `sync`

`bget` calls `sync`, which reads its blocks through `bget` again.  The recursion is followed here
from any cache that holds no block twice, whatever the flags are and whether or not its buffers
agree with the disk.

* `syncOnce` — `sync` in which a nested call that goes past the test of `log.committing` counts
  as an error (`syncRefused`);
* `syncDepth_eq`, `bget_eq` — no call nested in a `sync` goes past that test, so that two levels
  describe the recursion completely;
* `Moves` — what a part of `sync` changes: the flags and the log are as before, and only the locks
  of the buffers it took have changed;
* `bget_sync_ends` — the outermost call ends, and both flags have their old values.
-/

/-- A nested call of `sync` that must not go past the test of `log.committing`. -/
def syncRefused : M Int := fun s => if s.log.committing then .ok (-1) s else .error .depth s

/-- `sync()`, whose nested calls must not go past the test of `log.committing`. -/
def syncOnce : M Int := fun s =>
  if s.log.committing then .ok (-1) s
  else syncBody syncRefused { s with log := { s.log with committing := true } }

theorem nested_syncRefused : Nested syncRefused := by
  intro s hs
  rw [syncRefused, if_pos hs]

/-! ### Nested calls -/

section Agreement

variable {m m' : M Int}

/-- `log.committing` is set. -/
def Committing (s : Machine) : Prop := s.log.committing = true

/-- An operation that leaves the log alone. -/
theorem agree_of_log {α : Type} {x : M α}
    (h : ∀ s, wp x (fun _ s' => s'.log = s.log) (fun _ _ => True) s) : AgreeOn Committing x x := by
  refine AgreeOn.of_wp fun s hs => wp_mono (h s) (fun _ s' hs' => ?_) fun _ _ he => he
  show s'.log.committing = true
  rw [hs']
  exact hs

theorem getBuf_log (s : Machine) (b : Nat) :
    wp (getBuf b) (fun _ s' => s'.log = s.log) (fun _ _ => True) s := by
  unfold wp getBuf
  split
  · rename_i h
    split at h
    · split at h
      · cases h
      · cases h; rfl
    · split at h
      · cases h
      · cases h; rfl
  · trivial

theorem iderw_log (s : Machine) (b : Nat) :
    wp (iderw b) (fun _ s' => s'.log = s.log) (fun _ _ => True) s := by
  unfold wp iderw
  split
  · rename_i h
    split at h
    · cases h
    · repeat' split at h
      all_goals first | cases h; done | (cases h; rfl)
  · trivial

theorem readBuf_log (s : Machine) (b : Nat) :
    wp (readBuf b) (fun _ s' => s'.log = s.log) (fun _ _ => True) s := by
  cases hl : lookup s.bufs b with
  | none =>
    have h : readBuf b s = .ok () s := by simp only [readBuf, hl]
    rw [wp_of_ok h]
  | some x =>
    by_cases hx : x.valid = true
    · have h : readBuf b s = .ok () s := by simp only [readBuf, hl, hx, if_true]
      rw [wp_of_ok h]
    · have h : readBuf b s = iderw b s := by simp only [readBuf, hl, hx, Bool.false_eq_true, if_false]
      rw [wp, h]
      exact iderw_log s b

theorem bwrite_log (s : Machine) (b : Nat) :
    wp (bwrite b) (fun _ s' => s'.log = s.log) (fun _ _ => True) s := by
  by_cases hb : holding s b = true
  · have h : bwrite b s =
        iderw b { s with bufs := setBuf s.bufs b fun x => { x with dirty := true } } := by
      rw [bwrite, if_pos hb]
      rfl
    rw [wp, h]
    exact iderw_log _ b
  · have h : bwrite b s = .error (.panic "bwrite") s := by rw [bwrite, if_neg hb]
    rw [wp_of_error h]
    trivial

theorem brelse_log (s : Machine) (b : Nat) :
    wp (brelse b) (fun _ s' => s'.log = s.log) (fun _ _ => True) s := by
  unfold wp brelse
  split
  · rename_i h
    split at h
    · cases h
    · split at h
      · cases h; rfl
      · cases h
  · trivial

theorem agree_breadBuf (b : Nat) : AgreeOn Committing (breadBuf b) (breadBuf b) :=
  (agree_of_log fun s => getBuf_log s b).bind fun _ =>
    (agree_of_log fun s => readBuf_log s b).bind fun _ => agree_of_log fun _ => rfl

/-- While `log.committing` is set, it does not matter which `sync` the calls of `bget` call. -/
theorem agree_bread (hm : Nested m) (hm' : Nested m') (b : Nat) :
    AgreeOn Committing (bread m b) (bread m' b) := by
  intro s hs
  have h : bread m b s = breadBuf b s := bind_ok (autoSync_nested hm hs)
  have h' : bread m' b s = breadBuf b s := bind_ok (autoSync_nested hm' hs)
  rw [h, h']
  exact agree_breadBuf b s hs

theorem agree_setData (b : Nat) (d : Block) : AgreeOn Committing (setData b d) (setData b d) :=
  agree_of_log fun _ => rfl

theorem agree_bwrite (b : Nat) : AgreeOn Committing (bwrite b) (bwrite b) :=
  agree_of_log fun s => bwrite_log s b

theorem agree_brelse (b : Nat) : AgreeOn Committing (brelse b) (brelse b) :=
  agree_of_log fun s => brelse_log s b

theorem agree_get : AgreeOn Committing (get : M Machine) get := agree_of_log fun _ => rfl

theorem agree_writeLog (hm : Nested m) (hm' : Nested m') :
    AgreeOn Committing (writeLog m) (writeLog m') :=
  agree_get.bind fun _ => AgreeOn.forUpTo fun _ => agree_get.bind fun _ =>
    (agree_bread hm hm' _).bind fun _ => (agree_bread hm hm' _).bind fun d =>
      (agree_setData _ d).bind fun _ => (agree_bwrite _).bind fun _ =>
        (agree_brelse _).bind fun _ => agree_brelse _

theorem agree_installTrans (hm : Nested m) (hm' : Nested m') :
    AgreeOn Committing (installTrans m) (installTrans m') :=
  agree_get.bind fun _ => AgreeOn.forUpTo fun _ => agree_get.bind fun _ =>
    (agree_bread hm hm' _).bind fun d => (agree_bread hm hm' _).bind fun _ =>
      (agree_setData _ d).bind fun _ => (agree_bwrite _).bind fun _ =>
        (agree_brelse _).bind fun _ => agree_brelse _

theorem agree_writeHead (hm : Nested m) (hm' : Nested m') :
    AgreeOn Committing (writeHead m) (writeHead m') :=
  agree_get.bind fun _ => (agree_bread hm hm' _).bind fun _ =>
    (agree_setData _ _).bind fun _ => (agree_bwrite _).bind fun _ => agree_brelse _

theorem agree_clearLog : AgreeOn Committing clearLog clearLog := AgreeOn.of_wp fun _ hs => hs

theorem agree_logAll (bs : List Nat) : AgreeOn Committing (logAll bs) (logAll bs) := by
  induction bs with
  | nil => exact agree_of_log fun _ => rfl
  | cons b bs ih =>
    refine AgreeOn.bind (AgreeOn.of_wp fun s hs => ?_) fun _ => ih
    unfold wp logWrite
    split
    · rename_i h
      split at h
      · cases h
      · cases h; exact hs
    · trivial

theorem agree_logDirtyBuffer : AgreeOn Committing logDirtyBuffer logDirtyBuffer :=
  agree_get.bind fun _ => (agree_logAll _).bind fun _ => agree_of_log fun _ => rfl

/-- `sync` does the same whatever its nested calls would do past the test of `log.committing`. -/
theorem syncBody_eq (hm : Nested m) (hm' : Nested m') {s : Machine} (hs : Committing s) :
    syncBody m s = syncBody m' s := by
  refine agree_logDirtyBuffer.bind_eq (fun n s hs => ?_) hs
  by_cases hn : n = 0
  · rw [if_pos hn, if_pos hn]
  · rw [if_neg hn, if_neg hn]
    refine (agree_writeLog hm hm').bind_eq (fun _ s hs => ?_) hs
    refine (agree_writeHead hm hm').bind_eq (fun _ s hs => ?_) hs
    refine (agree_installTrans hm hm').bind_eq (fun _ s hs => ?_) hs
    refine agree_clearLog.bind_eq (fun n s hs => ?_) hs
    exact (agree_writeHead hm hm').bind_eq (fun _ _ _ => rfl) hs

end Agreement

/-- No call of `sync` that is nested in a `sync` goes past the test of `log.committing`: with any
    depth of two or more the result is that of `syncOnce`. -/
theorem syncDepth_eq (d : Nat) : syncDepth (d + 2) = syncOnce := by
  funext s
  have h : syncDepth (d + 2) s = if s.log.committing then .ok (-1) s
      else syncBody (syncDepth (d + 1)) { s with log := { s.log with committing := true } } := rfl
  rw [h, syncOnce]
  by_cases hs : s.log.committing = true
  · rw [if_pos hs, if_pos hs]
  · rw [if_neg hs, if_neg hs]
    exact syncBody_eq (nested_syncDepth d) nested_syncRefused (rfl : _ = true)

/-! ### The locks of the buffers -/

/-- No block is cached twice. -/
def Distinct (s : Machine) : Prop := (s.bufs.filterMap fun x => x.blockno).Nodup

/-- `s'` comes after `s`, with the held blocks `H`; the log and the flags are the same. -/
structure Moves (s s' : Machine) (H : Nat → Prop) : Prop where
  distinct : Distinct s'
  held : ∀ b, Held s' b ↔ H b
  log : s'.log = s.log
  isfull : s'.isfull = s.isfull

/-- The program stopped in a `panic`. -/
def Panicked (e : Stop) (_ : Machine) : Prop := ∃ msg, e = .panic msg

variable {s s' s'' : Machine} {m : M Int} {b : Nat} {H H' : Nat → Prop}

theorem Moves.trans (h : Moves s s' H) (h' : Moves s' s'' H') : Moves s s'' H' :=
  ⟨h'.distinct, h'.held, h'.log.trans h.log, h'.isfull.trans h.isfull⟩

theorem Moves.congr (h : Moves s s' H) (hH : ∀ b, H b ↔ H' b) : Moves s s' H' :=
  ⟨h.distinct, fun b => (h.held b).trans (hH b), h.log, h.isfull⟩

/-- An update of a buffer that keeps its number and its lock. -/
theorem moves_setBuf (h : Distinct s) {f : Buf → Buf} (hf : ∀ x, (f x).blockno = x.blockno)
    (hh : ∀ x, (f x).held = x.held) {disk : Nat → Block} {writes : List (Nat × Block)} :
    Moves s { s with bufs := setBuf s.bufs b f, disk := disk, writes := writes } (Held s) := by
  refine ⟨?_, fun b' => ?_, rfl, rfl⟩
  · unfold Distinct
    rw [filterMap_setBuf hf]
    exact h
  · unfold Held
    rw [lookup_setBuf hf]
    by_cases hb : b' = b
    · subst hb
      rw [if_pos rfl]
      cases lookup s.bufs b' with
      | none => simp
      | some x => simp [hh]
    · rw [if_neg hb]

theorem wp_getBuf_moves (h : Distinct s) (hb : ¬ Held s b) :
    wp (getBuf b) (fun _ s' => Moves s s' fun b' => Held s b' ∨ b' = b) Panicked s := by
  cases hl : lookup s.bufs b with
  | some x =>
    have hx : ¬ x.held = true := fun hx => hb ⟨x, hl, hx⟩
    have hget : getBuf b s =
        .ok () { s with bufs := setBuf s.bufs b fun x => { x with held := true } } := by
      simp only [getBuf, hl, hx, if_false, Bool.false_eq_true]
    rw [wp_of_ok hget]
    have hf : ∀ x : Buf, ({ x with held := true } : Buf).blockno = x.blockno := fun _ => rfl
    refine ⟨?_, fun b' => ?_, rfl, rfl⟩
    · unfold Distinct
      rw [filterMap_setBuf hf]
      exact h
    · unfold Held
      rw [lookup_setBuf hf]
      by_cases hbb : b' = b
      · rw [if_pos hbb, hl]
        simp [hbb]
      · rw [if_neg hbb]
        simp [hbb]
  | none =>
    cases hr : recycle b s.bufs with
    | none =>
      have hget : getBuf b s = .error (.panic "bget: no buffers") s := by
        simp only [getBuf, hl, hr]
      rw [wp_of_error hget]
      exact ⟨_, rfl⟩
    | some bufs =>
      have hget : getBuf b s = .ok () { s with bufs := bufs } := by simp only [getBuf, hl, hr]
      obtain ⟨us, x, x', vs, hbufs, rfl, hx, hxb, -, -, hxh⟩ := recycle_some hr
      unfold Distinct at h
      rw [hbufs] at h hl
      obtain ⟨hself, hother⟩ := lookup_recycle h hl hxb
      rw [wp_of_ok hget]
      refine ⟨nodup_recycle h hl hxb, fun b' => ?_, rfl, rfl⟩
      show (∃ y, lookup (us ++ x' :: vs) b' = some y ∧ y.held = true) ↔ _
      by_cases hbb : b' = b
      · subst hbb
        simp [hself, hxh]
      · -- the buffer that was recycled was not held
        rcases hother b' hbb with hsame | ⟨hgone, hold⟩
        · simp [Held, hbufs, hsame, hbb]
        · simp [Held, hbufs, hgone, hold, hx.1, hbb]

theorem wp_iderw_moves (h : Distinct s) :
    wp (iderw b) (fun _ s' => Moves s s' (Held s)) Panicked s := by
  unfold wp iderw
  split
  · rename_i hrun
    split at hrun
    · cases hrun
    · split at hrun
      · cases hrun
      · split at hrun
        · cases hrun
        · split at hrun
          · cases hrun
          · split at hrun
            · cases hrun
              exact moves_setBuf h (fun _ => by rfl) fun _ => by rfl
            · cases hrun
              exact moves_setBuf h (fun _ => by rfl) fun _ => by rfl
  · rename_i hrun
    split at hrun
    · cases hrun; exact ⟨_, rfl⟩
    · repeat' split at hrun
      all_goals first | cases hrun; done | (cases hrun; exact ⟨_, rfl⟩)

theorem moves_refl (h : Distinct s) : Moves s s (Held s) := ⟨h, fun _ => Iff.rfl, rfl, rfl⟩

theorem wp_readBuf_moves (h : Distinct s) :
    wp (readBuf b) (fun _ s' => Moves s s' (Held s)) Panicked s := by
  cases hl : lookup s.bufs b with
  | none =>
    have hrun : readBuf b s = .ok () s := by simp only [readBuf, hl]
    rw [wp_of_ok hrun]
    exact moves_refl h
  | some x =>
    by_cases hx : x.valid = true
    · have hrun : readBuf b s = .ok () s := by simp only [readBuf, hl, hx, if_true]
      rw [wp_of_ok hrun]
      exact moves_refl h
    · have hrun : readBuf b s = iderw b s := by
        simp only [readBuf, hl, hx, Bool.false_eq_true, if_false]
      rw [wp, hrun]
      exact wp_iderw_moves h

/-- Reading a block whose buffer is not held. -/
theorem wp_breadBuf_moves (h : Distinct s) (hb : ¬ Held s b) :
    wp (breadBuf b) (fun _ s' => Moves s s' fun b' => Held s b' ∨ b' = b) Panicked s := by
  rw [breadBuf, wp_bind]
  refine wp_mono (wp_getBuf_moves h hb) (fun _ s₁ h₁ => ?_) fun _ _ he => he
  rw [wp_bind]
  refine wp_mono (wp_readBuf_moves h₁.distinct) (fun _ s₂ h₂ => ?_) fun _ _ he => he
  exact (h₁.trans h₂).congr h₁.held

theorem wp_setData_moves (h : Distinct s) (d : Block) :
    wp (setData b d) (fun _ s' => Moves s s' (Held s)) Panicked s :=
  moves_setBuf h (fun _ => by rfl) fun _ => by rfl

theorem wp_bwrite_moves (h : Distinct s) :
    wp (bwrite b) (fun _ s' => Moves s s' (Held s)) Panicked s := by
  by_cases hb : holding s b = true
  · have h₁ : Moves s { s with bufs := setBuf s.bufs b fun x => { x with dirty := true } } (Held s) :=
      moves_setBuf h (fun _ => by rfl) fun _ => by rfl
    have hrun : bwrite b s =
        iderw b { s with bufs := setBuf s.bufs b fun x => { x with dirty := true } } := by
      rw [bwrite, if_pos hb]
      rfl
    rw [wp, hrun]
    exact wp_mono (wp_iderw_moves h₁.distinct) (fun _ _ h₂ => (h₁.trans h₂).congr h₁.held)
      fun _ _ he => he
  · have hrun : bwrite b s = .error (.panic "bwrite") s := by rw [bwrite, if_neg hb]
    rw [wp_of_error hrun]
    exact ⟨_, rfl⟩

theorem wp_brelse_moves (h : Distinct s) :
    wp (brelse b) (fun _ s' => Moves s s' fun b' => Held s b' ∧ b' ≠ b) Panicked s := by
  cases hl : lookup s.bufs b with
  | none =>
    have hrun : brelse b s = .error (.panic "brelse") s := by simp only [brelse, hl]
    rw [wp_of_error hrun]
    exact ⟨_, rfl⟩
  | some x =>
    by_cases hx : x.held = true
    · have hrun : brelse b s = .ok () { s with
          bufs := { x with held := false } :: s.bufs.filter fun y => y.blockno ≠ some b } := by
        simp only [brelse, hl, hx, if_true]
      have hxb := lookup_blockno hl
      have hcons : ({ x with held := false } : Buf).blockno = some b := hxb
      rw [wp_of_ok hrun]
      refine ⟨nodup_release h hcons, fun b' => ?_, rfl, rfl⟩
      unfold Held
      rw [lookup_release hcons]
      by_cases hbb : b' = b
      · simp [hbb]
      · simp [hbb]
    · have hrun : brelse b s = .error (.panic "brelse") s := by
        simp only [brelse, hl, hx, Bool.false_eq_true, if_false]
      rw [wp_of_error hrun]
      exact ⟨_, rfl⟩

/-! ### A commit -/

theorem Moves.quiet (h : Moves s s' fun _ => False) : Quiet s' := fun b => (h.held b).mp

theorem wp_bread_moves (hm : Nested m) (hs : Committing s) (h : Distinct s) (hb : ¬ Held s b) :
    wp (bread m b) (fun _ s' => Moves s s' fun b' => Held s b' ∨ b' = b) Panicked s := by
  have hread : bread m b s = breadBuf b s := bind_ok (autoSync_nested hm hs)
  rw [wp, hread]
  exact wp_breadBuf_moves h hb

/-- A change of the buffer of block `t` is written, and the two buffers that are held are
    released. -/
theorem wp_writeRelease (h : Distinct s) {t x y : Nat} {d : Block}
    (hheld : ∀ b, Held s b → b = x ∨ b = y) :
    wp (do setData t d; bwrite t; brelse x; brelse y : M Unit)
      (fun _ s' => Moves s s' fun _ => False) Panicked s := by
  rw [wp_bind]
  refine wp_mono (wp_setData_moves h d) (fun _ s₁ h₁ => ?_) fun _ _ he => he
  rw [wp_bind]
  refine wp_mono (wp_bwrite_moves h₁.distinct) (fun _ s₂ h₂ => ?_) fun _ _ he => he
  rw [wp_bind]
  refine wp_mono (wp_brelse_moves h₂.distinct) (fun _ s₃ h₃ => ?_) fun _ _ he => he
  refine wp_mono (wp_brelse_moves h₃.distinct) (fun _ s₄ h₄ => ?_) fun _ _ he => he
  refine (((h₁.trans h₂).trans h₃).trans h₄).congr fun b => ⟨?_, False.elim⟩
  rintro ⟨hb, hby⟩
  obtain ⟨hb, hbx⟩ := (h₃.held b).mp hb
  rcases hheld b ((h₁.held b).mp ((h₂.held b).mp hb)) with rfl | rfl
  · exact hbx rfl
  · exact hby rfl

/-- Two different buffers are read when none is held. -/
theorem wp_breadTwo {α : Type} (hm : Nested m) (hs : Committing s) (h : Distinct s) (hq : Quiet s)
    {x y : Nat} (hxy : y ≠ x) {k : Block → Block → M α} {Q : α → Machine → Prop}
    (hk : ∀ d e s', Moves s s' (fun b => b = x ∨ b = y) → wp (k d e) Q Panicked s') :
    wp (do let d ← bread m x; let e ← bread m y; k d e : M α) Q Panicked s := by
  rw [wp_bind]
  refine wp_mono (wp_bread_moves hm hs h (hq x)) (fun d s₁ h₁ => ?_) fun _ _ he => he
  have hs₁ : Committing s₁ := by unfold Committing; rw [h₁.log]; exact hs
  have hy : ¬ Held s₁ y := by
    rw [h₁.held, not_or]
    exact ⟨hq y, hxy⟩
  rw [wp_bind]
  refine wp_mono (wp_bread_moves hm hs₁ h₁.distinct hy) (fun e s₂ h₂ => ?_) fun _ _ he => he
  refine hk d e s₂ ((h₁.trans h₂).congr fun b => ?_)
  rw [h₁.held, or_iff_right (hq b)]

/-- No logged block is the block of the log to which it is copied. -/
def Apart (start : Nat) (lh : List Nat) : Prop := ∀ i < lh.length, lh.getD i 0 ≠ start + i + 1

theorem wp_writeLog_moves (hm : Nested m) (hs : Committing s) (h : Distinct s) (hq : Quiet s)
    (ha : Apart s.log.start s.log.lh) :
    wp (writeLog m) (fun _ s' => Moves s s' fun _ => False) Panicked s := by
  rw [writeLog, wp_bind, wp_get]
  refine wp_forUpTo (I := fun _ s' => Moves s s' fun _ => False)
    ((moves_refl h).congr fun b => iff_false_intro (hq b)) fun i s₁ hi h₁ => ?_
  rw [writeLogOne, wp_bind, wp_get, h₁.log]
  have hs₁ : Committing s₁ := by unfold Committing; rw [h₁.log]; exact hs
  refine wp_breadTwo hm hs₁ h₁.distinct h₁.quiet (ha i hi) fun _ d s₂ h₂ => ?_
  refine wp_mono (wp_writeRelease h₂.distinct fun b hb => ((h₂.held b).mp hb).symm)
    (fun _ s₃ h₃ => (h₁.trans h₂).trans h₃) fun _ _ he => he

theorem wp_installTrans_moves (hm : Nested m) (hs : Committing s) (h : Distinct s) (hq : Quiet s)
    (ha : Apart s.log.start s.log.lh) :
    wp (installTrans m) (fun _ s' => Moves s s' fun _ => False) Panicked s := by
  rw [installTrans, wp_bind, wp_get]
  refine wp_forUpTo (I := fun _ s' => Moves s s' fun _ => False)
    ((moves_refl h).congr fun b => iff_false_intro (hq b)) fun i s₁ hi h₁ => ?_
  rw [installOne, wp_bind, wp_get, h₁.log]
  have hs₁ : Committing s₁ := by unfold Committing; rw [h₁.log]; exact hs
  refine wp_breadTwo hm hs₁ h₁.distinct h₁.quiet (ha i hi) fun d _ s₂ h₂ => ?_
  refine wp_mono (wp_writeRelease h₂.distinct fun b hb => (h₂.held b).mp hb)
    (fun _ s₃ h₃ => (h₁.trans h₂).trans h₃) fun _ _ he => he

theorem wp_writeHead_moves (hm : Nested m) (hs : Committing s) (h : Distinct s) (hq : Quiet s) :
    wp (writeHead m) (fun _ s' => Moves s s' fun _ => False) Panicked s := by
  rw [writeHead, wp_bind, wp_get, wp_bind]
  refine wp_mono (wp_bread_moves hm hs h (hq _)) (fun d s₁ h₁ => ?_) fun _ _ he => he
  rw [wp_bind]
  refine wp_mono (wp_setData_moves h₁.distinct _) (fun _ s₂ h₂ => ?_) fun _ _ he => he
  rw [wp_bind]
  refine wp_mono (wp_bwrite_moves h₂.distinct) (fun _ s₃ h₃ => ?_) fun _ _ he => he
  refine wp_mono (wp_brelse_moves h₃.distinct) (fun _ s₄ h₄ => ?_) fun _ _ he => he
  refine (((h₁.trans h₂).trans h₃).trans h₄).congr fun b => ⟨?_, False.elim⟩
  rintro ⟨hb, hbs⟩
  rcases (h₁.held b).mp ((h₂.held b).mp ((h₃.held b).mp hb)) with hb | rfl
  · exact hq b hb
  · exact hbs rfl

/-- After `s` both flags have their old values, and no buffer is held. -/
structure Restored (s s' : Machine) : Prop where
  distinct : Distinct s'
  quiet : Quiet s'
  isfull : s'.isfull = s.isfull
  committing : s'.log.committing = s.log.committing

theorem wp_commit_moves (hm : Nested m) (hs : Committing s) (h : Distinct s) (hq : Quiet s)
    (ha : Apart s.log.start s.log.lh) :
    wp (commit m) (fun _ s' => Distinct s' ∧ Quiet s' ∧ s'.isfull = s.isfull ∧
      s'.log.committing = false) Panicked s := by
  have hcom : ∀ {s'}, s'.log = s.log → Committing s' := fun hlog => by
    unfold Committing
    rw [hlog]
    exact hs
  rw [commit, wp_bind]
  refine wp_mono (wp_writeLog_moves hm hs h hq ha) (fun _ s₁ h₁ => ?_) fun _ _ he => he
  rw [wp_bind]
  refine wp_mono (wp_writeHead_moves hm (hcom h₁.log) h₁.distinct h₁.quiet) (fun _ s₂ h₂ => ?_)
    fun _ _ he => he
  have h₂ := h₁.trans h₂
  rw [wp_bind]
  refine wp_mono (wp_installTrans_moves hm (hcom h₂.log) h₂.distinct h₂.quiet
    (by rw [h₂.log]; exact ha)) (fun _ s₃ h₃ => ?_) fun _ _ he => he
  have h₃ := h₂.trans h₃
  rw [wp_bind, clearLog, wp_bind, wp_get, wp_bind, wp_set, wp_pure, wp_bind]
  have hs₃ : Committing s₃ := hcom h₃.log
  have hs₄ : Committing { s₃ with log := { s₃.log with lh := [] } } := hs₃
  refine wp_mono (wp_writeHead_moves hm hs₄ h₃.distinct h₃.quiet) (fun _ s₅ h₅ => ?_)
    fun _ _ he => he
  rw [setCommitting, wp_bind, wp_modify, wp_pure]
  exact ⟨h₅.distinct, h₅.quiet, h₅.isfull.trans h₃.isfull, rfl⟩

/-! ### The whole recursion -/

/-- The log header with block `b`, as `log_write` records it. -/
def record (lh : List Nat) (b : Nat) : List Nat := if b ∈ lh then lh else lh ++ [b]

/-- The log header with all dirty blocks. -/
def recorded (s : Machine) : List Nat := (dirtyBlocks s.bufs).foldl record s.log.lh

theorem wp_logAll_moves (h : Distinct s) (bs : List Nat) :
    wp (logAll bs) (fun _ s' =>
      Moves { s with log := { s.log with lh := bs.foldl record s.log.lh } } s' (Held s))
      Panicked s := by
  induction bs generalizing s with
  | nil => exact ⟨h, fun _ => Iff.rfl, rfl, rfl⟩
  | cons b bs ih =>
    rw [logAll, wp_bind]
    by_cases hfull : LOGSIZE ≤ s.log.lh.length ∨ s.log.size ≤ s.log.lh.length + 1
    · have hrun : logWrite b s = .error (.panic "too big a transaction") s := by
        rw [logWrite, if_pos hfull]
      rw [wp_of_error hrun]
      exact ⟨_, rfl⟩
    · have hrun : logWrite b s = .ok () { s with
          log := { s.log with lh := record s.log.lh b }
          bufs := setBuf s.bufs b fun x => { x with dirty := true } } := by
        rw [logWrite, if_neg hfull]
        rfl
      rw [wp_of_ok hrun]
      have h₁ : Moves s { s with bufs := setBuf s.bufs b fun x => { x with dirty := true } } (Held s) :=
        moves_setBuf h (fun _ => by rfl) fun _ => by rfl
      refine wp_mono (ih h₁.distinct) (fun _ s' h' => ?_) fun _ _ he => he
      exact ⟨h'.distinct, fun b => (h'.held b).trans (h₁.held b), h'.log, h'.isfull⟩

theorem wp_syncBody_moves (hm : Nested m) (hs : Committing s) (h : Distinct s) (hq : Quiet s)
    (ha : Apart s.log.start (recorded s)) :
    wp (syncBody m) (fun _ s' => Distinct s' ∧ Quiet s' ∧ s'.isfull = s.isfull ∧
      s'.log.committing = false) Panicked s := by
  rw [syncBody, wp_bind, logDirtyBuffer, wp_bind, wp_get, wp_bind]
  refine wp_mono (wp_logAll_moves h _) (fun _ s₁ h₁ => ?_) fun _ _ he => he
  have hq₁ : Quiet s₁ := fun b hb => hq b ((h₁.held b).mp hb)
  rw [wp_pure]
  refine wp_ite (fun _ => ?_) fun _ => ?_
  · rw [setCommitting, wp_bind, wp_modify, wp_pure]
    exact ⟨h₁.distinct, hq₁, h₁.isfull, rfl⟩
  · have hs₁ : Committing s₁ := by unfold Committing; rw [h₁.log]; exact hs
    refine wp_mono (wp_commit_moves hm hs₁ h₁.distinct hq₁ (by rw [h₁.log]; exact ha))
      (fun _ s₂ h₂ => ?_) fun _ _ he => he
    exact ⟨h₂.1, h₂.2.1, h₂.2.2.1.trans h₁.isfull, h₂.2.2.2⟩

theorem wp_syncOnce (h : Distinct s) (hq : Quiet s) (ha : Apart s.log.start (recorded s)) :
    wp syncOnce (fun _ s' => Restored s s') Panicked s := by
  by_cases hs : s.log.committing = true
  · have hrun : syncOnce s = .ok (-1) s := by rw [syncOnce, if_pos hs]
    rw [wp_of_ok hrun]
    exact ⟨h, hq, rfl, rfl⟩
  · have hrun : syncOnce s =
        syncBody syncRefused { s with log := { s.log with committing := true } } := by
      rw [syncOnce, if_neg hs]
    rw [wp, hrun]
    refine wp_mono (wp_syncBody_moves nested_syncRefused (s := { s with log := { s.log with committing := true } })
      rfl h hq ha) (fun _ s' h' => ?_) fun _ _ he => he
    exact ⟨h'.1, h'.2.1, h'.2.2.1, by rw [h'.2.2.2]; simpa using hs⟩

theorem wp_autoSync_moves (h : Distinct s) (hq : Quiet s) (ha : Apart s.log.start (recorded s)) :
    wp (autoSync syncOnce) (fun _ s' => Restored s s') Panicked s := by
  by_cases hfull : s.isfull = false ∧ bufferIsFull s = true
  · have hrun : autoSync syncOnce s = (do
        modify fun s => { s with isfull := true }
        let _ ← syncOnce
        modify fun s => { s with isfull := false } : M Unit) s := by
      rw [autoSync, if_pos hfull]
    rw [wp, hrun]
    refine wp_bind.mpr (wp_bind.mpr ?_)
    refine wp_mono (wp_syncOnce (s := { s with isfull := true }) h hq ha) (fun _ s' h' => ?_)
      fun _ _ he => he
    exact ⟨h'.distinct, h'.quiet, hfull.1.symm, h'.committing⟩
  · have hrun : autoSync syncOnce s = .ok () s := by rw [autoSync, if_neg hfull]
    rw [wp_of_ok hrun]
    exact ⟨h, hq, rfl, rfl⟩

/-- The call ends, normally or in a `panic`, and when it returns the flags have their old values. -/
def Ends {α : Type} (x : M α) (s : Machine) : Prop :=
  wp x (fun _ s' => s'.isfull = s.isfull ∧ s'.log.committing = s.log.committing) Panicked s

theorem bget_eq (d b : Nat) : bget (syncDepth (d + 2)) b = bget syncOnce b ∧
    bread (syncDepth (d + 2)) b = bread syncOnce b := by
  rw [syncDepth_eq]
  exact ⟨rfl, rfl⟩

/-- Entered from `bget`, from `bread` or from `sync` (`syncDepth 2`), with no buffer held and no dirty block that is
    itself the place of its copy, the recursion ends and restores both flags; only the outermost
    call of `sync` goes past the test of `log.committing`, and the others return -1 without any
    effect. -/
theorem bget_sync_ends (s : Machine) (b : Nat) (h : Distinct s) (hq : Quiet s)
    (ha : Apart s.log.start (recorded s)) :
    (Ends (bget syncOnce b) s ∧ Ends (bread syncOnce b) s ∧ Ends syncOnce s) ∧
    (∀ d, bget (syncDepth (d + 2)) b = bget syncOnce b ∧
      bread (syncDepth (d + 2)) b = bread syncOnce b ∧ syncDepth (d + 2) = syncOnce) ∧
    ∀ t, t.log.committing = true → syncRefused t = .ok (-1) t ∧ syncOnce t = .ok (-1) t := by
  refine ⟨⟨?_, ?_, ?_⟩, fun d => ?_, fun t ht => ?_⟩
  · unfold Ends
    rw [bget, wp_bind]
    refine wp_mono (wp_autoSync_moves h hq ha) (fun _ s₁ h₁ => ?_) fun _ _ he => he
    refine wp_mono (wp_getBuf_moves h₁.distinct (h₁.quiet b)) (fun _ s₂ h₂ => ?_) fun _ _ he => he
    exact ⟨h₂.isfull.trans h₁.isfull, by rw [h₂.log]; exact h₁.committing⟩
  · unfold Ends
    rw [bread, wp_bind]
    refine wp_mono (wp_autoSync_moves h hq ha) (fun _ s₁ h₁ => ?_) fun _ _ he => he
    refine wp_mono (wp_breadBuf_moves h₁.distinct (h₁.quiet b)) (fun _ s₂ h₂ => ?_) fun _ _ he => he
    exact ⟨h₂.isfull.trans h₁.isfull, by rw [h₂.log]; exact h₁.committing⟩
  · exact wp_mono (wp_syncOnce h hq ha) (fun _ _ h₁ => ⟨h₁.isfull, h₁.committing⟩) fun _ _ he => he
  · exact ⟨(bget_eq d b).1, (bget_eq d b).2, syncDepth_eq d⟩
  · exact ⟨nested_syncRefused t ht, by rw [syncOnce, if_pos ht]⟩

/-- A cache whose log starts at block 2, with dirty buffers of the blocks `bs`. -/
def dirtyCache (bs : List Nat) : Machine :=
  { boot (fun _ _ => 0) 2 120 with
    bufs := bs.map (fun b => { blockno := some b, valid := true, dirty := true }) ++
      List.replicate (NBUF - bs.length) {} }

theorem quiet_dirtyCache (bs : List Nat) : Quiet (dirtyCache bs) := by
  rintro b ⟨x, hx, hheld⟩
  rcases List.mem_append.mp (lookup_mem hx) with hmem | hmem
  · obtain ⟨_, _, rfl⟩ := List.mem_map.mp hmem
    cases hheld
  · rw [(List.mem_replicate.mp hmem).2] at hheld
    cases hheld

/-- With 97 dirty buffers outside of the log the recursion ends. -/
theorem bget_sync_ends_full : ∃ s, bufferIsFull s = true ∧ Ends (bread syncOnce 7) s := by
  obtain ⟨bs, hbs⟩ : ∃ bs, bs = (List.range 97).map (200 + ·) := ⟨_, rfl⟩
  have hfull : bufferIsFull (dirtyCache bs) = true := by
    rw [hbs]
    decide +kernel
  have hdistinct : Distinct (dirtyCache bs) := by
    rw [hbs]
    unfold Distinct
    decide +kernel
  have hapart : Apart (dirtyCache bs).log.start (recorded (dirtyCache bs)) := by
    rw [hbs]
    unfold Apart
    decide +kernel
  exact ⟨_, hfull, (bget_sync_ends _ 7 hdistinct (quiet_dirtyCache bs) hapart).1.2.1⟩

/-- Does the program wait for a buffer that it holds? -/
def waitsForItself {α : Type} (x : M α) (s : Machine) : Bool :=
  match x s with
  | .error .deadlock _ => true
  | _ => false

theorem exists_of_waitsForItself {α : Type} {x : M α} (h : waitsForItself x s = true) :
    ∃ s', x s = .error .deadlock s' := by
  unfold waitsForItself at h
  split at h
  · exact ⟨_, ‹_›⟩
  · cases h

/-- A dirty buffer of the first log block is copied to itself, and `write_log` waits for a buffer
    that `sync` holds. -/
theorem sync_copies_onto_itself : Distinct (dirtyCache [3]) ∧ Quiet (dirtyCache [3]) ∧
    ∃ s', sync (dirtyCache [3]) = .error .deadlock s' :=
  ⟨show List.Nodup _ by decide +kernel, quiet_dirtyCache _,
    exists_of_waitsForItself (show waitsForItself sync (dirtyCache [3]) = true by decide +kernel)⟩

end Xv6.Fs
