import Xv6.Fs.Recovery

namespace Xv6.Fs

open Xv6.Lib

/-!
# Buffer cache — the cache as an array of blocks

Kernel code uses the cache through three operations: read a block, update a block, and `sync`.
All of them may start a commit inside `bget`.  A run of these operations is compared with an
array `c` of block contents, in which an update changes one block and nothing else does
anything.

* `Kept` — what a commit leaves alone: held buffers and the contents outside the log area;
* `Represents` — the relation between the machine and the array;
* `cache_refines_array` — in every run a read returns the content of the array, and `sync` leaves
  no dirty buffer and the array on the disk.
-/

/-! ### Operations on whole blocks -/

/-- `b = bread(dev, b); ... brelse(b)`. -/
def readBlock (b : Nat) : M Block := do
  let d ← bread sync b
  brelse b
  pure d

/-- `b = bread(dev, b); change b->data; b->flags |= B_DIRTY; brelse(b)`. -/
def updateBlock (b : Nat) (f : Block → Block) : M Unit := do
  let d ← bread sync b
  setData b (f d)
  setDirty b
  brelse b

/-! ### `bget` with a full cache -/

/-- A commit has changed neither the held buffers nor the contents outside the log area. -/
structure Kept (s s' : Machine) : Prop where
  steady : Steady s'
  held : ∀ b, Held s' b ↔ Held s b
  content : ∀ b, s.log.Outside b → content s' b = content s b
  log : s'.log = s.log
  isfull : s'.isfull = s.isfull

variable {s s' : Machine} {P : Prop}

theorem Kept.refl (h : Steady s) : Kept s s := ⟨h, fun _ => Iff.rfl, fun _ _ => rfl, rfl, rfl⟩

theorem Synced.kept (h : Steady s) (hs : Synced s s') : Kept s s' := by
  obtain ⟨hst, _, hheld, hcont, hlog, hfull⟩ := hs.steady h
  exact ⟨hst, hheld, hcont, hlog, hfull⟩

/-- `isfull` is not part of what `sync` looks at. -/
theorem Steady.setFull (h : Steady s) (f : Bool) : Steady { s with isfull := f } :=
  ⟨⟨h.ok.nodup, h.ok.named, h.ok.clean, h.ok.dirtyNamed⟩, h.lh, h.committing, h.outside⟩

/-- The commit that `bget` starts when the cache is full of dirty buffers. -/
theorem wp_autoSync (h : Steady s) (hfull : s.isfull = false) (hP : ∀ b, Held s b → P) :
    wp (autoSync sync) (fun _ s' => Kept s s' ∧
      (s' = s ∨ (bufferIsFull s = true ∧ s'.writes = s.writes ++ syncWrites s ∧
        ∃ r s₁, sync { s with isfull := true } = .ok r s₁ ∧ s₁.disk = s'.disk)))
      (Issued P s (syncWrites s)) s := by
  by_cases hc : s.isfull = false ∧ bufferIsFull s = true
  · have hrun : autoSync sync s = (do
        modify fun s => { s with isfull := true }
        let _ ← sync
        modify fun s => { s with isfull := false } : M Unit) s := by
      rw [autoSync, if_pos hc]
    rw [wp, hrun]
    show wp (do
      modify fun s => { s with isfull := true }
      let _ ← sync
      modify fun s => { s with isfull := false } : M Unit) _ _ s
    rw [wp_bind, wp_modify, wp_bind]
    cases hrun : sync { s with isfull := true } with
    | error e s₁ =>
      rw [wp_of_error hrun]
      exact (wp_of_error hrun).mp (wp_sync (h.setFull true) hP)
    | ok r s₁ =>
      rw [wp_of_ok hrun, wp_modify]
      obtain ⟨_, hsync, hwrites⟩ := wp_ok (wp_sync (h.setFull true) hP) hrun
      have hk := hsync.kept (h.setFull true)
      exact ⟨⟨hk.steady.setFull false, hk.held, hk.content, hk.log, hfull.symm⟩,
        .inr ⟨hc.2, hwrites, r, s₁, rfl, rfl⟩⟩
  · have hrun : autoSync sync s = .ok () s := by rw [autoSync, if_neg hc]
    rw [wp_of_ok hrun]
    exact ⟨Kept.refl h, .inl rfl⟩

/-- `bread` locks the buffer of the block, perhaps after a commit. -/
theorem wp_bread (h : Steady s) (hfull : s.isfull = false) (hP : ∀ b, Held s b → P) (b : Nat) :
    wp (bread sync b) (fun d s' => ∃ s₁, Kept s s₁ ∧ d = content s₁ b ∧ ¬ Held s₁ b ∧
      After s₁ s' (content s₁) (Dirty s₁) (fun b' => Held s₁ b' ∨ b' = b) [])
      (fun e _ => Halted P e) s := by
  rw [bread, wp_bind]
  refine wp_mono (wp_autoSync h hfull hP) (fun _ s₁ h₁ => ?_) fun _ _ h => h.1
  have hk := h₁.1
  refine wp_mono (wp_breadBuf hk.steady.ok b) (fun d s' hs' => ⟨s₁, hk, hs'⟩) fun e _ hs' => ?_
  exact hs'.1.mono fun hb => hP b ((hk.held b).mp hb)

/-- An update of a block once `bget` has dealt with a full cache. -/
theorem wp_updateBuf (h : CacheOk s) (b : Nat) (f : Block → Block) :
    wp (do let d ← breadBuf b; setData b (f d); setDirty b; brelse b : M Unit)
      (fun _ s' => After s s' (Function.update (content s) b (f (content s b)))
        (fun b' => Dirty s b' ∨ b' = b) (Held s) []) (Unwritten (Held s b) s) s := by
  rw [wp_bind]
  refine wp_mono (wp_breadBuf h b) (fun d s₂ h₂ => ?_) fun _ _ h => h
  obtain ⟨rfl, hfree, h₂⟩ := h₂
  have hassoc : (do setData b (f (content s b)); setDirty b; brelse b : M Unit) =
      (do (do setData b (f (content s b)); setDirty b : M Unit); brelse b : M Unit) := by
    simp only [bind_assoc]
  rw [hassoc, wp_bind]
  refine wp_mono (wp_store h₂.ok ((h₂.held b).mpr (.inr rfl)) _) (fun _ s₃ h₃ => ?_)
    fun _ _ h => h.elim
  refine wp_mono (wp_brelse h₃.ok ((h₃.held b).mpr ((h₂.held b).mpr (.inr rfl))))
    (fun _ s₄ h₄ => ?_) fun _ _ h => h.elim
  refine ((h₂.trans h₃).trans h₄).congr ?_ (fun b' => ?_) fun b' => ?_
  · rw [h₃.content, h₂.content]
  · rw [h₃.dirty, h₂.dirty]
  · rw [h₃.held, h₂.held]
    constructor
    · rintro ⟨hb | hb, hne⟩
      · exact hb
      · exact absurd hb hne
    · exact fun hb => ⟨.inl hb, fun h => hfree (h ▸ hb)⟩

theorem updateBlock_eq (b : Nat) (f : Block → Block) :
    updateBlock b f = (do
      autoSync sync
      (do let d ← breadBuf b; setData b (f d); setDirty b; brelse b : M Unit)) := by
  simp only [updateBlock, bread, bind_assoc]

theorem Steady.after {c : Nat → Block} {D H : Nat → Prop} {w : List (Nat × Block)}
    (h : Steady s) (h' : After s s' c D H w) (hD : ∀ b, D b → s.log.Outside b) : Steady s' :=
  ⟨h'.ok, by rw [h'.log]; exact h.lh, by rw [h'.log]; exact h.committing,
    fun b hb => by rw [h'.log]; exact hD b ((h'.dirty b).mp hb)⟩

/-! ### The array -/

/-- Outside the log area the machine shows the contents `c`, and it is between two operations. -/
structure Represents (start size : Nat) (c : Nat → Block) (s : Machine) : Prop where
  idle : Idle s
  isfull : s.isfull = false
  logStart : s.log.start = start
  logSize : s.log.size = size
  content : ∀ b, (b < start ∨ start + size ≤ b) → content s b = c b

section Represents

variable {start size b : Nat} {c : Nat → Block}

theorem Represents.outside (h : Represents start size c s) :
    s.log.Outside b ↔ b < start ∨ start + size ≤ b := by
  rw [Log.Outside, h.logStart, h.logSize]

/-- A read returns the content of the array and changes nothing in it. -/
theorem Represents.read (h : Represents start size c s) (b : Nat) :
    wp (readBlock b) (fun d s' => Represents start size c s' ∧
      ((b < start ∨ start + size ≤ b) → d = c b)) (fun e _ => Halted False e) s := by
  rw [readBlock, wp_bind]
  refine wp_mono (wp_bread h.idle.toSteady h.isfull h.idle.quiet b) (fun d s₂ h₂ => ?_)
    fun _ _ h => h
  obtain ⟨s₁, hk, rfl, _, h₂⟩ := h₂
  rw [wp_bind]
  refine wp_mono (wp_brelse h₂.ok ((h₂.held b).mpr (.inr rfl))) (fun _ s₃ h₃ => ?_)
    fun _ _ h => h.elim
  rw [wp_pure]
  have h₁₃ := h₂.trans h₃
  have hst : Steady s₃ := hk.steady.after h₁₃ fun b hb => hk.steady.outside b ((h₂.dirty b).mp hb)
  have hlog : s₃.log = s.log := h₁₃.log.trans hk.log
  refine ⟨⟨⟨hst, fun b' hb' => ?_⟩, h₁₃.isfull.trans (hk.isfull.trans h.isfull),
    by rw [hlog, h.logStart], by rw [hlog, h.logSize], fun b' hb' => ?_⟩, fun hb => ?_⟩
  · obtain ⟨hb', hne⟩ := (h₃.held b').mp hb'
    rcases (h₂.held b').mp hb' with hb' | hb'
    · exact h.idle.quiet b' ((hk.held b').mp hb')
    · exact hne hb'
  · rw [h₃.content, h₂.content, hk.content b' (h.outside.mpr hb'), h.content b' hb']
  · rw [hk.content b (h.outside.mpr hb), h.content b hb]

/-- An update changes the array in one place. -/
theorem Represents.update (h : Represents start size c s) (hb : b < start ∨ start + size ≤ b)
    (f : Block → Block) :
    wp (updateBlock b f) (fun _ s' => Represents start size (Function.update c b (f (c b))) s')
      (fun e _ => Halted False e) s := by
  rw [updateBlock_eq, wp_bind]
  refine wp_mono (wp_autoSync h.idle.toSteady h.isfull h.idle.quiet) (fun _ s₁ h₁ => ?_)
    fun _ _ h => h.1
  have hk := h₁.1
  have hq₁ : Quiet s₁ := fun b' hb' => h.idle.quiet b' ((hk.held b').mp hb')
  refine wp_mono (wp_updateBuf hk.steady.ok b f) (fun _ s₂ h₂ => ?_) fun _ _ hs' =>
    hs'.1.mono (hq₁ b)
  have hlog : s₂.log = s.log := h₂.log.trans hk.log
  have hst : Steady s₂ := by
    refine hk.steady.after h₂ fun b' hb' => ?_
    rcases hb' with hb' | rfl
    · exact hk.steady.outside b' hb'
    · rw [hk.log]; exact h.outside.mpr hb
  refine ⟨⟨hst, fun b' hb' => hq₁ b' ((h₂.held b').mp hb')⟩,
    h₂.isfull.trans (hk.isfull.trans h.isfull),
    by rw [hlog, h.logStart], by rw [hlog, h.logSize], fun b' hb' => ?_⟩
  rw [h₂.content, hk.content b (h.outside.mpr hb), h.content b hb]
  by_cases hbb : b' = b
  · subst hbb; rw [Function.update_self, Function.update_self]
  · rw [Function.update_of_ne hbb, Function.update_of_ne hbb,
      hk.content b' (h.outside.mpr hb'), h.content b' hb']

/-- `sync` changes nothing in the array and brings it to the disk. -/
theorem Represents.sync (h : Represents start size c s) :
    wp Fs.sync (fun r s' => Represents start size c s' ∧ (∀ x ∈ s'.bufs, x.dirty = false) ∧
      (∀ b, (b < start ∨ start + size ≤ b) → s'.disk b = c b) ∧
      r = (s.bufs.filter fun x => x.dirty).length) (fun e _ => Halted False e) s := by
  refine wp_mono (wp_sync h.idle.toSteady h.idle.quiet) (fun r s' hs' => ?_) fun _ _ h => h.1
  obtain ⟨hr, hsync, _⟩ := hs'
  obtain ⟨hst, hclean, hheld, hcont, hlog, hfull⟩ := hsync.steady h.idle.toSteady
  have hcont' : ∀ b, (b < start ∨ start + size ≤ b) → Fs.content s' b = c b := fun b hb => by
    rw [hcont b (h.outside.mpr hb), h.content b hb]
  refine ⟨⟨⟨hst, fun b hb => h.idle.quiet b ((hheld b).mp hb)⟩, hfull.trans h.isfull,
    by rw [hlog, h.logStart], by rw [hlog, h.logSize], hcont'⟩, fun x hx => ?_, fun b hb => ?_, hr⟩
  · by_contra hd
    rw [Bool.not_eq_false] at hd
    obtain ⟨b, hb⟩ := Option.ne_none_iff_exists'.mp (hst.ok.dirtyNamed x hx hd)
    exact hclean b ⟨x, lookup_of_mem hst.ok.nodup hx hb, hd⟩
  · rw [← hst.ok.content_eq_disk (hclean b), hcont' b hb]

/-- The machine after boot shows the contents that the disk holds. -/
theorem Represents.of_recover {d : Nat → Block} (hd : Holds start size c d) (hsize : 0 < size)
    (hs : recoverFromLog Fs.sync (boot d start size) = .ok () s) : Represents start size c s := by
  obtain ⟨_, hc⟩ := hd.recover hsize hs
  obtain ⟨bs, hd⟩ := hd
  obtain ⟨_, hok, hq, hclean, hfull, hlog, _⟩ := wp_ok (wp_recoverFromLog hd.blocks hd.small
    (fun b hb => hd.home_ne hsize hb) hd.log) hs
  refine ⟨⟨⟨hok, by rw [hlog], by rw [hlog], fun b hb => absurd hb (hclean b)⟩, hq⟩, hfull,
    by rw [hlog], by rw [hlog], fun b hb => ?_⟩
  rw [hok.content_eq_disk (hclean b), hc b hb]

end Represents

/-! ### Runs -/

/-- The runs of block operations after boot, with the array they should show: any block may be
    read, blocks outside the log area may be updated, and `sync` may be called. -/
inductive Run (start size : Nat) : (Nat → Block) → Machine → Prop
  | boot {d c : Nat → Block} {s : Machine} : Holds start size c d →
      recoverFromLog sync (boot d start size) = .ok () s → Run start size c s
  | read {c : Nat → Block} {s s' : Machine} {b : Nat} {d : Block} : Run start size c s →
      readBlock b s = .ok d s' → Run start size c s'
  | update {c : Nat → Block} {s s' : Machine} {b : Nat} (f : Block → Block) : Run start size c s →
      (b < start ∨ start + size ≤ b) → updateBlock b f s = .ok () s' →
      Run start size (Function.update c b (f (c b))) s'
  | sync {c : Nat → Block} {s s' : Machine} {r : Int} : Run start size c s →
      sync s = .ok r s' → Run start size c s'

theorem Run.represents {start size : Nat} {c : Nat → Block} (hsize : 0 < size)
    (h : Run start size c s) : Represents start size c s := by
  induction h with
  | boot hd hs => exact Represents.of_recover hd hsize hs
  | read _ hs ih => exact (wp_ok (ih.read _) hs).1
  | update f _ hb hs ih =>
    exact (wp_of_ok hs).mp (ih.update hb f)
  | sync _ hs ih => exact (wp_ok ih.sync hs).1

/-- The cache refines an array of blocks.  In every run a read outside the log area returns the
    content of the array; when `sync` returns, no buffer is dirty, the array is on the disk and
    the result is the number of buffers that were dirty.  No operation stops but by a panic. -/
theorem cache_refines_array {start size : Nat} {c : Nat → Block} (hsize : 0 < size)
    (h : Run start size c s) :
    (∀ b d s', (b < start ∨ start + size ≤ b) → readBlock b s = .ok d s' → d = c b) ∧
    (∀ r s', sync s = .ok r s' → 0 ≤ r → (∀ x ∈ s'.bufs, x.dirty = false) ∧
      (∀ b, (b < start ∨ start + size ≤ b) → s'.disk b = c b) ∧
      r = (s.bufs.filter fun x => x.dirty).length) ∧
    (∀ b e s', readBlock b s = .error e s' → ∃ msg, e = .panic msg) ∧
    (∀ b f e s', (b < start ∨ start + size ≤ b) → updateBlock b f s = .error e s' →
      ∃ msg, e = .panic msg) ∧
    (∀ e s', sync s = .error e s' → ∃ msg, e = .panic msg) := by
  have hr := h.represents hsize
  have hpanic : ∀ e, Halted False e → ∃ msg, e = .panic msg :=
    fun e he => he.elim id fun he => he.2.elim
  refine ⟨fun b d s' hb hs' => (wp_ok (hr.read b) hs').2 hb, fun r s' hs' _ => ?_,
    fun b e s' hs' => hpanic e ((wp_of_error hs').mp (hr.read b)),
    fun b f e s' hb hs' => hpanic e ((wp_of_error hs').mp (hr.update hb f)),
    fun e s' hs' => hpanic e ((wp_of_error hs').mp hr.sync)⟩
  exact ((wp_of_ok hs').mp hr.sync).2

/-- A block of an empty disk is updated and read back. -/
theorem cache_refines_array_update :
    ∃ s d s', Run 2 100 (Function.update (fun _ _ => 0) 500 fun _ => 7) s ∧
      readBlock 500 s = .ok d s' ∧ d = fun _ => 7 := by
  have hret : returns (do
      recoverFromLog sync
      updateBlock 500 fun _ _ => 7
      readBlock 500 : M Block) (boot (fun _ _ => 0) 2 100) = true := by decide +kernel
  obtain ⟨d, s', hs'⟩ := exists_ok_of_returns hret
  obtain ⟨_, s₀, hs₀, hs'⟩ := bind_eq_ok_state.mp hs'
  obtain ⟨_, s₁, hs₁, hs'⟩ := bind_eq_ok_state.mp hs'
  have hd : Holds 2 100 (fun _ _ => 0) (fun _ _ => 0) :=
    ⟨[], Logged.of_cleared (by decide +kernel) fun _ _ => rfl⟩
  have hrun := Run.update (b := 500) (fun _ _ => 7) (Run.boot hd hs₀) (.inr (by decide)) hs₁
  refine ⟨s₁, d, s', hrun, hs', ?_⟩
  rw [(cache_refines_array (by decide) hrun).1 500 d s' (.inr (by decide)) hs', Function.update_self]

end Xv6.Fs
