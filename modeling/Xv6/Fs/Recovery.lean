import Xv6.Fs.Sync

namespace Xv6.Fs

open Xv6.Lib

/-!
# Log — crashes and recovery

A crash leaves the disk after a prefix of the writes that were issued.  Recovery starts on that
disk with an empty cache, and may crash as well.

A disk `Holds` the contents `f` when the header lists some blocks whose contents under `f` are
in the log, and all other blocks outside the log area have their contents under `f`.  Every write
of `sync` and of `recover_from_log` keeps the contents that the disk holds, except for the one
write of the header that commits.

* `holds_of_sync_crash` — every crash of `sync` leaves a disk that holds the old contents or the
  cached ones;
* `Holds.crash` — recovery keeps what the disk holds, wherever it crashes;
* `Holds.recover` — a recovery that completes leaves these contents on the blocks themselves;
* `sync_crash_atomic` — after a crash of `sync`, any number of crashes of recovery and a
  recovery that completes, all dirty blocks have their old contents or all have their new ones.
-/

/-! ### Headers -/

theorem headerN_setHeader (d : Block) {lh : List Nat} (h : lh.length ≤ LOGSIZE) :
    headerN (setHeader d lh) = lh.length := by
  have hle : (setHeader d lh).le 0 4 = lh.length := by
    rw [setHeader, Bytes.le_setFields_of_disjoint (by omega), Bytes.le_setLe_self (by decide),
      Nat.mod_eq_of_lt]
    have : LOGSIZE < 256 ^ 4 := by decide
    omega
  rw [headerN, hle, if_pos]
  have : LOGSIZE < 2 ^ 31 := by decide
  omega

theorem headerBlocks_setHeader (d : Block) {lh : List Nat} (h : lh.length ≤ LOGSIZE)
    (hb : ∀ b ∈ lh, b < FSSIZE) : headerBlocks (setHeader d lh) = lh := by
  rw [headerBlocks, headerN_setHeader d h, Int.toNat_natCast, setHeader,
    Bytes.getFields_setFields]
  · have : 4 + 4 * LOGSIZE ≤ BSIZE := by decide
    omega
  · intro b hb'
    have := hb b hb'
    have : FSSIZE < 256 ^ 4 := by decide
    omega

theorem headerBlocks_of_zero {d : Block} (h : headerN d = 0) : headerBlocks d = [] := by
  rw [headerBlocks, h]; rfl

/-! ### Recovery -/

/-- The writes of `recover_from_log` for a disk whose header lists the blocks `bs`, with
    contents `c`. -/
def recoverWrites (start : Nat) (bs : List Nat) (c : Nat → Block) (d : Nat → Block) :
    List (Nat × Block) :=
  homeWrites bs c bs.length ++ [(start, setHeader (d start) [])]

theorem boot_ok (d : Nat → Block) (start size : Nat) :
    CacheOk (boot d start size) ∧ Quiet (boot d start size) ∧
      (∀ b, ¬ Dirty (boot d start size) b) ∧ content (boot d start size) = d := by
  have hnone : ∀ b, lookup (boot d start size).bufs b = none := by
    intro b
    rw [lookup, List.find?_eq_none]
    intro x hx
    rw [boot] at hx
    rw [List.eq_of_mem_replicate hx]
    simp
  refine ⟨⟨?_, ?_, ?_, ?_⟩, ?_, ?_, ?_⟩
  · have : (boot d start size).bufs.filterMap (fun x => x.blockno) = [] := by
      rw [boot, List.filterMap_eq_nil_iff]
      intro x hx
      rw [List.eq_of_mem_replicate hx]
    rw [this]
    exact List.nodup_nil
  · intro b x hx; rw [hnone b] at hx; cases hx
  · intro b x hx; rw [hnone b] at hx; cases hx
  · intro x hx hd
    rw [boot] at hx
    rw [List.eq_of_mem_replicate hx] at hd
    cases hd
  · rintro b ⟨x, hx, _⟩; rw [hnone b] at hx; cases hx
  · rintro b ⟨x, hx, _⟩; rw [hnone b] at hx; cases hx
  · funext b; exact content_of_none (hnone b)

/-- `recover_from_log` installs the blocks of the header and clears it, or issues a prefix of
    these writes. -/
theorem wp_recoverFromLog {m : M Int} {d : Nat → Block} {start size : Nat} {bs : List Nat}
    {c : Nat → Block} (hbs : headerBlocks (d start) = bs) (hsmall : headerN (d start) ≤ LOGSIZE)
    (hhome : ∀ b ∈ bs, b ≠ start ∧ ∀ i < bs.length, b ≠ start + i + 1)
    (hc : ∀ i < bs.length, d (start + i + 1) = c (bs.getD i 0)) :
    wp (recoverFromLog m) (fun _ s' => s'.disk = applyWrites d (recoverWrites start bs c d) ∧
      CacheOk s' ∧ Quiet s' ∧ (∀ b, ¬ Dirty s' b) ∧ s'.isfull = false ∧
      s'.log = { start := start, size := size, committing := false, lh := [] } ∧
      s'.writes = recoverWrites start bs c d)
      (Issued False (boot d start size) (recoverWrites start bs c d)) (boot d start size) := by
  obtain ⟨hok, hq, hclean, hcont⟩ := boot_ok d start size
  generalize hs₀ : boot d start size = s₀ at hok hq hclean hcont ⊢
  have hdisk₀ : s₀.disk = d := by rw [← hs₀]; rfl
  have hwrites₀ : s₀.writes = [] := by rw [← hs₀]; rfl
  have hlog₀ : s₀.log = { start := start, size := size, committing := false, lh := [] } := by
    rw [← hs₀]; rfl
  have hfull₀ : s₀.isfull = false := by rw [← hs₀]; rfl
  have hnil : ∀ e s', Unwritten False s₀ e s' → Issued False s₀ (recoverWrites start bs c d) e s' :=
    fun e s' hs' => ⟨hs'.1, [], List.nil_prefix, hs'.2.1, by rw [hs'.2.2, List.append_nil]⟩
  rw [recoverFromLog, wp_bind, readHead, wp_bind, wp_get, wp_bind]
  refine wp_mono (wp_bread_passive (passive_of_clean hclean) hok _) (fun d₁ s₁ h₁ => ?_)
    fun e s' hs' => hnil e s' ⟨hs'.1.mono (hq _), hs'.2⟩
  obtain ⟨hd₁, _, h₁⟩ := h₁
  rw [hcont, hlog₀] at hd₁
  subst hd₁
  simp only [hlog₀] at h₁ ⊢
  refine wp_ite (fun hn => ?_) fun _ => ?_
  · omega
  · rw [wp_bind, wp_modify, hbs]
    -- the header is in memory; the buffers are as before
    have h₂ : CacheOk { s₁ with log := { s₁.log with lh := bs } } :=
      ⟨h₁.ok.nodup, h₁.ok.named, h₁.ok.clean, h₁.ok.dirtyNamed⟩
    refine wp_mono (wp_brelse h₂ ((h₁.held start).mpr (.inr rfl))) (fun _ s₃ h₃ => ?_)
      fun _ _ h => h.elim
    have hclean₃ : ∀ b, ¬ Dirty s₃ b := fun b hb => hclean b ((h₁.dirty b).mp ((h₃.dirty b).mp hb))
    have hq₃ : Quiet s₃ := by
      intro b hb
      obtain ⟨hb, hne⟩ := (h₃.held b).mp hb
      exact ((h₁.held b).mp hb).elim (hq b) hne
    have hcont₃ : content s₃ = d := by
      rw [h₃.content]
      exact h₁.content.trans hcont
    have hlog₃ : s₃.log = { start := start, size := size, committing := false, lh := bs } := by
      rw [h₃.log]
      show ({ s₁.log with lh := bs } : Log) = _
      rw [h₁.log, hlog₀]
    have hdisk₃ : s₃.disk = d := by
      rw [h₃.disk]
      show applyWrites s₁.disk [] = _
      rw [h₁.disk]; exact hdisk₀
    have hwrites₃ : s₃.writes = [] := by
      rw [h₃.writes]
      show s₁.writes ++ [] = _
      rw [h₁.writes, hwrites₀]; rfl
    have hfull₃ : s₃.isfull = false := by
      rw [h₃.isfull]
      exact h₁.isfull.trans hfull₀
    have hfrom : ∀ w e s', Issued False s₃ w e s' → w <+: recoverWrites start bs c d →
        Issued False s₀ (recoverWrites start bs c d) e s' := by
      rintro w e s' ⟨he, u, hu, hdu, hwu⟩ hw
      exact ⟨he, u, hu.trans hw, by rw [hdu, hdisk₃, hdisk₀], by rw [hwu, hwrites₃, hwrites₀]⟩
    rw [wp_bind]
    refine wp_mono (wp_installTrans (passive_of_clean hclean₃) h₃.ok hq₃ (by rw [hlog₃])
      (by rw [hlog₃]) (fun b hb => (hhome b hb).2) (c := c) (by rw [hcont₃]; exact hc))
      (fun _ s₄ h₄ => ?_) fun e s' hs' => hfrom _ e s' hs' (List.prefix_append _ _)
    have hlog₄ : s₄.log = { start := start, size := size, committing := false, lh := bs } := by
      rw [h₄.log, hlog₃]
    rw [wp_bind, clearLog, wp_bind, wp_get, wp_bind, wp_set, wp_pure]
    have h₅ : CacheOk { s₄ with log := { s₄.log with lh := [] } } :=
      ⟨h₄.ok.nodup, h₄.ok.named, h₄.ok.clean, h₄.ok.dirtyNamed⟩
    have hclean₅ : ∀ b, ¬ Dirty { s₄ with log := { s₄.log with lh := [] } } b :=
      fun b hb => hclean₃ b ((h₄.dirty b).mp hb).1
    have hq₅ : Quiet { s₄ with log := { s₄.log with lh := [] } } := fun b hb => hq₃ b ((h₄.held b).mp hb)
    have hhead : content s₄ start = d start := by
      rw [h₄.content, hcont₃, applyWrites_of_not_mem]
      intro w hw
      obtain ⟨i, hi, rfl⟩ := mem_homeWrites.mp hw
      exact (hhome _ (getD_mem hi)).1
    have hw₆ : [({ s₄.log with lh := [] : Log }.start,
        setHeader (content { s₄ with log := { s₄.log with lh := [] } }
          { s₄.log with lh := [] : Log }.start) { s₄.log with lh := [] : Log }.lh)] =
        [(start, setHeader (d start) [])] := by
      show [(s₄.log.start, setHeader (content s₄ s₄.log.start) [])] = _
      rw [hlog₄, hhead]
    refine wp_mono (wp_writeHead (passive_of_clean hclean₅) h₅ hq₅) (fun _ s₆ h₆ => ?_)
      fun e s' hs' => ?_
    · refine ⟨?_, h₆.ok, fun b hb => hq₅ b ((h₆.held b).mp hb),
        fun b hb => hclean₅ b ((h₆.dirty b).mp hb).1, ?_, ?_, ?_⟩
      · rw [h₆.disk, hw₆, recoverWrites, applyWrites_append]
        show applyWrites s₄.disk _ = _
        rw [h₄.disk, hdisk₃]
      · rw [h₆.isfull]; exact h₄.isfull.trans hfull₃
      · rw [h₆.log]
        show ({ s₄.log with lh := [] } : Log) = _
        rw [hlog₄]
      · rw [h₆.writes, hw₆, recoverWrites]
        show s₄.writes ++ _ = _
        rw [h₄.writes, hwrites₃, List.nil_append]
    · exact hfrom _ e s' (Issued.of_unwritten h₄ hs' (List.prefix_refl _)) (List.prefix_append _ _)

/-! ### Crashes -/

/-- The machine in which an operation returns or stops. -/
def outcome {α : Type} (m : M α) (s : Machine) : Machine :=
  match m s with
  | .ok _ s' => s'
  | .error _ s' => s'

/-- The disk after a crash of `m`: some prefix of the writes it issues has reached the disk. -/
def CrashDisk {α : Type} (m : M α) (s : Machine) (d : Nat → Block) : Prop :=
  ∃ v, v <+: (outcome m s).writes.drop s.writes.length ∧ d = applyWrites s.disk v

/-- A crash of `recover_from_log` on the disk `d` leaves the disk `d'`. -/
def RecoverCrash (start size : Nat) (d d' : Nat → Block) : Prop :=
  CrashDisk (recoverFromLog sync) (boot d start size) d'

theorem CrashDisk.of_wp {α : Type} {m : M α} {s : Machine} {d : Nat → Block}
    {w : List (Nat × Block)} {Q : α → Machine → Prop} {P : Prop} (hd : CrashDisk m s d)
    (h : wp m Q (Issued P s w) s) (hQ : ∀ a s', Q a s' → s'.writes = s.writes ++ w) :
    ∃ v, v <+: w ∧ d = applyWrites s.disk v := by
  obtain ⟨v, hv, rfl⟩ := hd
  refine ⟨v, hv.trans ?_, rfl⟩
  rw [outcome]
  cases hm : m s with
  | ok a s' =>
    simp only [hQ a s' (wp_ok h hm), List.drop_left]
    exact List.prefix_refl _
  | error e s' =>
    obtain ⟨_, u, hu, _, hw⟩ := wp_error h hm
    simpa only [hw, List.drop_left] using hu

/-- A prefix of two lists ends in the first or in the second of them. -/
theorem prefix_append_cases {α : Type} {v l₁ l₂ : List α} (h : v <+: l₁ ++ l₂) :
    v <+: l₁ ∨ ∃ u, u <+: l₂ ∧ v = l₁ ++ u := by
  rcases List.prefix_or_prefix_of_prefix h (List.prefix_append l₁ l₂) with h₁ | ⟨u, rfl⟩
  · exact .inl h₁
  · exact .inr ⟨u, (List.prefix_append_right_inj l₁).mp h, rfl⟩

/-! ### What a disk holds -/

/-- The header lists the blocks `bs`, and the log has their contents under `f`. -/
structure Logged (start size : Nat) (bs : List Nat) (f d : Nat → Block) : Prop where
  small : headerN (d start) ≤ LOGSIZE
  blocks : headerBlocks (d start) = bs
  home : ∀ b ∈ bs, b < start ∨ start + size ≤ b
  room : bs = [] ∨ bs.length < size
  log : ∀ i < bs.length, d (start + i + 1) = f (bs.getD i 0)
  rest : ∀ b, (b < start ∨ start + size ≤ b) → b ∉ bs → d b = f b

/-- Recovery from the disk `d` gives the contents `f`. -/
def Holds (start size : Nat) (f d : Nat → Block) : Prop := ∃ bs, Logged start size bs f d

section Holds

variable {start size : Nat} {bs : List Nat} {f d d' : Nat → Block} {v : List (Nat × Block)}

/-- A cleared header. -/
theorem Logged.of_cleared (hn : headerN (d start) = 0)
    (hd : ∀ b, (b < start ∨ start + size ≤ b) → d b = f b) : Logged start size [] f d where
  small := by rw [hn]; exact Int.natCast_nonneg _
  blocks := headerBlocks_of_zero hn
  home := by simp
  room := .inl rfl
  log := by simp
  rest b hb _ := hd b hb

theorem Logged.home_ne (h : Logged start size bs f d) (hsize : 0 < size) {b : Nat} (hb : b ∈ bs) :
    b ≠ start ∧ ∀ i < bs.length, b ≠ start + i + 1 := by
  have hout := h.home b hb
  have hroom := h.room
  refine ⟨by omega, fun i hi => ?_⟩
  rcases hroom with rfl | hroom
  · simp at hb
  · omega

/-- Writing home blocks does not change what the disk holds. -/
theorem Logged.write_home (h : Logged start size bs f d) (hsize : 0 < size)
    (hv : ∀ w ∈ v, w.1 ∈ bs) : Logged start size bs f (applyWrites d v) := by
  have hkeep : ∀ b, b ∉ bs → applyWrites d v b = d b := fun b hb =>
    applyWrites_of_not_mem fun w hw heq => hb (heq ▸ hv w hw)
  have hstart : applyWrites d v start = d start :=
    hkeep start fun hb => (h.home_ne hsize hb).1 rfl
  refine ⟨by rw [hstart]; exact h.small, by rw [hstart]; exact h.blocks, h.home, h.room,
    fun i hi => ?_, fun b hb hnot => by rw [hkeep b hnot]; exact h.rest b hb hnot⟩
  rw [hkeep _ fun hb => (h.home_ne hsize hb).2 i hi rfl]
  exact h.log i hi

theorem headerN_cleared (d : Block) : headerN (setHeader d []) = 0 :=
  headerN_setHeader d (Nat.zero_le _)

/-- All home blocks written and the header cleared. -/
theorem Logged.write_all (h : Logged start size bs f d) (hsize : 0 < size) (x : Block) :
    Logged start size [] f
      (applyWrites d (homeWrites bs f bs.length ++ [(start, setHeader x [])])) := by
  refine Logged.of_cleared ?_ fun b hb => ?_
  · rw [applyWrites_snoc, Function.update_self, headerN_cleared]
  · rw [applyWrites_snoc, Function.update_of_ne (by omega)]
    by_cases hmem : b ∈ bs
    · obtain ⟨i, hi, rfl⟩ := List.getElem_of_mem hmem
      have hget : bs.getD i 0 = bs[i] := by
        rw [List.getD_eq_getElem?_getD, List.getElem?_eq_getElem hi]; rfl
      refine applyWrites_of_mem (mem_homeWrites.mpr ⟨i, hi, by rw [hget]⟩) fun u hu => ?_
      obtain ⟨j, _, hj⟩ := mem_homeWrites.mp hu
      rw [Prod.mk.injEq] at hj
      rw [hj.2, ← hj.1]
    · rw [applyWrites_of_not_mem, h.rest b hb hmem]
      intro w hw heq
      obtain ⟨i, hi, rfl⟩ := mem_homeWrites.mp hw
      exact hmem (heq ▸ getD_mem hi)

/-- Recovery keeps what the disk holds, wherever it crashes. -/
theorem Holds.crash (h : Holds start size f d) (hsize : 0 < size)
    (hd' : RecoverCrash start size d d') : Holds start size f d' := by
  obtain ⟨bs, h⟩ := h
  obtain ⟨v, hv, rfl⟩ := CrashDisk.of_wp hd' (wp_recoverFromLog h.blocks h.small
    (fun b hb => h.home_ne hsize hb) h.log) fun _ s' hs' => hs'.2.2.2.2.2.2
  show Holds start size f (applyWrites d v)
  rw [recoverWrites, List.prefix_concat_iff] at hv
  rcases hv with rfl | hv
  · exact ⟨[], h.write_all hsize _⟩
  · refine ⟨bs, h.write_home hsize fun w hw => ?_⟩
    obtain ⟨i, hi, rfl⟩ := mem_homeWrites.mp (hv.subset hw)
    exact getD_mem hi

/-- A recovery that completes leaves the contents on the blocks themselves. -/
theorem Holds.recover (h : Holds start size f d) (hsize : 0 < size) {s' : Machine}
    (hs' : recoverFromLog sync (boot d start size) = .ok () s') :
    headerN (s'.disk start) = 0 ∧ ∀ b, (b < start ∨ start + size ≤ b) → s'.disk b = f b := by
  obtain ⟨bs, h⟩ := h
  obtain ⟨hdisk, _⟩ := wp_ok (wp_recoverFromLog h.blocks h.small
    (fun b hb => h.home_ne hsize hb) h.log) hs'
  have hall := h.write_all hsize (d start)
  rw [← recoverWrites, ← hdisk] at hall
  refine ⟨?_, fun b hb => hall.rest b hb (by simp)⟩
  rw [hdisk, recoverWrites, applyWrites_snoc, Function.update_self, headerN_cleared]

end Holds

/-! ### `sync` -/

variable {s : Machine}

section Commit

variable {start size : Nat} {bs : List Nat} {c d : Nat → Block} {v : List (Nat × Block)}

/-- While the log is written, the disk holds the old contents. -/
theorem logged_of_logWrites (hn : headerN (d start) = 0) (hlen : bs.length < size)
    (hv : v <+: logWrites start bs c bs.length) :
    Logged start size [] d (applyWrites d v) := by
  have hin : ∀ w ∈ v, start < w.1 ∧ w.1 < start + size := by
    intro w hw
    obtain ⟨i, hi, rfl⟩ := mem_logWrites.mp (hv.subset hw)
    simp only
    omega
  refine Logged.of_cleared ?_ fun b hb => applyWrites_of_not_mem fun w hw heq => ?_
  · rw [applyWrites_of_not_mem fun w hw heq => ?_, hn]
    have := hin w hw
    omega
  · have := hin w hw
    omega

/-- Once the header is written, the disk holds the new contents. -/
theorem logged_of_header (hlen : bs.length < size) (hlog : bs.length ≤ LOGSIZE)
    (hhome : ∀ b ∈ bs, b < start ∨ start + size ≤ b) (hlt : ∀ b ∈ bs, b < FSSIZE)
    (hc : ∀ b, (b < start ∨ start + size ≤ b) → b ∉ bs → c b = d b) (x : Block) :
    Logged start size bs c
      (applyWrites d (logWrites start bs c bs.length ++ [(start, setHeader x bs)])) := by
  rw [applyWrites_snoc]
  refine ⟨?_, ?_, hhome, .inr hlen, fun i hi => ?_, fun b hb hnot => ?_⟩
  · rw [Function.update_self, headerN_setHeader x hlog]
    exact_mod_cast hlog
  · rw [Function.update_self, headerBlocks_setHeader x hlog hlt]
  · rw [Function.update_of_ne (by omega)]
    refine applyWrites_of_mem (mem_logWrites.mpr ⟨i, hi, rfl⟩) fun u hu => ?_
    obtain ⟨j, _, hj⟩ := mem_logWrites.mp hu
    rw [Prod.mk.injEq] at hj
    have : i = j := by omega
    rw [hj.2, this]
  · rw [Function.update_of_ne (by omega), applyWrites_of_not_mem fun w hw heq => ?_, hc b hb hnot]
    obtain ⟨i, hi, rfl⟩ := mem_logWrites.mp hw
    simp only at heq
    omega

end Commit

/-- Every crash of `sync` leaves a disk that holds the old contents or the cached ones. -/
theorem holds_of_sync_crash (h : Steady s) (hn : headerN (s.disk s.log.start) = 0)
    {d : Nat → Block} (hd : CrashDisk sync s d) :
    Holds s.log.start s.log.size s.disk d ∨ Holds s.log.start s.log.size (content s) d := by
  have hold : Logged s.log.start s.log.size [] s.disk s.disk :=
    Logged.of_cleared hn fun _ _ => rfl
  obtain ⟨v, hv, rfl⟩ := CrashDisk.of_wp hd (wp_sync h fun _ _ => trivial) fun _ s' hs' => hs'.2.2
  rw [syncWrites] at hv
  split at hv
  · obtain ⟨_, hlen, hlog⟩ := ‹_ ∧ _ ∧ _›
    have hdirty : ∀ b, b ∈ dirtyBlocks s.bufs ↔ Dirty s b := fun b => h.ok.mem_dirtyBlocks
    have hsize : 0 < s.log.size := by omega
    -- the disk just after the commit
    have hcommit := logged_of_header hlen hlog (fun b hb => h.outside b ((hdirty b).mp hb))
      (fun b hb => h.ok.lt_of_dirty ((hdirty b).mp hb))
      (fun b _ hnot => h.ok.content_eq_disk fun hb => hnot ((hdirty b).mpr hb))
      (content s s.log.start)
    rw [commitWrites, List.prefix_concat_iff] at hv
    rcases hv with rfl | hv
    · rw [List.append_assoc, applyWrites_append]
      exact .inr ⟨[], hcommit.write_all hsize _⟩
    · rcases prefix_append_cases hv with hv | ⟨u, hu, rfl⟩
      · rw [List.prefix_concat_iff] at hv
        rcases hv with rfl | hv
        · exact .inr ⟨_, hcommit⟩
        · exact .inl ⟨[], logged_of_logWrites hn hlen hv⟩
      · rw [applyWrites_append]
        refine .inr ⟨_, hcommit.write_home hsize fun w hw => ?_⟩
        obtain ⟨i, hi, rfl⟩ := mem_homeWrites.mp (hu.subset hw)
        exact getD_mem hi
  · rw [List.prefix_nil] at hv
    subst hv
    exact .inl ⟨[], hold⟩

/-- Once `sync` has returned, the disk holds the cached contents. -/
theorem holds_of_sync (h : Steady s) (hn : headerN (s.disk s.log.start) = 0) {r : Int}
    {s₁ : Machine} (hs₁ : sync s = .ok r s₁) :
    Holds s.log.start s.log.size (content s) s₁.disk := by
  obtain ⟨_, hsync, _⟩ := wp_ok (wp_sync h fun _ _ => trivial) hs₁
  rw [Synced] at hsync
  split at hsync
  · rename_i hempty
    subst hsync
    refine ⟨[], Logged.of_cleared hn fun b _ => (h.ok.content_eq_disk fun hb => ?_).symm⟩
    rw [← h.ok.mem_dirtyBlocks, hempty] at hb
    simp at hb
  · refine ⟨[], Logged.of_cleared ?_ fun b hb => ?_⟩
    · rw [hsync.disk, commitWrites, applyWrites_snoc, Function.update_self, headerN_cleared]
    · rw [hsync.disk, applyWrites_commitWrites hsync.room hb]
      split
      · rfl
      · rename_i hnot
        rw [h.ok.mem_dirtyBlocks] at hnot
        exact (h.ok.content_eq_disk hnot).symm

/-- Crashes of recovery keep what the disk holds. -/
theorem Holds.crashes {start size : Nat} {f d d' : Nat → Block} (h : Holds start size f d)
    (hsize : 0 < size) (hr : Relation.ReflTransGen (RecoverCrash start size) d d') :
    Holds start size f d' := by
  induction hr with
  | refl => exact h
  | tail _ hstep ih => exact ih.crash hsize hstep

/-- After a crash of `sync`, any number of crashes of recovery and a recovery that completes, all
    dirty blocks have their old contents or all have their new ones, the other blocks are
    unchanged, and the header is cleared.  If `sync` had returned, the contents are the new
    ones. -/
theorem sync_crash_atomic (h : Idle s) (hsize : 0 < s.log.size)
    (hn : headerN (s.disk s.log.start) = 0) {d d' : Nat → Block} {s' : Machine}
    (hd : CrashDisk sync s d)
    (hr : Relation.ReflTransGen (RecoverCrash s.log.start s.log.size) d d')
    (hs' : recoverFromLog sync (boot d' s.log.start s.log.size) = .ok () s') :
    ((∀ b, Dirty s b → s'.disk b = s.disk b) ∨ ∀ b, Dirty s b → s'.disk b = content s b) ∧
      (∀ b, s.log.Outside b → ¬ Dirty s b → s'.disk b = s.disk b) ∧
      headerN (s'.disk s.log.start) = 0 ∧
      ∀ r s₁, sync s = .ok r s₁ → d = s₁.disk → ∀ b, Dirty s b → s'.disk b = content s b := by
  have hnew : Holds s.log.start s.log.size (content s) d →
      ∀ b, s.log.Outside b → s'.disk b = content s b :=
    fun hh => ((hh.crashes hsize hr).recover hsize hs').2
  refine ⟨?_, fun b hb hclean => ?_, ?_, fun r s₁ hs₁ hd₁ b hb => ?_⟩
  · rcases holds_of_sync_crash h.toSteady hn hd with hold | hh
    · exact .inl fun b hb => ((hold.crashes hsize hr).recover hsize hs').2 b (h.outside b hb)
    · exact .inr fun b hb => hnew hh b (h.outside b hb)
  · rcases holds_of_sync_crash h.toSteady hn hd with hold | hh
    · exact ((hold.crashes hsize hr).recover hsize hs').2 b hb
    · rw [hnew hh b hb, h.ok.content_eq_disk hclean]
  · rcases holds_of_sync_crash h.toSteady hn hd with hold | hh
    · exact ((hold.crashes hsize hr).recover hsize hs').1
    · exact ((hh.crashes hsize hr).recover hsize hs').1
  · subst hd₁
    exact hnew (holds_of_sync h.toSteady hn hs₁) b (h.outside b hb)

/-- A cache with one dirty buffer, on an empty disk with the log at block 2. -/
def oneDirty : Machine where
  bufs := { blockno := some 500, valid := true, dirty := true, data := fun _ => 1 } ::
    List.replicate 99 {}
  isfull := false
  log := { start := 2, size := 100, committing := false, lh := [] }
  disk := fun _ _ => 0
  writes := []

theorem idle_oneDirty : Idle oneDirty := by
  have hrest : ∀ b, lookup (List.replicate 99 ({} : Buf)) b = none := by
    intro b
    rw [lookup, List.find?_eq_none]
    intro x hx
    rw [List.eq_of_mem_replicate hx]
    simp
  have hl : ∀ b x, lookup oneDirty.bufs b = some x → b = 500 ∧ x.valid = true ∧ x.dirty = true ∧
      x.held = false := by
    intro b x hx
    rw [oneDirty, lookup_cons, hrest] at hx
    split at hx
    · cases hx
      exact ⟨(Option.some.inj ‹_›).symm, rfl, rfl, rfl⟩
    · cases hx
  refine ⟨⟨⟨by decide, fun b x hx => ?_, fun b x hx hd => ?_, fun x hx hd => ?_⟩, rfl, rfl, ?_⟩, ?_⟩
  · obtain ⟨rfl, hv, _⟩ := hl b x hx
    exact ⟨hv, by decide⟩
  · obtain ⟨_, _, hd', _⟩ := hl b x hx
    rw [hd] at hd'
    cases hd'
  · rcases List.mem_cons.mp hx with rfl | hx
    · simp
    · rw [List.eq_of_mem_replicate hx] at hd
      cases hd
  · rintro b ⟨x, hx, _⟩
    obtain ⟨rfl, _⟩ := hl b x hx
    exact .inr (by decide)
  · rintro b ⟨x, hx, hh⟩
    obtain ⟨_, _, _, hh'⟩ := hl b x hx
    rw [hh] at hh'
    cases hh'

/-- The disk when `sync` crashes right after the commit, with the home block not yet written. -/
def crashedDisk : Nat → Block :=
  applyWrites oneDirty.disk ((outcome sync oneDirty).writes.take 2)

theorem sync_crash_atomic_committed : headerN (oneDirty.disk 2) = 0 ∧
    CrashDisk sync oneDirty crashedDisk ∧
    ∃ s', recoverFromLog sync (boot crashedDisk 2 100) = .ok () s' ∧
      ((∀ b, Dirty oneDirty b → s'.disk b = oneDirty.disk b) ∨
        ∀ b, Dirty oneDirty b → s'.disk b = content oneDirty b) := by
  have hn : headerN (oneDirty.disk 2) = 0 := by decide +kernel
  have hcrash : CrashDisk sync oneDirty crashedDisk :=
    ⟨(outcome sync oneDirty).writes.take 2, List.take_prefix _ _, rfl⟩
  have hret : returns (recoverFromLog sync) (boot crashedDisk 2 100) = true := by decide +kernel
  obtain ⟨_, s', hs'⟩ := exists_ok_of_returns hret
  exact ⟨hn, hcrash, s', hs',
    (sync_crash_atomic idle_oneDirty (by decide) hn hcrash .refl hs').1⟩

end Xv6.Fs
