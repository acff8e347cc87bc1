import Xv6.Fs.Cache

namespace Xv6.Fs

open Xv6.Lib

/-!
# Buffer cache — what the buffer operations do

The cache is observed through three functions of the machine: the `content` of a block (the
data of its buffer, or of the disk when it is not cached), whether the block is `Dirty`, and
whether its buffer is `Held`.  Which buffer holds a block, and in which order the buffers are
recycled, is not visible in them.

* `CacheOk` — the invariant: no block is cached twice, and a clean buffer agrees with the disk;
* `After s s' c D H w` — `s'` is a machine with contents `c`, dirty blocks `D` and held blocks
  `H` that has written `w` to the disk since `s`;
* `wp_breadBuf`, `wp_store`, `wp_writeBack`, `wp_brelse` — the buffer operations in these terms.
-/

/-! ### Observations -/

/-- What `bread` returns for a block. -/
def content (s : Machine) (b : Nat) : Block :=
  match lookup s.bufs b with
  | some x => x.data
  | none => s.disk b

/-- The buffer of the block has data that is not on the disk. -/
def Dirty (s : Machine) (b : Nat) : Prop := ∃ x, lookup s.bufs b = some x ∧ x.dirty = true

/-- The buffer of the block is locked. -/
def Held (s : Machine) (b : Nat) : Prop := ∃ x, lookup s.bufs b = some x ∧ x.held = true

/-- The disk after a list of writes. -/
def applyWrites (d : Nat → Block) (ws : List (Nat × Block)) : Nat → Block :=
  ws.foldl (fun d w => Function.update d w.1 w.2) d

@[simp] theorem applyWrites_nil (d : Nat → Block) : applyWrites d [] = d := rfl

theorem applyWrites_append (d : Nat → Block) (ws vs : List (Nat × Block)) :
    applyWrites d (ws ++ vs) = applyWrites (applyWrites d ws) vs :=
  List.foldl_append

/-- The invariant of the buffer cache. -/
structure CacheOk (s : Machine) : Prop where
  nodup : (s.bufs.filterMap fun x => x.blockno).Nodup
  named : ∀ b x, lookup s.bufs b = some x → x.valid = true ∧ b < FSSIZE
  clean : ∀ b x, lookup s.bufs b = some x → x.dirty = false → x.data = s.disk b
  dirtyNamed : ∀ x ∈ s.bufs, x.dirty = true → x.blockno ≠ none

/-! ### Lists of buffers -/

section Lists

variable {bufs bufs' : List Buf} {b b' : Nat} {x : Buf} {f : Buf → Buf}

theorem lookup_blockno (h : lookup bufs b = some x) : x.blockno = some b := by
  have := List.find?_some h
  simpa using this

theorem lookup_mem (h : lookup bufs b = some x) : x ∈ bufs := List.mem_of_find?_eq_some h

theorem lookup_eq_none_iff :
    lookup bufs b = none ↔ b ∉ bufs.filterMap fun x => x.blockno := by
  simp only [lookup, List.find?_eq_none, List.mem_filterMap, not_exists, not_and,
    decide_eq_true_eq]

/-- Without duplicates every buffer is found under its block number. -/
theorem lookup_of_mem (hnd : (bufs.filterMap fun x => x.blockno).Nodup) (hx : x ∈ bufs)
    (hb : x.blockno = some b) : lookup bufs b = some x := by
  induction bufs with
  | nil => simp at hx
  | cons y ys ih =>
    rw [lookup, List.find?_cons]
    by_cases hy : y.blockno = some b
    · rw [decide_eq_true hy]
      simp only [Option.some.injEq]
      rcases List.mem_cons.mp hx with rfl | hx
      · rfl
      · rw [List.filterMap_cons_some hy, List.nodup_cons] at hnd
        exact absurd (List.mem_filterMap.mpr ⟨x, hx, hb⟩) hnd.1
    · rw [decide_eq_false hy]
      rcases List.mem_cons.mp hx with rfl | hx
      · exact absurd hb hy
      · refine ih ?_ hx
        rw [List.filterMap_cons] at hnd
        split at hnd
        · exact hnd
        · exact (List.nodup_cons.mp hnd).2

theorem lookup_setBuf (hf : ∀ x, (f x).blockno = x.blockno) :
    lookup (setBuf bufs b f) b' = if b' = b then (lookup bufs b).map f else lookup bufs b' := by
  induction bufs with
  | nil => simp [lookup, setBuf]
  | cons y ys ih =>
    rw [lookup, setBuf, List.map_cons, List.find?_cons]
    have ih' := ih
    rw [lookup, setBuf] at ih'
    by_cases hy : y.blockno = some b
    · simp only [hy, if_true, hf]
      by_cases hb : b' = b
      · subst hb
        simp [lookup, hy]
      · rw [if_neg hb] at ih' ⊢
        have hne : ¬ b = b' := fun h => hb h.symm
        simp only [Option.some.injEq, hne, decide_false, lookup, List.find?_cons, hy]
        exact ih'
    · simp only [hy, if_false]
      by_cases hyb : y.blockno = some b'
      · have hb : b' ≠ b := by rintro rfl; exact hy hyb
        simp [lookup, hyb, hb]
      · simp only [hyb, decide_false, lookup, List.find?_cons, hy]
        exact ih'

theorem filterMap_setBuf (hf : ∀ x, (f x).blockno = x.blockno) :
    ((setBuf bufs b f).filterMap fun x => x.blockno) = bufs.filterMap fun x => x.blockno := by
  rw [setBuf, List.filterMap_map]
  refine List.filterMap_congr fun x _ => ?_
  simp only [Function.comp]
  split
  · exact hf x
  · rfl

theorem mem_setBuf : x ∈ setBuf bufs b f ↔
    ∃ y ∈ bufs, (if y.blockno = some b then f y else y) = x := by
  rw [setBuf, List.mem_map]

/-- Recycling replaces one unused clean buffer. -/
theorem recycle_some (h : recycle b bufs = some bufs') :
    ∃ us x x' vs, bufs = us ++ x :: vs ∧ bufs' = us ++ x' :: vs ∧ (x.held = false ∧ x.dirty = false) ∧
      x'.blockno = some b ∧ x'.valid = false ∧ x'.dirty = false ∧ x'.held = true := by
  induction bufs generalizing bufs' with
  | nil => cases h
  | cons y ys ih =>
    rw [recycle] at h
    split at h
    · rename_i ys' hys
      cases h
      obtain ⟨us, x, x', vs, rfl, rfl, hx, hx'⟩ := ih hys
      exact ⟨y :: us, x, x', vs, rfl, rfl, hx, hx'⟩
    · split at h
      · rename_i hy
        cases h
        exact ⟨[], y, _, ys, rfl, rfl, hy, rfl, rfl, rfl, rfl⟩
      · cases h

/-- Updating a buffer whose block is in no other buffer. -/
theorem setBuf_middle {us vs : List Buf} {x' : Buf} (hb : lookup (us ++ x :: vs) b = none)
    (hx' : x'.blockno = some b) : setBuf (us ++ x' :: vs) b f = us ++ f x' :: vs := by
  have hout : ∀ zs : List Buf, (∀ z ∈ zs, z.blockno ≠ some b) → zs.map
      (fun x => if x.blockno = some b then f x else x) = zs := by
    intro zs hzs
    rw [List.map_congr_left (g := id), List.map_id]
    intro z hz
    simp [hzs z hz]
  have hnone : ∀ z ∈ us ++ x :: vs, z.blockno ≠ some b := by
    intro z hz hzb
    exact lookup_eq_none_iff.mp hb (List.mem_filterMap.mpr ⟨z, hz, hzb⟩)
  rw [setBuf, List.map_append, List.map_cons, if_pos hx', hout us fun z hz => hnone z (by simp [hz]),
    hout vs fun z hz => hnone z (by simp [hz])]

theorem lookup_append {us vs : List Buf} :
    lookup (us ++ vs) b = (lookup us b).or (lookup vs b) := by
  rw [lookup, List.find?_append]
  rfl

theorem lookup_cons : lookup (x :: bufs) b = if x.blockno = some b then some x else lookup bufs b := by
  rw [lookup, List.find?_cons]
  split
  · rename_i h
    rw [if_pos (by simpa using h)]
  · rename_i h
    rw [if_neg (by simpa using h)]
    rfl

/-- What a lookup finds after recycling: the new block, the old blocks, or nothing in place of
    the block that was evicted. -/
theorem lookup_recycle {us vs : List Buf} {x' : Buf}
    (hnd : ((us ++ x :: vs).filterMap fun x => x.blockno).Nodup)
    (hb : lookup (us ++ x :: vs) b = none) (hx' : x'.blockno = some b) :
    lookup (us ++ x' :: vs) b = some x' ∧ ∀ b', b' ≠ b →
      lookup (us ++ x' :: vs) b' = lookup (us ++ x :: vs) b' ∨
        (lookup (us ++ x' :: vs) b' = none ∧ lookup (us ++ x :: vs) b' = some x) := by
  have hus : lookup us b = none := by
    rw [lookup_append, Option.or_eq_none_iff] at hb
    exact hb.1
  refine ⟨by rw [lookup_append, hus, lookup_cons, if_pos hx']; rfl, fun b' hb' => ?_⟩
  have hx'b : x'.blockno ≠ some b' := by
    rw [hx']
    exact fun h => hb' (Option.some.inj h).symm
  rw [lookup_append, lookup_append, lookup_cons, lookup_cons, if_neg hx'b]
  by_cases hxb : x.blockno = some b'
  · rw [if_pos hxb]
    -- the evicted block was cached only in the recycled buffer
    rw [List.filterMap_append, List.filterMap_cons_some hxb, List.nodup_middle, List.nodup_cons,
      List.mem_append, not_or] at hnd
    have h1 : lookup us b' = none := lookup_eq_none_iff.mpr hnd.1.1
    have h2 : lookup vs b' = none := lookup_eq_none_iff.mpr hnd.1.2
    exact .inr ⟨by rw [h1, h2]; rfl, by rw [h1]; rfl⟩
  · rw [if_neg hxb]
    exact .inl rfl

theorem lookup_filter : lookup (bufs.filter fun y => y.blockno ≠ some b) b' =
    if b' = b then none else lookup bufs b' := by
  rw [lookup, List.find?_filter, lookup]
  split
  · rename_i h
    subst h
    rw [List.find?_eq_none]
    intro y _
    simp
  · rename_i h
    congr 1
    funext y
    by_cases hy : y.blockno = some b'
    · simp [hy, h]
    · simp [hy]

/-- Recycling a buffer for a block that is not cached caches no block twice. -/
theorem nodup_recycle {us vs : List Buf} {x' : Buf}
    (hnd : ((us ++ x :: vs).filterMap fun x => x.blockno).Nodup)
    (hb : lookup (us ++ x :: vs) b = none) (hx' : x'.blockno = some b) :
    ((us ++ x' :: vs).filterMap fun x => x.blockno).Nodup := by
  have hb' := lookup_eq_none_iff.mp hb
  rw [List.filterMap_append, List.mem_append, not_or] at hb'
  rw [List.filterMap_append, List.filterMap_cons_some hx', List.nodup_middle, List.nodup_cons]
  rw [List.filterMap_append] at hnd
  rw [List.filterMap_cons] at hnd hb'
  split at hnd
  · rename_i hc
    rw [hc] at hb'
    exact ⟨by rw [List.mem_append, not_or]; exact hb', hnd⟩
  · rename_i c hc
    rw [List.nodup_middle, List.nodup_cons] at hnd
    refine ⟨?_, hnd.2⟩
    rw [hc] at hb'
    simp only [List.mem_cons, not_or] at hb'
    rw [List.mem_append, not_or]
    exact ⟨hb'.1, hb'.2.2⟩

/-- Moving the buffer of a block to the head caches no block twice. -/
theorem nodup_release (hnd : (bufs.filterMap fun x => x.blockno).Nodup) (hx : x.blockno = some b) :
    ((x :: bufs.filter fun y => y.blockno ≠ some b).filterMap fun x => x.blockno).Nodup := by
  have hsub : ((bufs.filter fun y => y.blockno ≠ some b).filterMap fun y => y.blockno).Sublist
      (bufs.filterMap fun y => y.blockno) := List.Sublist.filterMap _ List.filter_sublist
  rw [List.filterMap_cons_some hx, List.nodup_cons]
  refine ⟨?_, hsub.nodup hnd⟩
  rw [List.mem_filterMap]
  rintro ⟨y, hy, hyb⟩
  simp [hyb] at hy

theorem lookup_release (hx : x.blockno = some b) :
    lookup (x :: bufs.filter fun y => y.blockno ≠ some b) b' =
      if b' = b then some x else lookup bufs b' := by
  rw [lookup_cons, hx, lookup_filter]
  by_cases hb : b' = b
  · rw [if_pos (by rw [hb]), if_pos hb]
  · rw [if_neg fun h => hb (Option.some.inj h).symm, if_neg hb, if_neg hb]

end Lists

/-! ### The operations -/

/-- `s'` comes after `s`: its contents are `c`, its dirty blocks `D`, its held blocks `H`, and it
    has written `w` to the disk. -/
structure After (s s' : Machine) (c : Nat → Block) (D H : Nat → Prop) (w : List (Nat × Block)) :
    Prop where
  ok : CacheOk s'
  content : content s' = c
  dirty : ∀ b, Dirty s' b ↔ D b
  held : ∀ b, Held s' b ↔ H b
  disk : s'.disk = applyWrites s.disk w
  writes : s'.writes = s.writes ++ w
  log : s'.log = s.log
  isfull : s'.isfull = s.isfull

/-- Why a buffer operation stops: a panic, or a wait for a buffer that is held, which needs `P`. -/
def Halted (P : Prop) (e : Stop) : Prop := (∃ msg, e = .panic msg) ∨ (e = .deadlock ∧ P)

/-- The operation stopped before anything was written to the disk. -/
def Unwritten (P : Prop) (s : Machine) (e : Stop) (s' : Machine) : Prop :=
  Halted P e ∧ s'.disk = s.disk ∧ s'.writes = s.writes

theorem Halted.mono {P P' : Prop} {e : Stop} (h : Halted P e) (hP : P → P') : Halted P' e :=
  h.imp_right fun h => ⟨h.1, hP h.2⟩

variable {s s' : Machine} {b : Nat}

theorem content_of_some {x : Buf} (h : lookup s.bufs b = some x) : content s b = x.data := by
  rw [content, h]

theorem content_of_none (h : lookup s.bufs b = none) : content s b = s.disk b := by
  rw [content, h]

/-- A block that is not dirty is the same on the disk. -/
theorem CacheOk.content_eq_disk (h : CacheOk s) (hd : ¬ Dirty s b) : content s b = s.disk b := by
  cases hl : lookup s.bufs b with
  | none => exact content_of_none hl
  | some x =>
    rw [content_of_some hl]
    refine h.clean b x hl ?_
    by_contra hx
    exact hd ⟨x, hl, by simpa using hx⟩

theorem CacheOk.lt_of_dirty (h : CacheOk s) (hd : Dirty s b) : b < FSSIZE := by
  obtain ⟨x, hx, _⟩ := hd
  exact (h.named b x hx).2

/-- An update of one buffer that keeps the block numbers and the other observations. -/
theorem CacheOk.setBuf (h : CacheOk s) {f : Buf → Buf} {disk : Nat → Block}
    (hf : ∀ x, (f x).blockno = x.blockno)
    (hnamed : ∀ x, lookup s.bufs b = some x → (f x).valid = true)
    (hclean : ∀ x, lookup s.bufs b = some x → (f x).dirty = false → (f x).data = disk b)
    (hdisk : ∀ b', b' ≠ b → disk b' = s.disk b')
    (hs' : s'.bufs = Fs.setBuf s.bufs b f) (hd' : s'.disk = disk) : CacheOk s' := by
  have hl : ∀ b', lookup s'.bufs b' =
      if b' = b then (lookup s.bufs b).map f else lookup s.bufs b' := by
    intro b'
    rw [hs', lookup_setBuf hf]
  refine ⟨?_, fun b' x hx => ?_, fun b' x hx hd => ?_, fun x hx hd => ?_⟩
  · rw [hs', filterMap_setBuf hf]; exact h.nodup
  · rw [hl] at hx
    split at hx
    · rename_i hb
      subst hb
      obtain ⟨y, hy, rfl⟩ := Option.map_eq_some_iff.mp hx
      exact ⟨hnamed y hy, (h.named b' y hy).2⟩
    · exact h.named b' x hx
  · rw [hl] at hx
    rw [hd']
    split at hx
    · rename_i hb
      subst hb
      obtain ⟨y, hy, rfl⟩ := Option.map_eq_some_iff.mp hx
      exact hclean y hy hd
    · rename_i hb
      rw [hdisk b' hb]
      exact h.clean b' x hx hd
  · rw [hs', mem_setBuf] at hx
    obtain ⟨y, hy, rfl⟩ := hx
    split at hd
    · rename_i hyb
      rw [if_pos hyb, hf, hyb]
      simp
    · rename_i hyb
      rw [if_neg hyb]
      exact h.dirtyNamed y hy hd

/-- What is observed of one updated buffer. -/
theorem observe_setBuf {f : Buf → Buf} (hf : ∀ x, (f x).blockno = x.blockno)
    (hs' : s'.bufs = setBuf s.bufs b f) :
    (∀ x, lookup s.bufs b = some x → content s' b = (f x).data ∧
      (Dirty s' b ↔ (f x).dirty = true) ∧ (Held s' b ↔ (f x).held = true)) ∧
    ∀ b', b' ≠ b → (s'.disk b' = s.disk b' → content s' b' = content s b') ∧
      (Dirty s' b' ↔ Dirty s b') ∧ (Held s' b' ↔ Held s b') := by
  have hl : ∀ b', lookup s'.bufs b' =
      if b' = b then (lookup s.bufs b).map f else lookup s.bufs b' := by
    intro b'
    rw [hs', lookup_setBuf hf]
  refine ⟨fun x hx => ?_, fun b' hb' => ?_⟩
  · have hlb : lookup s'.bufs b = some (f x) := by rw [hl, if_pos rfl, hx]; rfl
    exact ⟨content_of_some hlb, by simp [Dirty, hlb], by simp [Held, hlb]⟩
  · have hlb : lookup s'.bufs b' = lookup s.bufs b' := by rw [hl, if_neg hb']
    refine ⟨fun hd => ?_, by simp [Dirty, hlb], by simp [Held, hlb]⟩
    rw [content, content, hlb, hd]

theorem held_iff {x : Buf} (h : lookup s.bufs b = some x) : Held s b ↔ x.held = true := by
  simp [Held, h]

theorem dirty_iff {x : Buf} (h : lookup s.bufs b = some x) : Dirty s b ↔ x.dirty = true := by
  simp [Dirty, h]

/-- Locking the buffer of a cached block. -/
theorem after_hit (h : CacheOk s) {x : Buf} (hx : lookup s.bufs b = some x)
    (hs' : s' = { s with bufs := setBuf s.bufs b fun x => { x with held := true } }) :
    After s s' (content s) (Dirty s) (fun b' => Held s b' ∨ b' = b) [] := by
  subst hs'
  obtain ⟨hself, hother⟩ := observe_setBuf (f := fun x => { x with held := true })
    (fun _ => rfl) (rfl : ({ s with bufs := setBuf s.bufs b fun x => { x with held := true } } :
      Machine).bufs = _)
  obtain ⟨hc, hd, hh⟩ := hself x hx
  refine ⟨h.setBuf (f := fun x => { x with held := true }) (fun _ => rfl)
    (fun y hy => (h.named b y hy).1) (fun y hy hyd => ?_) (fun _ _ => rfl) rfl rfl, ?_,
    fun b' => ?_, fun b' => ?_, rfl, (List.append_nil _).symm, rfl,
    rfl⟩
  · exact h.clean b y hy hyd
  · funext b'
    by_cases hb : b' = b
    · subst hb; rw [hc, content_of_some hx]
    · exact (hother b' hb).1 rfl
  · by_cases hb : b' = b
    · subst hb; rw [hd, dirty_iff hx]
    · exact (hother b' hb).2.1
  · by_cases hb : b' = b
    · subst hb; simp [hh]
    · rw [(hother b' hb).2.2]; simp [hb]

/-- Recycling a buffer for a block that is not cached, and reading it. -/
theorem after_miss (h : CacheOk s) {us vs : List Buf} {x y : Buf} (hb : lookup s.bufs b = none)
    (hbufs : s.bufs = us ++ x :: vs) (hx : x.held = false ∧ x.dirty = false) (hlt : b < FSSIZE)
    (hy : y.blockno = some b ∧ y.valid = true ∧ y.dirty = false ∧ y.held = true ∧
      y.data = s.disk b)
    (hs' : s' = { s with bufs := us ++ y :: vs }) :
    After s s' (content s) (Dirty s) (fun b' => Held s b' ∨ b' = b) [] := by
  have hnd := h.nodup
  rw [hbufs] at hnd
  obtain ⟨hself, hother⟩ := lookup_recycle hnd (by rw [← hbufs]; exact hb) hy.1
  have hbufs' : s'.bufs = us ++ y :: vs := by rw [hs']
  have hdisk' : s'.disk = s.disk := by rw [hs']
  rw [← hbufs'] at hself
  rw [← hbufs', ← hbufs] at hother
  obtain ⟨hyb, hyv, hyd, hyh, hydata⟩ := hy
  have hout : ¬ Dirty s b ∧ ¬ Held s b := by simp [Dirty, Held, hb]
  refine ⟨⟨?_, fun b' z hz => ?_, fun b' z hz hzd => ?_, fun z hz hzd => ?_⟩, ?_, fun b' => ?_,
    fun b' => ?_, by rw [hs']; rfl, by rw [hs']; exact (List.append_nil _).symm, by rw [hs'],
    by rw [hs']⟩
  · rw [hbufs']
    exact nodup_recycle hnd (by rw [← hbufs]; exact hb) hyb
  · by_cases hbb : b' = b
    · subst hbb
      rw [hself, Option.some.injEq] at hz
      exact ⟨hz ▸ hyv, hlt⟩
    · rcases hother b' hbb with hl | ⟨hl, _⟩
      · rw [hl] at hz; exact h.named b' z hz
      · rw [hl] at hz; cases hz
  · rw [hdisk']
    by_cases hbb : b' = b
    · subst hbb
      rw [hself, Option.some.injEq] at hz
      rw [← hz, hydata]
    · rcases hother b' hbb with hl | ⟨hl, _⟩
      · rw [hl] at hz; exact h.clean b' z hz hzd
      · rw [hl] at hz; cases hz
  · rw [hbufs', List.mem_append, List.mem_cons] at hz
    rcases hz with hz | rfl | hz
    · exact h.dirtyNamed z (by rw [hbufs]; simp [hz]) hzd
    · rw [hyb]; simp
    · exact h.dirtyNamed z (by rw [hbufs]; simp [hz]) hzd
  · funext b'
    by_cases hbb : b' = b
    · subst hbb; rw [content_of_some hself, hydata, content_of_none hb]
    · rcases hother b' hbb with hl | ⟨hl, hold⟩
      · rw [content, content, hl, hdisk']
      · rw [content_of_none hl, content_of_some hold, hdisk', h.clean b' x hold hx.2]
  · by_cases hbb : b' = b
    · subst hbb; rw [dirty_iff hself, hyd]; simp [hout.1]
    · rcases hother b' hbb with hl | ⟨hl, hold⟩
      · simp [Dirty, hl]
      · simp [Dirty, hl, hold, hx.2]
  · by_cases hbb : b' = b
    · subst hbb; simp [held_iff hself, hyh]
    · rcases hother b' hbb with hl | ⟨hl, hold⟩
      · simp [Held, hl, hbb]
      · simp [Held, hl, hold, hx.1, hbb]

/-- `bread` returns the content of the block and locks its buffer; it writes nothing. -/
theorem wp_breadBuf (h : CacheOk s) (b : Nat) :
    wp (breadBuf b) (fun d s' => d = content s b ∧ ¬ Held s b ∧
      After s s' (content s) (Dirty s) (fun b' => Held s b' ∨ b' = b) [])
      (Unwritten (Held s b) s) s := by
  cases hl : lookup s.bufs b with
  | some x =>
    by_cases hx : x.held = true
    · have hget : getBuf b s = .error .deadlock s := by simp only [getBuf, hl, hx, if_true]
      rw [breadBuf, wp_bind, wp_of_error hget]
      exact ⟨.inr ⟨rfl, x, hl, hx⟩, rfl, rfl⟩
    · have hget : getBuf b s =
          .ok () { s with bufs := setBuf s.bufs b fun x => { x with held := true } } := by
        simp only [getBuf, hl, hx, if_false, Bool.false_eq_true]
      have hafter := after_hit h hl rfl
      generalize { s with bufs := setBuf s.bufs b fun x => { x with held := true } } = s₁
        at hget hafter
      have hl₁ : ∃ x₁, lookup s₁.bufs b = some x₁ := by
        obtain ⟨y, hy, _⟩ := (hafter.held b).mpr (.inr rfl)
        exact ⟨y, hy⟩
      obtain ⟨x₁, hx₁⟩ := hl₁
      have hread : readBuf b s₁ = .ok () s₁ := by
        simp only [readBuf, hx₁, (hafter.ok.named b x₁ hx₁).1, if_true]
      have hdata : bufData b s₁ = .ok (content s b) s₁ := by
        rw [← hafter.content, content_of_some hx₁, bufData, hx₁]; rfl
      rw [breadBuf, wp_bind, wp_of_ok hget, wp_bind, wp_of_ok hread, wp_of_ok hdata]
      exact ⟨rfl, by rw [held_iff hl]; exact hx, hafter⟩
  | none =>
    cases hr : recycle b s.bufs with
    | none =>
      have hget : getBuf b s = .error (.panic "bget: no buffers") s := by
        simp only [getBuf, hl, hr]
      rw [breadBuf, wp_bind, wp_of_error hget]
      exact ⟨.inl ⟨_, rfl⟩, rfl, rfl⟩
    | some bufs =>
      have hget : getBuf b s = .ok () { s with bufs := bufs } := by simp only [getBuf, hl, hr]
      obtain ⟨us, x, x', vs, hbufs, rfl, hx, hxb, hxv, hxd, hxh⟩ := recycle_some hr
      have hnd := h.nodup
      rw [hbufs] at hnd
      have hnone : lookup (us ++ x :: vs) b = none := by rw [← hbufs]; exact hl
      obtain ⟨hself, _⟩ := lookup_recycle hnd hnone hxb
      rw [breadBuf, wp_bind, wp_of_ok hget, wp_bind]
      have hread : readBuf b { s with bufs := us ++ x' :: vs } =
          iderw b { s with bufs := us ++ x' :: vs } := by
        simp only [readBuf, hself, hxv, Bool.false_eq_true, if_false]
      by_cases hlt : FSSIZE ≤ b
      · have hide : iderw b { s with bufs := us ++ x' :: vs } =
            .error (.panic "incorrect blockno") { s with bufs := us ++ x' :: vs } := by
          simp [iderw, hself, hlt, hxh, hxv]
        rw [wp_of_error (hread.trans hide)]
        exact ⟨.inl ⟨_, rfl⟩, rfl, rfl⟩
      · -- reading changes only the recycled buffer
        obtain ⟨y, hy, hide⟩ : ∃ y : Buf, (y.blockno = some b ∧ y.valid = true ∧ y.dirty = false ∧
            y.held = true ∧ y.data = s.disk b) ∧ iderw b { s with bufs := us ++ x' :: vs } =
            .ok () { s with bufs := us ++ y :: vs } := by
          refine ⟨{ x' with valid := true, dirty := false, data := s.disk b },
            ⟨hxb, rfl, rfl, hxh, rfl⟩, ?_⟩
          simp [iderw, hself, hlt, hxh, hxv, hxd, setBuf_middle hnone hxb]
        have hafter := after_miss h hl hbufs hx (by omega) hy rfl
        obtain ⟨z, hz, _⟩ := (hafter.held b).mpr (.inr rfl)
        have hdata : bufData b { s with bufs := us ++ y :: vs } =
            .ok (content s b) { s with bufs := us ++ y :: vs } := by
          rw [← hafter.content, content_of_some hz, bufData, hz]; rfl
        rw [wp_of_ok (hread.trans hide), wp_of_ok hdata]
        exact ⟨rfl, by simp [Held, hl], hafter⟩

/-- `brelse` unlocks the buffer. -/
theorem wp_brelse (h : CacheOk s) (hb : Held s b) :
    wp (brelse b) (fun _ s' => After s s' (content s) (Dirty s) (fun b' => Held s b' ∧ b' ≠ b) [])
      (fun _ _ => False) s := by
  obtain ⟨x, hx, hxh⟩ := hb
  have hxb := lookup_blockno hx
  have hrun : brelse b s = .ok () { s with
      bufs := { x with held := false } :: s.bufs.filter fun y => y.blockno ≠ some b } := by
    simp only [brelse, hx, hxh, if_true]
  rw [wp_of_ok hrun]
  generalize hs' : ({ s with
    bufs := { x with held := false } :: s.bufs.filter fun y => y.blockno ≠ some b } : Machine) = s'
  have hbufs' : s'.bufs =
    { x with held := false } :: s.bufs.filter fun y => y.blockno ≠ some b := by rw [← hs']
  have hcons : ({ x with held := false } : Buf).blockno = some b := hxb
  have hself : lookup s'.bufs b = some { x with held := false } := by
    rw [hbufs', lookup_release hcons, if_pos rfl]
  have hother : ∀ b', b' ≠ b → lookup s'.bufs b' = lookup s.bufs b' := by
    intro b' hb'
    rw [hbufs', lookup_release hcons, if_neg hb']
  have hdisk : s'.disk = s.disk := by rw [← hs']
  refine ⟨⟨?_, fun b' z hz => ?_, fun b' z hz hzd => ?_, fun z hz hzd => ?_⟩, ?_, fun b' => ?_,
    fun b' => ?_, by rw [← hs']; rfl, by rw [← hs']; exact (List.append_nil _).symm, by rw [← hs'],
    by rw [← hs']⟩
  · rw [hbufs']
    exact nodup_release h.nodup hcons
  · by_cases hbb : b' = b
    · subst hbb
      rw [hself, Option.some.injEq] at hz
      subst hz
      exact h.named b' x hx
    · rw [hother b' hbb] at hz
      exact h.named b' z hz
  · rw [hdisk]
    by_cases hbb : b' = b
    · subst hbb
      rw [hself, Option.some.injEq] at hz
      subst hz
      exact h.clean b' x hx hzd
    · rw [hother b' hbb] at hz
      exact h.clean b' z hz hzd
  · rw [hbufs', List.mem_cons] at hz
    rcases hz with rfl | hz
    · rw [hxb]; simp
    · exact h.dirtyNamed z (List.mem_of_mem_filter hz) hzd
  · funext b'
    by_cases hbb : b' = b
    · subst hbb; rw [content_of_some hself, content_of_some hx]
    · rw [content, content, hother b' hbb, hdisk]
  · by_cases hbb : b' = b
    · subst hbb; rw [dirty_iff hself, dirty_iff hx]
    · simp [Dirty, hother b' hbb]
  · by_cases hbb : b' = b
    · subst hbb; simp [held_iff hself]
    · simp [Held, hother b' hbb, hbb]

/-- Changing the data of a held buffer and marking it dirty. -/
theorem wp_store (h : CacheOk s) (hb : Held s b) (d : Block) :
    wp (do setData b d; setDirty b : M Unit) (fun _ s' => After s s' (Function.update (content s) b d)
      (fun b' => Dirty s b' ∨ b' = b) (Held s) []) (fun _ _ => False) s := by
  obtain ⟨x, hx, hxh⟩ := hb
  rw [wp_bind, setData, wp_modify, setDirty, wp_modify]
  have hset : setBuf (setBuf s.bufs b fun x => { x with data := d }) b
      (fun x => { x with dirty := true }) =
      setBuf s.bufs b fun x => { x with data := d, dirty := true } := by
    simp only [setBuf, List.map_map]
    refine List.map_congr_left fun y _ => ?_
    by_cases hy : y.blockno = some b <;> simp [hy]
  simp only [hset]
  generalize hs' : ({ s with bufs := setBuf s.bufs b fun x =>
    { x with data := d, dirty := true } } : Machine) = s'
  have hbufs' : s'.bufs = setBuf s.bufs b fun x => { x with data := d, dirty := true } := by
    rw [← hs']
  have hdisk' : s'.disk = s.disk := by rw [← hs']
  obtain ⟨hself, hother⟩ := observe_setBuf (f := fun x => { x with data := d, dirty := true })
    (fun _ => rfl) hbufs'
  obtain ⟨hc, hd, hh⟩ := hself x hx
  refine ⟨h.setBuf (f := fun x => { x with data := d, dirty := true }) (fun _ => rfl)
    (fun y hy => (h.named b y hy).1) (fun y _ hyd => by simp at hyd) (fun _ _ => rfl) hbufs' hdisk',
    ?_, fun b' => ?_, fun b' => ?_, by rw [← hs']; rfl,
    by rw [← hs']; exact (List.append_nil _).symm, by rw [← hs'], by rw [← hs']⟩
  · funext b'
    by_cases hbb : b' = b
    · subst hbb; rw [hc, Function.update_self]
    · rw [Function.update_of_ne hbb, (hother b' hbb).1 (by rw [hdisk'])]
  · by_cases hbb : b' = b
    · subst hbb; simp [hd]
    · rw [(hother b' hbb).2.1]; simp [hbb]
  · by_cases hbb : b' = b
    · subst hbb; rw [hh, held_iff hx]
    · exact (hother b' hbb).2.2

/-- Changing the data of a held buffer and writing it to the disk. -/
theorem wp_writeBack (h : CacheOk s) (hb : Held s b) (d : Block) :
    wp (do setData b d; bwrite b : M Unit) (fun _ s' => After s s' (Function.update (content s) b d)
      (fun b' => Dirty s b' ∧ b' ≠ b) (Held s) [(b, d)]) (fun _ _ => False) s := by
  obtain ⟨x, hx, hxh⟩ := hb
  have hlt := (h.named b x hx).2
  rw [wp_bind, setData, wp_modify]
  have hl₁ : lookup (setBuf s.bufs b fun x => { x with data := d }) b =
      some { x with data := d } := by
    rw [lookup_setBuf fun _ => by rfl, if_pos rfl, hx]; rfl
  have hl₂ : lookup (setBuf (setBuf s.bufs b fun x => { x with data := d }) b
      fun x => { x with dirty := true }) b = some { x with data := d, dirty := true } := by
    rw [lookup_setBuf fun _ => by rfl, if_pos rfl, hl₁]; rfl
  have hset : setBuf (setBuf (setBuf s.bufs b fun x => { x with data := d }) b
      fun x => { x with dirty := true }) b (fun x => { x with valid := true, dirty := false }) =
      setBuf s.bufs b fun x => { x with data := d, valid := true, dirty := false } := by
    simp only [setBuf, List.map_map]
    refine List.map_congr_left fun y _ => ?_
    by_cases hy : y.blockno = some b <;> simp [hy]
  have hrun : bwrite b { s with bufs := setBuf s.bufs b fun x => { x with data := d } } =
      .ok () { s with
        bufs := setBuf s.bufs b fun x => { x with data := d, valid := true, dirty := false }
        disk := Function.update s.disk b d
        writes := s.writes ++ [(b, d)] } := by
    have hhold : holding
        { s with bufs := setBuf s.bufs b fun x => { x with data := d } } b = true := by
      simp [holding, hl₁, hxh]
    rw [bwrite, if_pos hhold]
    have hdirty : setDirty b { s with bufs := setBuf s.bufs b fun x => { x with data := d } } =
        .ok () { s with
          bufs := setBuf (setBuf s.bufs b fun x => { x with data := d }) b
            fun x => { x with dirty := true } } := rfl
    rw [bind_ok hdirty, iderw]
    simp only [hl₂, hxh, Bool.true_eq_false, if_false, and_false, if_neg (Nat.not_le.mpr hlt),
      if_true, hset]
  rw [wp_of_ok hrun]
  generalize hs' : ({ s with
    bufs := setBuf s.bufs b fun x => { x with data := d, valid := true, dirty := false }
    disk := Function.update s.disk b d
    writes := s.writes ++ [(b, d)] } : Machine) = s'
  have hbufs' : s'.bufs = setBuf s.bufs b
    fun x => { x with data := d, valid := true, dirty := false } := by rw [← hs']
  have hdisk' : s'.disk = Function.update s.disk b d := by rw [← hs']
  obtain ⟨hself, hother⟩ := observe_setBuf
    (f := fun x => { x with data := d, valid := true, dirty := false }) (fun _ => rfl) hbufs'
  obtain ⟨hc, hd, hh⟩ := hself x hx
  refine ⟨h.setBuf (f := fun x => { x with data := d, valid := true, dirty := false })
    (fun _ => rfl) (fun _ _ => rfl) (fun _ _ _ => by rw [Function.update_self])
    (fun b' hb' => Function.update_of_ne hb' _ _) hbufs' hdisk',
    ?_, fun b' => ?_, fun b' => ?_, by rw [← hs']; rfl, by rw [← hs'], by rw [← hs'], by rw [← hs']⟩
  · funext b'
    by_cases hbb : b' = b
    · subst hbb; rw [hc, Function.update_self]
    · rw [Function.update_of_ne hbb, (hother b' hbb).1 (by rw [hdisk', Function.update_of_ne hbb])]
  · by_cases hbb : b' = b
    · subst hbb; simp [hd]
    · rw [(hother b' hbb).2.1]; simp [hbb]
  · by_cases hbb : b' = b
    · subst hbb; rw [hh, held_iff hx]
    · exact (hother b' hbb).2.2

end Xv6.Fs
