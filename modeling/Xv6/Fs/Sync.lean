import Xv6.Fs.Buffers

namespace Xv6.Fs

open Xv6.Lib

/-!
# Log — what `sync` writes

While `sync` runs, the buffers it reads are read through `bget`, whose own calls of `sync`
return at once.  Started with no buffer held, each part of `sync` copies one block and leaves no
buffer held, so that a run of `sync` is a list of block writes:

* `commitWrites` — the copies to the log, the header, the copies to the home blocks and the
  cleared header, for given block numbers and contents;
* `wp_sync` — `sync` issues these writes, in this order, for the blocks that were dirty, or a
  prefix of them when it does not come back; when it returns, nothing is dirty any more.
-/

/-! ### Lists of writes -/

section Writes

variable {d : Nat → Block} {ws : List (Nat × Block)} {b : Nat} {v : Block}

theorem applyWrites_of_not_mem (h : ∀ w ∈ ws, w.1 ≠ b) : applyWrites d ws b = d b := by
  induction ws generalizing d with
  | nil => rfl
  | cons w ws ih =>
    show applyWrites (Function.update d w.1 w.2) ws b = d b
    rw [ih fun u hu => h u (by simp [hu]), Function.update_of_ne (Ne.symm (h w (by simp)))]

theorem applyWrites_of_mem (h : (b, v) ∈ ws) (hu : ∀ u, (b, u) ∈ ws → u = v) :
    applyWrites d ws b = v := by
  induction ws generalizing d with
  | nil => simp at h
  | cons w ws ih =>
    show applyWrites (Function.update d w.1 w.2) ws b = v
    by_cases hm : (b, v) ∈ ws
    · exact ih hm fun u hu' => hu u (by simp [hu'])
    · have hw : w = (b, v) := by
        rcases List.mem_cons.mp h with h | h
        · exact h.symm
        · exact absurd h hm
      subst hw
      rw [applyWrites_of_not_mem, Function.update_self]
      rintro ⟨b', u⟩ hw rfl
      have := hu u (by simp [hw])
      subst this
      exact hm hw

theorem applyWrites_singleton : applyWrites d [(b, v)] = Function.update d b v := rfl

end Writes

/-- The copies of the blocks `bs`, with contents `c`, to the first `n` log blocks. -/
def logWrites (start : Nat) (bs : List Nat) (c : Nat → Block) (n : Nat) : List (Nat × Block) :=
  (List.range n).map fun i => (start + i + 1, c (bs.getD i 0))

/-- The copies to the first `n` home blocks. -/
def homeWrites (bs : List Nat) (c : Nat → Block) (n : Nat) : List (Nat × Block) :=
  (List.range n).map fun i => (bs.getD i 0, c (bs.getD i 0))

/-- All writes of a commit of the blocks `bs` with contents `c`. -/
def commitWrites (start : Nat) (bs : List Nat) (c : Nat → Block) : List (Nat × Block) :=
  logWrites start bs c bs.length ++ [(start, setHeader (c start) bs)] ++
    homeWrites bs c bs.length ++ [(start, setHeader (setHeader (c start) bs) [])]

theorem logWrites_succ (start : Nat) (bs : List Nat) (c : Nat → Block) (n : Nat) :
    logWrites start bs c (n + 1) =
      logWrites start bs c n ++ [(start + n + 1, c (bs.getD n 0))] := by
  simp [logWrites, List.range_succ]

theorem homeWrites_succ (bs : List Nat) (c : Nat → Block) (n : Nat) :
    homeWrites bs c (n + 1) = homeWrites bs c n ++ [(bs.getD n 0, c (bs.getD n 0))] := by
  simp [homeWrites, List.range_succ]

theorem mem_logWrites {start : Nat} {bs : List Nat} {c : Nat → Block} {n : Nat}
    {w : Nat × Block} :
    w ∈ logWrites start bs c n ↔ ∃ i < n, w = (start + i + 1, c (bs.getD i 0)) := by
  simp [logWrites, eq_comm]

theorem mem_homeWrites {bs : List Nat} {c : Nat → Block} {n : Nat} {w : Nat × Block} :
    w ∈ homeWrites bs c n ↔ ∃ i < n, w = (bs.getD i 0, c (bs.getD i 0)) := by
  simp [homeWrites, eq_comm]

theorem getD_mem {bs : List Nat} {i : Nat} (h : i < bs.length) : bs.getD i 0 ∈ bs := by
  rw [List.getD_eq_getElem?_getD, List.getElem?_eq_getElem h]
  exact List.getElem_mem h

/-! ### Composition -/

section After

variable {s s' s'' : Machine} {c c' : Nat → Block} {D D' H H' : Nat → Prop}
  {w w' : List (Nat × Block)}

theorem After.trans (h : After s s' c D H w) (h' : After s' s'' c' D' H' w') :
    After s s'' c' D' H' (w ++ w') :=
  ⟨h'.ok, h'.content, h'.dirty, h'.held, by rw [h'.disk, h.disk, applyWrites_append],
    by rw [h'.writes, h.writes, List.append_assoc], h'.log.trans h.log, h'.isfull.trans h.isfull⟩

theorem After.congr (h : After s s' c D H w) (hc : c = c') (hD : ∀ b, D b ↔ D' b)
    (hH : ∀ b, H b ↔ H' b) : After s s' c' D' H' w :=
  ⟨h.ok, h.content.trans hc, fun b => (h.dirty b).trans (hD b), fun b => (h.held b).trans (hH b),
    h.disk, h.writes, h.log, h.isfull⟩

theorem After.refl (h : CacheOk s) : After s s (Fs.content s) (Dirty s) (Held s) [] :=
  ⟨h, rfl, fun _ => Iff.rfl, fun _ => Iff.rfl, rfl, (List.append_nil _).symm, rfl, rfl⟩

end After

/-- The operation stopped after a prefix of the writes `full` has been issued since `s`. -/
def Issued (P : Prop) (s : Machine) (full : List (Nat × Block)) (e : Stop) (s' : Machine) : Prop :=
  Halted P e ∧ ∃ v, v <+: full ∧ s'.disk = applyWrites s.disk v ∧ s'.writes = s.writes ++ v

/-- No buffer is held. -/
def Quiet (s : Machine) : Prop := ∀ b, ¬ Held s b

/-- A `sync` that is called while a commit is in progress, and returns -1 at once. -/
def Nested (m : M Int) : Prop := ∀ s, s.log.committing = true → m s = .ok (-1) s

theorem nested_syncDepth (d : Nat) : Nested (syncDepth (d + 1)) := by
  intro s hs
  simp only [syncDepth, hs, if_true]

variable {s : Machine} {m : M Int}

/-- During a commit `bget` does not start another one. -/
theorem autoSync_nested (hm : Nested m) (hs : s.log.committing = true) :
    autoSync m s = .ok () s := by
  rw [autoSync]
  split
  · rename_i hfull
    have h1 : (modify fun s : Machine => { s with isfull := true } : M PUnit) s =
        .ok () { s with isfull := true } := rfl
    have h2 : m { s with isfull := true } = .ok (-1) { s with isfull := true } := hm _ hs
    refine (bind_ok h1).trans ((bind_ok h2).trans ?_)
    show EStateM.Result.ok () { { s with isfull := true } with isfull := false } = _
    rw [← hfull.1]
  · rfl

/-- From `s`, and from machines with no more dirty blocks, `bget` does not call `sync` or the call
    does nothing. -/
def Passive (m : M Int) (s : Machine) : Prop :=
  ∀ s', CacheOk s' → s'.log = s.log → (∀ b, Dirty s' b → Dirty s b) → autoSync m s' = .ok () s'

theorem passive_of_committing (hm : Nested m) (hs : s.log.committing = true) : Passive m s :=
  fun _ _ hlog _ => autoSync_nested hm (by rw [hlog, hs])

theorem Passive.after {s' : Machine} {c : Nat → Block} {D H : Nat → Prop}
    {w : List (Nat × Block)} (h : Passive m s) (h' : After s s' c D H w)
    (hD : ∀ b, D b → Dirty s b) : Passive m s' :=
  fun s'' hok hlog hd => h s'' hok (hlog.trans h'.log) fun b hb => hD b ((h'.dirty b).mp (hd b hb))

theorem wp_bread_passive (hp : Passive m s) (h : CacheOk s) (b : Nat) :
    wp (bread m b) (fun d s' => d = content s b ∧ ¬ Held s b ∧
      After s s' (content s) (Dirty s) (fun b' => Held s b' ∨ b' = b) [])
      (Unwritten (Held s b) s) s := by
  have hbread : bread m b s = breadBuf b s := bind_ok (hp s h rfl fun _ hb => hb)
  rw [wp, hbread]
  exact wp_breadBuf h b

/-! ### Copying one block -/

/-- The common core of `write_log` and `install_trans`: block `t` gets a content and is written,
    while the buffer of block `a` is held as well. -/
theorem wp_writeTwo {s₀ : Machine} {a t : Nat} {d : Block} {x y : Nat} (h : CacheOk s)
    (hs₀ : After s₀ s (content s₀) (Dirty s₀) (fun b => Held s₀ b ∨ b = a ∨ b = t) [])
    (ha : ¬ Held s₀ a) (ht : ¬ Held s₀ t) (hne : a ≠ t)
    (hxy : (x = a ∧ y = t) ∨ (x = t ∧ y = a)) :
    wp (do setData t d; bwrite t; brelse x; brelse y : M Unit)
      (fun _ s' => After s₀ s' (Function.update (content s₀) t d) (fun b => Dirty s₀ b ∧ b ≠ t)
        (Held s₀) [(t, d)]) (fun _ _ => False) s := by
  have hassoc : (do setData t d; bwrite t; brelse x; brelse y : M Unit) =
      (do (do setData t d; bwrite t : M Unit); brelse x; brelse y : M Unit) := by
    simp only [bind_assoc]
  rw [hassoc, wp_bind]
  refine wp_mono (wp_writeBack h ((hs₀.held t).mpr (.inr (.inr rfl))) d) (fun _ s₁ h₁ => ?_)
    fun _ _ h => h
  have hheld₁ : ∀ b, Held s₁ b ↔ Held s₀ b ∨ b = a ∨ b = t :=
    fun b => (h₁.held b).trans (hs₀.held b)
  have hx : Held s₁ x := by
    rw [hheld₁]
    rcases hxy with ⟨rfl, rfl⟩ | ⟨rfl, rfl⟩
    · exact .inr (.inl rfl)
    · exact .inr (.inr rfl)
  rw [wp_bind]
  refine wp_mono (wp_brelse h₁.ok hx) (fun _ s₂ h₂ => ?_) fun _ _ h => h
  have hxfree : ¬ Held s₀ x ∧ ¬ Held s₀ y ∧ y ≠ x := by
    rcases hxy with ⟨rfl, rfl⟩ | ⟨rfl, rfl⟩
    · exact ⟨ha, ht, hne.symm⟩
    · exact ⟨ht, ha, hne⟩
  have hheld₂ : ∀ b, Held s₂ b ↔ Held s₀ b ∨ b = y := by
    intro b
    have hab : b = a ∨ b = t ↔ b = x ∨ b = y := by
      rcases hxy with ⟨rfl, rfl⟩ | ⟨rfl, rfl⟩
      · exact Iff.rfl
      · exact or_comm
    rw [h₂.held, hheld₁, hab]
    constructor
    · rintro ⟨hb | hb | hb, hbx⟩
      · exact .inl hb
      · exact absurd hb hbx
      · exact .inr hb
    · rintro (hb | rfl)
      · exact ⟨.inl hb, fun h => hxfree.1 (h ▸ hb)⟩
      · exact ⟨.inr (.inr rfl), hxfree.2.2⟩
  refine wp_mono (wp_brelse h₂.ok ((hheld₂ y).mpr (.inr rfl))) (fun _ s₃ h₃ => ?_) fun _ _ h => h
  have hall := ((hs₀.trans h₁).trans h₂).trans h₃
  refine (hall.congr ?_ (fun b => ?_) fun b => ?_)
  · rw [h₂.content, h₁.content, hs₀.content]
  · rw [h₂.dirty, h₁.dirty, hs₀.dirty]
  · rw [hheld₂]
    constructor
    · rintro ⟨hb | hb, hby⟩
      · exact hb
      · exact absurd hb hby
    · exact fun hb => ⟨.inl hb, fun h => hxfree.2.1 (h ▸ hb)⟩

variable {start : Nat} {lh : List Nat} {P : Prop}

/-- One round of `write_log`. -/
theorem wp_writeLogOne (hp : Passive m s) (h : CacheOk s) (hP : ∀ b, Held s b → P) {i : Nat}
    (hne : s.log.lh.getD i 0 ≠ s.log.start + i + 1) :
    wp (writeLogOne m i) (fun _ s' => After s s'
      (Function.update (content s) (s.log.start + i + 1) (content s (s.log.lh.getD i 0)))
      (fun b => Dirty s b ∧ b ≠ s.log.start + i + 1) (Held s)
      [(s.log.start + i + 1, content s (s.log.lh.getD i 0))]) (Unwritten P s) s := by
  rw [writeLogOne, wp_bind, wp_get]
  dsimp only
  rw [wp_bind]
  refine wp_mono (wp_bread_passive hp h _) (fun _ s₁ h₁ => ?_)
    fun _ _ hs' => ⟨hs'.1.mono (hP _), hs'.2⟩
  obtain ⟨_, hfree, h₁⟩ := h₁
  have hp₁ : Passive m s₁ := hp.after h₁ fun _ hb => hb
  have hfree₁ : Held s₁ (s.log.lh.getD i 0) ↔ Held s (s.log.lh.getD i 0) := by
    rw [h₁.held, or_iff_left hne]
  rw [wp_bind]
  refine wp_mono (wp_bread_passive hp₁ h₁.ok _) (fun d s₂ h₂ => ?_) fun e s₂ h₂ => ?_
  · obtain ⟨hd, hfree₂, h₂⟩ := h₂
    rw [hfree₁] at hfree₂
    rw [h₁.content] at hd
    subst hd
    refine wp_mono (wp_writeTwo h₂.ok ((h₁.trans h₂).congr h₁.content (fun b => h₁.dirty b)
      fun b => ?_) hfree₂ hfree hne (.inl ⟨rfl, rfl⟩)) (fun _ _ h => h) fun _ _ h => h.elim
    rw [h₁.held, or_assoc, or_comm (a := b = _)]
  · exact ⟨h₂.1.mono fun hb => hP _ (hfree₁.mp hb), h₂.2.1.trans h₁.disk, h₂.2.2.trans (by simpa using h₁.writes)⟩

/-- One round of `install_trans`. -/
theorem wp_installOne (hp : Passive m s) (h : CacheOk s) (hP : ∀ b, Held s b → P) {i : Nat}
    (hne : s.log.lh.getD i 0 ≠ s.log.start + i + 1) :
    wp (installOne m i) (fun _ s' => After s s'
      (Function.update (content s) (s.log.lh.getD i 0) (content s (s.log.start + i + 1)))
      (fun b => Dirty s b ∧ b ≠ s.log.lh.getD i 0) (Held s)
      [(s.log.lh.getD i 0, content s (s.log.start + i + 1))]) (Unwritten P s) s := by
  rw [installOne, wp_bind, wp_get]
  dsimp only
  rw [wp_bind]
  refine wp_mono (wp_bread_passive hp h _) (fun d s₁ h₁ => ?_)
    fun _ _ hs' => ⟨hs'.1.mono (hP _), hs'.2⟩
  obtain ⟨hd, hfree, h₁⟩ := h₁
  subst hd
  have hp₁ : Passive m s₁ := hp.after h₁ fun _ hb => hb
  have hfree₁ : Held s₁ (s.log.lh.getD i 0) ↔ Held s (s.log.lh.getD i 0) := by
    rw [h₁.held, or_iff_left hne]
  rw [wp_bind]
  refine wp_mono (wp_bread_passive hp₁ h₁.ok _) (fun _ s₂ h₂ => ?_) fun e s₂ h₂ => ?_
  · obtain ⟨_, hfree₂, h₂⟩ := h₂
    rw [hfree₁] at hfree₂
    refine wp_mono (wp_writeTwo h₂.ok ((h₁.trans h₂).congr h₁.content (fun b => h₁.dirty b)
      fun b => ?_) hfree hfree₂ hne.symm (.inl ⟨rfl, rfl⟩)) (fun _ _ h => h) fun _ _ h => h.elim
    rw [h₁.held, or_assoc]
  · exact ⟨h₂.1.mono fun hb => hP _ (hfree₁.mp hb), h₂.2.1.trans h₁.disk, h₂.2.2.trans (by simpa using h₁.writes)⟩

/-- `write_head`. -/
theorem wp_writeHead (hp : Passive m s) (h : CacheOk s) (hP : ∀ b, Held s b → P) :
    wp (writeHead m) (fun _ s' => After s s'
      (Function.update (content s) s.log.start (setHeader (content s s.log.start) s.log.lh))
      (fun b => Dirty s b ∧ b ≠ s.log.start) (Held s)
      [(s.log.start, setHeader (content s s.log.start) s.log.lh)]) (Unwritten P s) s := by
  rw [writeHead, wp_bind, wp_get, wp_bind]
  refine wp_mono (wp_bread_passive hp h _) (fun d s₁ h₁ => ?_)
    fun _ _ hs' => ⟨hs'.1.mono (hP _), hs'.2⟩
  obtain ⟨hd, hfree, h₁⟩ := h₁
  subst hd
  have hassoc : (do
      setData s.log.start (setHeader (content s s.log.start) s.log.lh)
      bwrite s.log.start
      brelse s.log.start : M Unit) = (do
      (do setData s.log.start (setHeader (content s s.log.start) s.log.lh)
          bwrite s.log.start : M Unit)
      brelse s.log.start : M Unit) := by
    simp only [bind_assoc]
  rw [hassoc, wp_bind]
  refine wp_mono (wp_writeBack h₁.ok ((h₁.held _).mpr (.inr rfl)) _) (fun _ s₂ h₂ => ?_)
    fun _ _ h => h.elim
  have hheld₂ : ∀ b, Held s₂ b ↔ Held s b ∨ b = s.log.start :=
    fun b => (h₂.held b).trans (h₁.held b)
  refine wp_mono (wp_brelse h₂.ok ((hheld₂ _).mpr (.inr rfl))) (fun _ s₃ h₃ => ?_) fun _ _ h => h.elim
  refine ((h₁.trans h₂).trans h₃).congr ?_ (fun b => ?_) fun b => ?_
  · rw [h₂.content, h₁.content]
  · rw [h₂.dirty, h₁.dirty]
  · rw [hheld₂]
    constructor
    · rintro ⟨hb | hb, hbs⟩
      · exact hb
      · exact absurd hb hbs
    · exact fun hb => ⟨.inl hb, fun h => hfree (h ▸ hb)⟩

/-! ### The loops -/

theorem logWrites_isPrefix {start : Nat} {bs : List Nat} {c : Nat → Block} {i n : Nat}
    (h : i ≤ n) : logWrites start bs c i <+: logWrites start bs c n := by
  induction n, h using Nat.le_induction with
  | base => exact List.prefix_refl _
  | succ n _ ih => rw [logWrites_succ]; exact ih.trans (List.prefix_append _ _)

theorem homeWrites_isPrefix {bs : List Nat} {c : Nat → Block} {i n : Nat} (h : i ≤ n) :
    homeWrites bs c i <+: homeWrites bs c n := by
  induction n, h using Nat.le_induction with
  | base => exact List.prefix_refl _
  | succ n _ ih => rw [homeWrites_succ]; exact ih.trans (List.prefix_append _ _)

/-- Stopping before the next write leaves a prefix of the writes. -/
theorem Issued.of_unwritten {s s' s'' : Machine} {e : Stop} {c : Nat → Block} {D H : Nat → Prop}
    {v full : List (Nat × Block)} (h : After s s' c D H v) (h' : Unwritten P s' e s'')
    (hv : v <+: full) : Issued P s full e s'' :=
  ⟨h'.1, v, hv, h'.2.1.trans h.disk, h'.2.2.trans h.writes⟩

/-- Writes of a later part are writes of the whole. -/
theorem Issued.of_after {s s' s'' : Machine} {e : Stop} {c : Nat → Block} {D H : Nat → Prop}
    {v w full : List (Nat × Block)} (h : After s s' c D H v) (h' : Issued P s' w e s'')
    (hv : v ++ w <+: full) : Issued P s full e s'' := by
  obtain ⟨he, u, hu, hd, hw⟩ := h'
  refine ⟨he, v ++ u, ((List.prefix_append_right_inj v).mpr hu).trans hv, ?_, ?_⟩
  · rw [hd, h.disk, applyWrites_append]
  · rw [hw, h.writes, List.append_assoc]

theorem Issued.mono {s s' : Machine} {e : Stop} {w full : List (Nat × Block)} (h : Issued P s w e s')
    (hw : w <+: full) : Issued P s full e s' := by
  obtain ⟨he, u, hu, h⟩ := h
  exact ⟨he, u, hu.trans hw, h⟩

theorem applyWrites_snoc {d : Nat → Block} {ws : List (Nat × Block)} {b : Nat} {v : Block} :
    applyWrites d (ws ++ [(b, v)]) = Function.update (applyWrites d ws) b v := by
  rw [applyWrites_append]; rfl

/-- `write_log` copies the logged blocks, whose home is not in the log, to the log. -/
theorem wp_writeLog (hp : Passive m s) (h : CacheOk s) (hP : ∀ b, Held s b → P)
    (hlh : s.log.lh = lh) (hstart : s.log.start = start)
    (hhome : ∀ b ∈ lh, ∀ i < lh.length, b ≠ start + i + 1) :
    wp (writeLog m) (fun _ s' => After s s'
      (applyWrites (content s) (logWrites start lh (content s) lh.length))
      (fun b => Dirty s b ∧ ∀ i < lh.length, b ≠ start + i + 1) (Held s)
      (logWrites start lh (content s) lh.length))
      (Issued P s (logWrites start lh (content s) lh.length)) s := by
  rw [writeLog, wp_bind, wp_get, hlh]
  refine wp_forUpTo (I := fun i s' => After s s'
      (applyWrites (content s) (logWrites start lh (content s) i))
      (fun b => Dirty s b ∧ ∀ j < i, b ≠ start + j + 1) (Held s)
      (logWrites start lh (content s) i)) ?_ fun i s₁ hi h₁ => ?_
  · exact (After.refl h).congr rfl (fun b => by simp) fun _ => Iff.rfl
  · have hp₁ : Passive m s₁ := hp.after h₁ fun _ hb => hb.1
    have hP₁ : ∀ b, Held s₁ b → P := fun b hb => hP b ((h₁.held b).mp hb)
    have hne : lh.getD i 0 ≠ start + i + 1 := hhome _ (getD_mem hi) i hi
    refine wp_mono (wp_writeLogOne hp₁ h₁.ok hP₁ (by rw [h₁.log, hlh, hstart]; exact hne))
      (fun _ s₂ h₂ => ?_) fun e s₂ h₂ =>
      Issued.of_unwritten h₁ h₂ (logWrites_isPrefix hi.le)
    rw [h₁.log, hlh, hstart] at h₂
    -- the block that is copied has not been touched
    have hsrc : content s₁ (lh.getD i 0) = content s (lh.getD i 0) := by
      rw [h₁.content, applyWrites_of_not_mem]
      intro w hw
      obtain ⟨j, hj, rfl⟩ := mem_logWrites.mp hw
      exact fun heq => hhome _ (getD_mem hi) j (by omega) heq.symm
    rw [hsrc] at h₂
    rw [logWrites_succ]
    refine (h₁.trans h₂).congr ?_ (fun b => ?_) fun b => h₁.held b
    · rw [h₁.content, applyWrites_snoc]
    · rw [h₁.dirty, Nat.forall_lt_succ_right, and_assoc]

/-- `install_trans` copies the log blocks, which still have the contents `c`, to their homes. -/
theorem wp_installTrans (hp : Passive m s) (h : CacheOk s) (hP : ∀ b, Held s b → P)
    (hlh : s.log.lh = lh) (hstart : s.log.start = start)
    (hhome : ∀ b ∈ lh, ∀ i < lh.length, b ≠ start + i + 1) {c : Nat → Block}
    (hc : ∀ i < lh.length, content s (start + i + 1) = c (lh.getD i 0)) :
    wp (installTrans m) (fun _ s' => After s s'
      (applyWrites (content s) (homeWrites lh c lh.length))
      (fun b => Dirty s b ∧ ∀ i < lh.length, b ≠ lh.getD i 0) (Held s)
      (homeWrites lh c lh.length)) (Issued P s (homeWrites lh c lh.length)) s := by
  rw [installTrans, wp_bind, wp_get, hlh]
  refine wp_forUpTo (I := fun i s' => After s s'
      (applyWrites (content s) (homeWrites lh c i))
      (fun b => Dirty s b ∧ ∀ j < i, b ≠ lh.getD j 0) (Held s)
      (homeWrites lh c i)) ?_ fun i s₁ hi h₁ => ?_
  · exact (After.refl h).congr rfl (fun b => by simp) fun _ => Iff.rfl
  · have hp₁ : Passive m s₁ := hp.after h₁ fun _ hb => hb.1
    have hP₁ : ∀ b, Held s₁ b → P := fun b hb => hP b ((h₁.held b).mp hb)
    have hne : lh.getD i 0 ≠ start + i + 1 := hhome _ (getD_mem hi) i hi
    refine wp_mono (wp_installOne hp₁ h₁.ok hP₁ (by rw [h₁.log, hlh, hstart]; exact hne))
      (fun _ s₂ h₂ => ?_) fun e s₂ h₂ =>
      Issued.of_unwritten h₁ h₂ (homeWrites_isPrefix hi.le)
    rw [h₁.log, hlh, hstart] at h₂
    have hsrc : content s₁ (start + i + 1) = c (lh.getD i 0) := by
      rw [h₁.content, applyWrites_of_not_mem, hc i hi]
      intro w hw
      obtain ⟨j, hj, rfl⟩ := mem_homeWrites.mp hw
      exact hhome _ (getD_mem (by omega)) i hi
    rw [hsrc] at h₂
    rw [homeWrites_succ]
    refine (h₁.trans h₂).congr ?_ (fun b => ?_) fun b => h₁.held b
    · rw [h₁.content, applyWrites_snoc]
    · rw [h₁.dirty, Nat.forall_lt_succ_right, and_assoc]

/-! ### Logging the dirty buffers -/

/-- The block is not in the log area. -/
def Log.Outside (l : Log) (b : Nat) : Prop := b < l.start ∨ l.start + l.size ≤ b

/-- Setting the flag of a dirty buffer does nothing. -/
theorem setBuf_of_dirty (h : CacheOk s) {b : Nat} (hb : Dirty s b) :
    setBuf s.bufs b (fun x => { x with dirty := true }) = s.bufs := by
  obtain ⟨y, hy, hyd⟩ := hb
  rw [setBuf, List.map_congr_left (g := id), List.map_id]
  intro x hx
  by_cases hxb : x.blockno = some b
  · have hxy := lookup_of_mem h.nodup hx hxb
    rw [hy, Option.some.injEq] at hxy
    subst hxy
    rw [if_pos hxb, id, ← hyd]
  · rw [if_neg hxb]; rfl

theorem CacheOk.mem_dirtyBlocks (h : CacheOk s) {b : Nat} :
    b ∈ dirtyBlocks s.bufs ↔ Dirty s b := by
  rw [dirtyBlocks, List.mem_filterMap]
  constructor
  · rintro ⟨x, hx, hxb⟩
    rw [List.mem_filter] at hx
    exact ⟨x, lookup_of_mem h.nodup hx.1 hxb, hx.2⟩
  · rintro ⟨x, hx, hxd⟩
    exact ⟨x, List.mem_filter.mpr ⟨lookup_mem hx, hxd⟩, lookup_blockno hx⟩

theorem CacheOk.nodup_dirtyBlocks (h : CacheOk s) : (dirtyBlocks s.bufs).Nodup :=
  (List.Sublist.filterMap _ List.filter_sublist).nodup h.nodup

/-- Every dirty buffer has a block number, so that buffers and blocks can be counted alike. -/
theorem CacheOk.length_dirtyBlocks (h : CacheOk s) :
    (dirtyBlocks s.bufs).length = (s.bufs.filter fun x => x.dirty).length := by
  have hall : ∀ x ∈ s.bufs.filter fun x => x.dirty, x.blockno.isSome = true := by
    intro x hx
    rw [List.mem_filter] at hx
    exact Option.isSome_iff_ne_none.mpr (h.dirtyNamed x hx.1 hx.2)
  rw [dirtyBlocks]
  generalize s.bufs.filter (fun x => x.dirty) = xs at hall
  induction xs with
  | nil => rfl
  | cons x xs ih =>
    obtain ⟨b, hb⟩ := Option.isSome_iff_exists.mp (hall x (by simp))
    rw [List.filterMap_cons_some hb, List.length_cons, List.length_cons,
      ih fun y hy => hall y (by simp [hy])]

theorem logWrite_eq (h : CacheOk s) {b : Nat} (hb : Dirty s b) (hnew : b ∉ s.log.lh) :
    logWrite b s =
      if LOGSIZE ≤ s.log.lh.length ∨ s.log.size ≤ s.log.lh.length + 1 then
        .error (.panic "too big a transaction") s
      else .ok () { s with log := { s.log with lh := s.log.lh ++ [b] } } := by
  rw [logWrite, setBuf_of_dirty h hb, if_neg hnew]

/-- Logging dirty blocks appends them to the header, which stays smaller than the log. -/
theorem wp_logAll (h : CacheOk s) {bs : List Nat} (hbs : ∀ b ∈ bs, Dirty s b)
    (hnd : (s.log.lh ++ bs).Nodup) :
    wp (logAll bs) (fun _ s' => s' = { s with log := { s.log with lh := s.log.lh ++ bs } } ∧
      (bs ≠ [] → (s.log.lh ++ bs).length < s.log.size ∧ (s.log.lh ++ bs).length ≤ LOGSIZE))
      (Unwritten P s) s := by
  induction bs generalizing s with
  | nil => exact ⟨by rw [List.append_nil], fun h => absurd rfl h⟩
  | cons b bs ih =>
    have hnew : b ∉ s.log.lh := by
      rw [List.nodup_middle, List.nodup_cons] at hnd
      exact fun hb => hnd.1 (by simp [hb])
    have hstep := logWrite_eq h (hbs b (by simp)) hnew
    rw [logAll, wp_bind]
    split at hstep
    · rw [wp_of_error hstep]; exact ⟨.inl ⟨_, rfl⟩, rfl, rfl⟩
    · rename_i hroom
      rw [not_or, Nat.not_le, Nat.not_le] at hroom
      rw [wp_of_ok hstep]
      have h' : CacheOk { s with log := { s.log with lh := s.log.lh ++ [b] } } :=
        ⟨h.nodup, h.named, h.clean, h.dirtyNamed⟩
      refine wp_mono (ih h' (fun c hc => hbs c (by simp [hc])) (by simpa using hnd))
        (fun _ s' hs' => ?_) fun e s' hs' => hs'
      obtain ⟨rfl, hlen⟩ := hs'
      refine ⟨by simp, fun _ => ?_⟩
      by_cases hnil : bs = []
      · subst hnil
        simp only [List.length_append, List.length_singleton]
        omega
      · simpa using hlen hnil

/-- `logDirtyBuffer` starts a log header with exactly the dirty blocks. -/
theorem wp_logDirtyBuffer (h : CacheOk s) (hlh : s.log.lh = []) :
    wp logDirtyBuffer (fun n s' => n = (s.bufs.filter fun x => x.dirty).length ∧
      s' = { s with log := { s.log with lh := dirtyBlocks s.bufs } } ∧
      (n ≠ 0 → (dirtyBlocks s.bufs).length < s.log.size ∧
        (dirtyBlocks s.bufs).length ≤ LOGSIZE)) (Unwritten P s) s := by
  rw [logDirtyBuffer, wp_bind, wp_get, wp_bind]
  refine wp_mono (wp_logAll h (fun b hb => h.mem_dirtyBlocks.mp hb)
    (by rw [hlh]; exact h.nodup_dirtyBlocks)) (fun _ s' hs' => ?_) fun _ _ h => h
  obtain ⟨rfl, hlen⟩ := hs'
  rw [hlh, List.nil_append] at hlen
  rw [wp_pure, hlh, List.nil_append]
  refine ⟨rfl, rfl, fun hn => hlen fun hnil => hn ?_⟩
  rw [← h.length_dirtyBlocks, hnil]
  rfl

/-! ### `sync` -/

/-- What a commit of the blocks `bs` leaves behind. -/
structure Committed (s s' : Machine) (bs : List Nat) : Prop where
  room : bs.length < s.log.size
  ok : CacheOk s'
  held : ∀ b, Held s' b ↔ Held s b
  content : content s' = applyWrites (content s) (commitWrites s.log.start bs (Fs.content s))
  dirty : ∀ b, Dirty s' b ↔ Dirty s b ∧ b ∉ bs ∧ b ≠ s.log.start ∧
    ∀ i < bs.length, b ≠ s.log.start + i + 1
  disk : s'.disk = applyWrites s.disk (commitWrites s.log.start bs (Fs.content s))
  writes : s'.writes = s.writes ++ commitWrites s.log.start bs (Fs.content s)
  log : s'.log = { s.log with lh := [], committing := false }
  isfull : s'.isfull = s.isfull

theorem getD_forall {bs : List Nat} {b : Nat} :
    (∀ i < bs.length, b ≠ bs.getD i 0) ↔ b ∉ bs := by
  constructor
  · intro h hb
    obtain ⟨i, hi, rfl⟩ := List.getElem_of_mem hb
    refine h i hi ?_
    rw [List.getD_eq_getElem?_getD, List.getElem?_eq_getElem hi]
    rfl
  · rintro h i hi rfl
    exact h (getD_mem hi)

/-- The commit writes `commitWrites`, or a prefix of it. -/
theorem wp_commit (hm : Nested m) (h : CacheOk s) (hP : ∀ b, Held s b → P)
    (hs : s.log.committing = true) {bs : List Nat} (hlh : s.log.lh = bs) (hlen : bs.length < s.log.size)
    (hout : ∀ b ∈ bs, s.log.Outside b) :
    wp (commit m) (fun r s' => r = bs.length ∧ Committed s s' bs)
      (Issued P s (commitWrites s.log.start bs (content s))) s := by
  obtain ⟨start, hstart⟩ : ∃ start, s.log.start = start := ⟨_, rfl⟩
  have hhome : ∀ b ∈ bs, ∀ i < bs.length, b ≠ start + i + 1 := by
    intro b hb i hi
    have := hout b hb
    rw [Log.Outside, hstart] at this
    omega
  have hhead : ∀ b ∈ bs, b ≠ start := by
    intro b hb
    have := hout b hb
    rw [Log.Outside, hstart] at this
    omega
  rw [hstart]
  generalize hF : commitWrites start bs (content s) = F
  rw [commitWrites] at hF
  rw [commit, wp_bind]
  -- the copies to the log
  refine wp_mono (wp_writeLog (passive_of_committing hm hs) h hP hlh hstart hhome)
    (fun _ s₁ h₁ => ?_) fun e s' hs' =>
    hs'.mono (by rw [← hF]; simp [List.append_assoc])
  have hcom₁ : s₁.log.committing = true := by rw [h₁.log]; exact hs
  have hP₁ : ∀ b, Held s₁ b → P := fun b hb => hP b ((h₁.held b).mp hb)
  have hcs₁ : content s₁ start = content s start := by
    rw [h₁.content, applyWrites_of_not_mem]
    intro w hw
    obtain ⟨i, _, rfl⟩ := mem_logWrites.mp hw
    simp only
    omega
  rw [wp_bind]
  -- the header
  refine wp_mono (wp_writeHead (passive_of_committing hm hcom₁) h₁.ok hP₁)
    (fun _ s₂ h₂ => ?_) fun e s' hs' =>
    Issued.of_unwritten h₁ hs' (by rw [← hF]; simp [List.append_assoc])
  rw [h₁.log, hlh, hstart, hcs₁] at h₂
  have hcom₂ : s₂.log.committing = true := by rw [h₂.log]; exact hcom₁
  have hlog₂ : s₂.log = s.log := h₂.log.trans h₁.log
  have hheld₂ : ∀ b, Held s₂ b ↔ Held s b := fun b => (h₂.held b).trans (h₁.held b)
  have hP₂ : ∀ b, Held s₂ b → P := fun b hb => hP b ((hheld₂ b).mp hb)
  have hcl₂ : ∀ i < bs.length, content s₂ (start + i + 1) = content s (bs.getD i 0) := by
    intro i hi
    rw [h₂.content, Function.update_of_ne (by omega), h₁.content]
    refine applyWrites_of_mem (mem_logWrites.mpr ⟨i, hi, rfl⟩) fun u hu => ?_
    obtain ⟨j, _, hj⟩ := mem_logWrites.mp hu
    rw [Prod.mk.injEq] at hj
    have : i = j := by omega
    rw [hj.2, this]
  rw [wp_bind]
  -- the copies to the home blocks
  refine wp_mono (wp_installTrans (passive_of_committing hm hcom₂) h₂.ok hP₂ (by rw [hlog₂, hlh])
    (by rw [hlog₂, hstart]) hhome hcl₂) (fun _ s₃ h₃ => ?_) fun e s' hs' =>
    Issued.of_after (h₁.trans h₂) hs' (by rw [← hF]; simp [List.append_assoc])
  have h₁₃ := (h₁.trans h₂).trans h₃
  have hlog₃ : s₃.log = s.log := h₃.log.trans hlog₂
  have hcs₃ : content s₃ start = setHeader (content s start) bs := by
    rw [h₃.content, applyWrites_of_not_mem, h₂.content, Function.update_self]
    intro w hw
    obtain ⟨i, hi, rfl⟩ := mem_homeWrites.mp hw
    exact hhead _ (getD_mem hi)
  rw [wp_bind, clearLog, wp_bind, wp_get, wp_bind, wp_set, wp_pure, wp_bind]
  -- the cleared header
  have hok₄ : CacheOk { s₃ with log := { s₃.log with lh := [] } } :=
    ⟨h₃.ok.nodup, h₃.ok.named, h₃.ok.clean, h₃.ok.dirtyNamed⟩
  have hheld₃ : ∀ b, Held s₃ b ↔ Held s b := fun b => (h₃.held b).trans (hheld₂ b)
  have hP₄ : ∀ b, Held { s₃ with log := { s₃.log with lh := [] } } b → P :=
    fun b hb => hP b ((hheld₃ b).mp hb)
  have hcom₄ : s₃.log.committing = true := by rw [hlog₃]; exact hs
  refine wp_mono (wp_writeHead (passive_of_committing hm hcom₄) hok₄ hP₄)
    (fun _ s₅ h₅ => ?_) fun e s' hs' => ?_
  · have hw₅ : [(start, setHeader (setHeader (content s start) bs) [])] =
        [({ s₃.log with lh := [] : Log }.start,
          setHeader (content { s₃ with log := { s₃.log with lh := [] } }
            { s₃.log with lh := [] : Log }.start) { s₃.log with lh := [] : Log }.lh)] := by
      show _ = [(s₃.log.start, setHeader (content s₃ s₃.log.start) [])]
      rw [hlog₃, hstart, hcs₃]
    rw [setCommitting, wp_bind, wp_modify, wp_pure]
    refine ⟨by rw [hlog₃, hlh], ?_⟩
    have hd₅ : ∀ b, Dirty s₅ b ↔ Dirty s₃ b ∧ b ≠ start := by
      intro b
      rw [h₅.dirty]
      show Dirty s₃ b ∧ b ≠ s₃.log.start ↔ _
      rw [hlog₃, hstart]
    have hdisk : s₅.disk = applyWrites s.disk F := by
      rw [h₅.disk, ← hw₅, ← hF]
      show applyWrites s₃.disk _ = _
      rw [h₁₃.disk, ← applyWrites_append]
    have hwrites : s₅.writes = s.writes ++ F := by
      rw [h₅.writes, ← hw₅, ← hF]
      show s₃.writes ++ _ = _
      rw [h₁₃.writes, List.append_assoc]
    have hcontent : content s₅ = applyWrites (content s) F := by
      rw [← hF, applyWrites_append, applyWrites_singleton, applyWrites_append, applyWrites_append,
        applyWrites_singleton, ← h₁.content, ← h₂.content, ← h₃.content, h₅.content]
      show Function.update (content s₃) s₃.log.start (setHeader (content s₃ s₃.log.start) []) = _
      rw [hlog₃, hstart, hcs₃]
    have hF' : commitWrites s.log.start bs (content s) = F := by rw [hstart, commitWrites]; exact hF
    refine ⟨hlen, ⟨h₅.ok.nodup, h₅.ok.named, h₅.ok.clean, h₅.ok.dirtyNamed⟩,
      fun b => (h₅.held b).trans (hheld₃ b), by rw [hF']; exact hcontent, fun b => ?_,
      by rw [hF']; exact hdisk, by rw [hF']; exact hwrites, ?_, ?_⟩
    · show Dirty s₅ b ↔ _
      rw [hd₅, h₃.dirty, h₂.dirty, h₁.dirty, getD_forall, hstart]
      tauto
    · show { s₅.log with committing := false } = _
      rw [h₅.log]
      show { { s₃.log with lh := [] } with committing := false } = _
      rw [hlog₃]
    · show s₅.isfull = _
      rw [h₅.isfull]
      exact h₁₃.isfull
  · refine Issued.of_unwritten h₁₃ hs' ?_
    rw [← hF]
    simp [List.append_assoc]

/-- The machine outside of `sync`: the cache is intact, nothing is logged and no commit is in
    progress, and only blocks outside the log area are dirty. -/
structure Steady (s : Machine) : Prop where
  ok : CacheOk s
  lh : s.log.lh = []
  committing : s.log.committing = false
  outside : ∀ b, Dirty s b → s.log.Outside b

/-- The machine between two operations: no buffer is held either. -/
structure Idle (s : Machine) : Prop extends Steady s where
  quiet : Quiet s

/-- What `sync` leaves behind when it returns: it has committed the dirty blocks, if any. -/
def Synced (s s' : Machine) : Prop :=
  if dirtyBlocks s.bufs = [] then s' = s else Committed s s' (dirtyBlocks s.bufs)

theorem Committed.of_committing {s s' : Machine} {bs lh : List Nat}
    (h : Committed { s with log := { s.log with lh := lh, committing := true } } s' bs) :
    Committed s s' bs :=
  ⟨h.room, h.ok, h.held, h.content, h.dirty, h.disk, h.writes, h.log, h.isfull⟩

/-- The writes of `sync`: none if nothing is dirty or the log is too small. -/
def syncWrites (s : Machine) : List (Nat × Block) :=
  if dirtyBlocks s.bufs ≠ [] ∧ (dirtyBlocks s.bufs).length < s.log.size ∧
      (dirtyBlocks s.bufs).length ≤ LOGSIZE then
    commitWrites s.log.start (dirtyBlocks s.bufs) (content s)
  else []

/-- `sync` returns the number of dirty buffers after committing them; if it does not come back,
    it has issued a prefix of the writes of the commit. -/
theorem wp_sync (h : Steady s) (hP : ∀ b, Held s b → P) :
    wp sync (fun r s' => r = (s.bufs.filter fun x => x.dirty).length ∧ Synced s s' ∧
      s'.writes = s.writes ++ syncWrites s) (Issued P s (syncWrites s)) s := by
  obtain ⟨hok, hlh, hcom, hout⟩ := h
  have hcom' : ¬ s.log.committing = true := by rw [hcom]; simp
  have hrun : sync s =
      syncBody (syncDepth 1) { s with log := { s.log with committing := true } } := by
    show (if s.log.committing = true then _ else _) = _
    rw [if_neg hcom']
  have hnil : ∀ e s', Unwritten P s e s' → Issued P s (syncWrites s) e s' :=
    fun e s' hs' => ⟨hs'.1, [], List.nil_prefix, hs'.2.1, by rw [hs'.2.2, List.append_nil]⟩
  rw [wp, hrun]
  show wp (syncBody (syncDepth 1)) _ _ { s with log := { s.log with committing := true } }
  have hok₁ : CacheOk { s with log := { s.log with committing := true } } :=
    ⟨hok.nodup, hok.named, hok.clean, hok.dirtyNamed⟩
  rw [syncBody, wp_bind]
  refine wp_mono (wp_logDirtyBuffer hok₁ hlh) (fun n s₂ h₂ => ?_) hnil
  obtain ⟨hn, rfl, hroom⟩ := h₂
  have hlen := hok.length_dirtyBlocks
  refine wp_ite (fun hz => ?_) fun hnz => ?_
  · -- nothing is dirty
    have hempty : dirtyBlocks s.bufs = [] := by
      rw [← List.length_eq_zero_iff, hlen]
      exact hn.symm.trans hz
    rw [setCommitting, wp_bind, wp_modify, wp_pure]
    refine ⟨?_, ?_, ?_⟩
    · rw [← hlen, hempty]; rfl
    · rw [Synced, if_pos hempty]
      show ({ s with log := { s.log with lh := dirtyBlocks s.bufs, committing := false } } : Machine)
        = s
      rw [hempty, ← hlh, ← hcom]
    · rw [syncWrites, if_neg fun h => h.1 hempty, List.append_nil]
  · have hne : dirtyBlocks s.bufs ≠ [] := by
      intro hnil
      rw [hnil] at hlen
      exact hnz (hn.trans hlen.symm)
    have hok₂ : CacheOk { s with log := { s.log with lh := dirtyBlocks s.bufs, committing := true } } :=
      ⟨hok.nodup, hok.named, hok.clean, hok.dirtyNamed⟩
    have hwrites : syncWrites s = commitWrites s.log.start (dirtyBlocks s.bufs) (content s) := by
      rw [syncWrites, if_pos ⟨hne, hroom hnz⟩]
    rw [hwrites]
    refine wp_mono (wp_commit (nested_syncDepth 0) hok₂ hP rfl rfl (hroom hnz).1
      fun b hb => hout b (hok.mem_dirtyBlocks.mp hb)) (fun r s' hs' => ?_) fun e s' hs' => hs'
    obtain ⟨hr, hs'⟩ := hs'
    refine ⟨?_, ?_, hs'.writes⟩
    · rw [hr, ← hlen]
    · rw [Synced, if_neg hne]
      exact hs'.of_committing

section Commit

variable {start size : Nat} {bs : List Nat} {c d : Nat → Block} {b : Nat}

/-- Outside the log area only the home blocks are written, each with its content. -/
theorem applyWrites_commitWrites (hlen : bs.length < size) (hb : b < start ∨ start + size ≤ b) :
    applyWrites d (commitWrites start bs c) b = if b ∈ bs then c b else d b := by
  have hlog : ∀ w ∈ logWrites start bs c bs.length, w.1 ≠ b := by
    intro w hw
    obtain ⟨i, hi, rfl⟩ := mem_logWrites.mp hw
    simp only
    omega
  have hne : start ≠ b := by omega
  rw [commitWrites, applyWrites_append, applyWrites_singleton, Function.update_of_ne (Ne.symm hne),
    applyWrites_append]
  split
  · rename_i hmem
    obtain ⟨i, hi, rfl⟩ := List.getElem_of_mem hmem
    have hget : bs.getD i 0 = bs[i] := by
      rw [List.getD_eq_getElem?_getD, List.getElem?_eq_getElem hi]; rfl
    refine applyWrites_of_mem (mem_homeWrites.mpr ⟨i, hi, by rw [hget]⟩) fun u hu => ?_
    obtain ⟨j, _, hj⟩ := mem_homeWrites.mp hu
    rw [Prod.mk.injEq] at hj
    rw [hj.2, ← hj.1]
  · rename_i hmem
    rw [applyWrites_of_not_mem, applyWrites_append, applyWrites_singleton,
      Function.update_of_ne (Ne.symm hne), applyWrites_of_not_mem hlog]
    intro w hw
    obtain ⟨i, hi, rfl⟩ := mem_homeWrites.mp hw
    rintro rfl
    exact hmem (getD_mem hi)

end Commit

/-- After `sync` nothing is dirty, and outside the log area the contents are the same. -/
theorem Synced.steady {s s' : Machine} (h : Steady s) (hs : Synced s s') :
    Steady s' ∧ (∀ b, ¬ Dirty s' b) ∧ (∀ b, Held s' b ↔ Held s b) ∧
      (∀ b, s.log.Outside b → content s' b = content s b) ∧
      s'.log = s.log ∧ s'.isfull = s.isfull := by
  rw [Synced] at hs
  split at hs
  · rename_i hempty
    subst hs
    refine ⟨h, fun b hb => ?_, fun _ => Iff.rfl, fun _ _ => rfl, rfl, rfl⟩
    rw [← h.ok.mem_dirtyBlocks, hempty] at hb
    simp at hb
  · have hclean : ∀ b, ¬ Dirty s' b := by
      intro b hb
      obtain ⟨hb, hnot, _⟩ := (hs.dirty b).mp hb
      exact hnot (h.ok.mem_dirtyBlocks.mpr hb)
    have hlog : s'.log = s.log := by rw [hs.log, ← h.lh, ← h.committing]
    refine ⟨⟨hs.ok, by rw [hlog, h.lh], by rw [hlog, h.committing],
      fun b hb => absurd hb (hclean b)⟩, hclean, hs.held, fun b hb => ?_, hlog, hs.isfull⟩
    rw [hs.content, applyWrites_commitWrites hs.room hb]
    split
    · rfl
    · rfl

/-- A cache without dirty buffers is not full of them. -/
theorem passive_of_clean (hs : ∀ b, ¬ Dirty s b) : Passive m s := by
  intro s' hok _ hd
  have hempty : dirtyBlocks s'.bufs = [] :=
    List.eq_nil_iff_forall_not_mem.mpr fun b hb => hs b (hd b (hok.mem_dirtyBlocks.mp hb))
  have hfull : bufferIsFull s' = false := by
    rw [bufferIsFull, ← hok.length_dirtyBlocks, hempty]
    rfl
  rw [autoSync, if_neg (by simp [hfull])]

end Xv6.Fs
