import Xv6.Mlfq.Kernel

namespace Xv6.Mlfq

open Xv6.Lib

/-!
# MLFQ scheduler — the queue primitives implement lists

`Queues k q` says that the three linked queues of `k` spell out the lists `q 0`, `q 1`, `q 2`:
finite, pairwise disjoint, with `already_enqueued` set exactly on their members.  On such a
state `enqueue`, `dequeue` and `dequeue_specific` are the list operations `++ [p]`, tail and
`erase`, they always end, and they change nothing but links (`SameButLinks`).
-/

/-! ### Field updates -/

section Fields

variable (k : Kernel) (i j : Slot) (f : Proc → Proc) (l : Nat) (h : Option Slot)

theorem setProc_proc :
    (k.setProc i f).proc j = if j = i then f (k.proc i) else k.proc j :=
  Function.update_apply _ _ _ _

@[simp] theorem setProc_proc_self : (k.setProc i f).proc i = f (k.proc i) :=
  Function.update_self _ _ _

@[simp] theorem setProc_proc_of_ne (hji : j ≠ i) : (k.setProc i f).proc j = k.proc j :=
  Function.update_of_ne hji _ _

@[simp] theorem setProc_levelQueue : (k.setProc i f).levelQueue = k.levelQueue := rfl
@[simp] theorem setProc_globalTick : (k.setProc i f).globalTick = k.globalTick := rfl
@[simp] theorem setProc_schedulerLocked :
    (k.setProc i f).schedulerLocked = k.schedulerLocked := rfl
@[simp] theorem setProc_nextpid : (k.setProc i f).nextpid = k.nextpid := rfl
@[simp] theorem setProc_initproc : (k.setProc i f).initproc = k.initproc := rfl
@[simp] theorem setProc_cpuProc : (k.setProc i f).cpuProc = k.cpuProc := rfl
@[simp] theorem setProc_schedP : (k.setProc i f).schedP = k.schedP := rfl
@[simp] theorem setProc_np : (k.setProc i f).np = k.np := rfl

@[simp] theorem setQueue_proc : (k.setQueue l h).proc = k.proc := rfl
@[simp] theorem setQueue_next : (k.setQueue l h).next = k.next := rfl
@[simp] theorem setQueue_levelQueue :
    (k.setQueue l h).levelQueue = Function.update k.levelQueue l h := rfl
@[simp] theorem setQueue_globalTick : (k.setQueue l h).globalTick = k.globalTick := rfl
@[simp] theorem setQueue_schedulerLocked :
    (k.setQueue l h).schedulerLocked = k.schedulerLocked := rfl
@[simp] theorem setQueue_nextpid : (k.setQueue l h).nextpid = k.nextpid := rfl
@[simp] theorem setQueue_initproc : (k.setQueue l h).initproc = k.initproc := rfl
@[simp] theorem setQueue_cpuProc : (k.setQueue l h).cpuProc = k.cpuProc := rfl
@[simp] theorem setQueue_schedP : (k.setQueue l h).schedP = k.schedP := rfl
@[simp] theorem setQueue_np : (k.setQueue l h).np = k.np := rfl

end Fields

/-- `k` and `k'` agree on everything but the process table and the queue heads. -/
structure SameGlobals (k k' : Kernel) : Prop where
  globalTick : k'.globalTick = k.globalTick
  schedulerLocked : k'.schedulerLocked = k.schedulerLocked
  nextpid : k'.nextpid = k.nextpid
  initproc : k'.initproc = k.initproc
  cpuProc : k'.cpuProc = k.cpuProc
  schedP : k'.schedP = k.schedP
  np : k'.np = k.np

theorem SameGlobals.refl (k : Kernel) : SameGlobals k k := ⟨rfl, rfl, rfl, rfl, rfl, rfl, rfl⟩

theorem SameGlobals.trans {k k' k'' : Kernel} (h : SameGlobals k k') (h' : SameGlobals k' k'') :
    SameGlobals k k'' :=
  ⟨h'.globalTick.trans h.globalTick, h'.schedulerLocked.trans h.schedulerLocked,
    h'.nextpid.trans h.nextpid, h'.initproc.trans h.initproc, h'.cpuProc.trans h.cpuProc,
    h'.schedP.trans h.schedP, h'.np.trans h.np⟩

theorem SameGlobals.setProc (k : Kernel) (i : Slot) (f : Proc → Proc) :
    SameGlobals k (k.setProc i f) := ⟨rfl, rfl, rfl, rfl, rfl, rfl, rfl⟩

theorem SameGlobals.setQueue (k : Kernel) (l : Nat) (h : Option Slot) :
    SameGlobals k (k.setQueue l h) := ⟨rfl, rfl, rfl, rfl, rfl, rfl, rfl⟩

/-- `k'` differs from `k` only in queue heads, `next` and `already_enqueued`. -/
structure SameButLinks (k k' : Kernel) : Prop extends SameGlobals k k' where
  proc : ∀ i, k'.proc i =
    { k.proc i with next := (k'.proc i).next, alreadyEnqueued := (k'.proc i).alreadyEnqueued }

namespace SameButLinks

variable {k k' k'' : Kernel}

theorem refl (k : Kernel) : SameButLinks k k := ⟨.refl k, fun _ => rfl⟩

theorem trans (h : SameButLinks k k') (h' : SameButLinks k' k'') : SameButLinks k k'' := by
  refine ⟨h.toSameGlobals.trans h'.toSameGlobals, fun i => ?_⟩
  rw [h'.proc i, h.proc i]

theorem state_eq (h : SameButLinks k k') (i : Slot) :
    (k'.proc i).state = (k.proc i).state := by rw [h.proc i]

theorem level_eq (h : SameButLinks k k') (i : Slot) :
    (k'.proc i).level = (k.proc i).level := by rw [h.proc i]

theorem lockScheduler_eq (h : SameButLinks k k') (i : Slot) :
    (k'.proc i).lockScheduler = (k.proc i).lockScheduler := by rw [h.proc i]

/-- Changing links of one slot. -/
theorem setProc (k : Kernel) (i : Slot) {f : Proc → Proc}
    (hf : ∀ q, f q = { q with next := (f q).next, alreadyEnqueued := (f q).alreadyEnqueued }) :
    SameButLinks k (k.setProc i f) := by
  refine ⟨.setProc k i f, fun j => ?_⟩
  by_cases hj : j = i
  · subst hj
    rw [setProc_proc_self]
    exact hf _
  · rw [setProc_proc_of_ne _ _ _ _ hj]

theorem setQueue (k : Kernel) (l : Nat) (h : Option Slot) : SameButLinks k (k.setQueue l h) :=
  ⟨.setQueue k l h, fun _ => rfl⟩

end SameButLinks

/-! ### Well-formed queues -/

/-- The linked queues of `k` spell out the lists `q l`. -/
structure Queues (k : Kernel) (q : Nat → List Slot) : Prop where
  chain : ∀ l, Chain k.next (k.levelQueue l) (q l)
  disjoint : ∀ l l', l ≠ l' → (q l).Disjoint (q l')
  flag : ∀ p, (k.proc p).alreadyEnqueued = true ↔ ∃ l, p ∈ q l

namespace Queues

variable {k k' : Kernel} {q : Nat → List Slot} {p : Slot} {l : Nat}

theorem length_le (h : Queues k q) (l : Nat) : (q l).length ≤ NPROC := by
  simpa using (h.chain l).length_le

theorem not_mem (h : Queues k q) (hp : (k.proc p).alreadyEnqueued = false) (l : Nat) :
    p ∉ q l := by
  intro hm
  rw [(h.flag p).mpr ⟨l, hm⟩] at hp
  cases hp

theorem level_unique (h : Queues k q) {l l' : Nat} (hl : p ∈ q l) (hl' : p ∈ q l') : l = l' := by
  by_contra hne
  exact h.disjoint l l' hne hl hl'

/-- Queues do not depend on anything but heads, `next` and `already_enqueued`. -/
theorem congr (h : Queues k q) (hlink : ∀ i, (k'.proc i).next = (k.proc i).next)
    (hflag : ∀ i, (k'.proc i).alreadyEnqueued = (k.proc i).alreadyEnqueued)
    (hhead : k'.levelQueue = k.levelQueue) : Queues k' q where
  chain l := by
    rw [hhead]
    exact (h.chain l).congr fun a _ => hlink a
  disjoint := h.disjoint
  flag p := by rw [hflag]; exact h.flag p

/-- A field update that touches no link keeps the queues. -/
theorem setProc (h : Queues k q) (i : Slot) {f : Proc → Proc}
    (hn : (f (k.proc i)).next = (k.proc i).next)
    (he : (f (k.proc i)).alreadyEnqueued = (k.proc i).alreadyEnqueued) :
    Queues (k.setProc i f) q := by
  refine h.congr (fun j => ?_) (fun j => ?_) rfl
  · by_cases hj : j = i
    · subst hj; rw [setProc_proc_self]; exact hn
    · rw [setProc_proc_of_ne _ _ _ _ hj]
  · by_cases hj : j = i
    · subst hj; rw [setProc_proc_self]; exact he
    · rw [setProc_proc_of_ne _ _ _ _ hj]

/-- The fields of a process that is in no queue do not matter. -/
theorem setProc_out (h : Queues k q) {i : Slot} {f : Proc → Proc}
    (hi : (k.proc i).alreadyEnqueued = false) (he : (f (k.proc i)).alreadyEnqueued = false) :
    Queues (k.setProc i f) q where
  chain l := by
    refine (h.chain l).congr fun a ha => ?_
    have hai : a ≠ i := fun hai => h.not_mem hi l (hai ▸ ha)
    simp only [Kernel.next, setProc_proc_of_ne _ _ _ _ hai]
  disjoint := h.disjoint
  flag p := by
    rw [← h.flag p]
    by_cases hpi : p = i
    · subst hpi; rw [setProc_proc_self, he, hi]
    · rw [setProc_proc_of_ne _ _ _ _ hpi]

/-- Replacing the contents of one queue. -/
theorem update (h : Queues k q) {xs : List Slot}
    (hchain : Chain k'.next (k'.levelQueue l) xs)
    (hother : ∀ l', l' ≠ l → k'.levelQueue l' = k.levelQueue l')
    (hnext : ∀ l', l' ≠ l → ∀ a ∈ q l', (k'.proc a).next = (k.proc a).next)
    (hdisj : ∀ l', l' ≠ l → xs.Disjoint (q l'))
    (hflag : ∀ a, (k'.proc a).alreadyEnqueued = true ↔ a ∈ xs ∨ ∃ l', l' ≠ l ∧ a ∈ q l') :
    Queues k' (Function.update q l xs) where
  chain l' := by
    by_cases hl : l' = l
    · subst hl; rw [Function.update_self]; exact hchain
    · rw [Function.update_of_ne hl, hother l' hl]
      exact (h.chain l').congr fun a ha => hnext l' hl a ha
  disjoint l₁ l₂ hne := by
    by_cases h1 : l₁ = l
    · subst h1
      rw [Function.update_self, Function.update_of_ne hne.symm]
      exact hdisj l₂ hne.symm
    · rw [Function.update_of_ne h1]
      by_cases h2 : l₂ = l
      · subst h2
        rw [Function.update_self]
        exact (hdisj l₁ h1).symm
      · rw [Function.update_of_ne h2]
        exact h.disjoint l₁ l₂ hne
  flag a := by
    rw [hflag a]
    constructor
    · rintro (ha | ⟨l', hl', ha⟩)
      · exact ⟨l, by rwa [Function.update_self]⟩
      · exact ⟨l', by rwa [Function.update_of_ne hl']⟩
    · rintro ⟨l', ha⟩
      by_cases hl' : l' = l
      · subst hl'; rw [Function.update_self] at ha; exact .inl ha
      · rw [Function.update_of_ne hl'] at ha; exact .inr ⟨l', hl', ha⟩

end Queues

/-! ### `enqueue` -/

/-- A process that is already queued is not queued again. -/
theorem enqueue_of_flag {k : Kernel} {p : Slot} {l : Nat}
    (hp : (k.proc p).alreadyEnqueued = true) : enqueue k p l = .ok k := by
  rw [enqueue, if_pos hp]

/-- Appending `p` behind the last node `z` of a chain. -/
theorem chain_snoc {next next' : Slot → Option Slot} {h : Option Slot} {xs : List Slot}
    {z p : Slot} (hc : Chain next h (xs ++ [z])) (hz : next' z = some p) (hp : next' p = none)
    (hsame : ∀ a ∈ xs, next' a = next a) : Chain next' h (xs ++ [z] ++ [p]) := by
  obtain ⟨m, hseg, hm⟩ := chain_append_iff.mp hc
  rw [List.append_assoc]
  refine chain_append_iff.mpr ⟨m, hseg.congr hsame, ?_⟩
  rw [List.singleton_append, chain_cons_iff, chain_cons_iff, hz, hp]
  exact ⟨(chain_cons_iff.mp hm).1, rfl, by simp⟩

/-- `enqueue` of a process that is in no queue appends it and ends. -/
theorem enqueue_spec {k : Kernel} {q : Nat → List Slot} (h : Queues k q) {p : Slot} (l : Nat)
    (hp : (k.proc p).alreadyEnqueued = false) :
    ∃ k', enqueue k p l = .ok k' ∧ SameButLinks k k' ∧
      Queues k' (Function.update q l (q l ++ [p])) := by
  have hpq : ∀ l', p ∉ q l' := h.not_mem hp
  have hflag : ∀ (k' : Kernel), (∀ a, a ≠ p →
        (k'.proc a).alreadyEnqueued = (k.proc a).alreadyEnqueued) →
      (k'.proc p).alreadyEnqueued = true → ∀ a, (k'.proc a).alreadyEnqueued = true ↔
        a ∈ q l ++ [p] ∨ ∃ l', l' ≠ l ∧ a ∈ q l' := by
    intro k' hne hself a
    by_cases hap : a = p
    · subst hap; simp [hself]
    · rw [hne a hap, h.flag a]
      simp only [List.mem_append, List.mem_singleton, hap, or_false]
      constructor
      · rintro ⟨l', ha⟩
        by_cases hl : l' = l
        · subst hl; exact .inl ha
        · exact .inr ⟨l', hl, ha⟩
      · rintro (ha | ⟨l', _, ha⟩)
        · exact ⟨l, ha⟩
        · exact ⟨l', ha⟩
  have hdisj : ∀ l', l' ≠ l → (q l ++ [p]).Disjoint (q l') := by
    intro l' hl
    refine List.disjoint_append_left.mpr ⟨h.disjoint l l' (Ne.symm hl), ?_⟩
    simpa using hpq l'
  rw [enqueue, if_neg (by simp [hp])]
  cases hhead : k.levelQueue l with
  | none =>
    have hnil : q l = [] := by
      have := h.chain l
      rwa [hhead, chain_none_iff] at this
    refine ⟨_, rfl, (SameButLinks.setQueue k l _).trans (SameButLinks.setProc _ p fun _ => rfl), ?_⟩
    refine h.update ?_ (fun l' hl => ?_) (fun l' _ a ha => ?_) hdisj (hflag _ ?_ ?_)
    · simp [hnil, Kernel.next]
    · simp [hl]
    · have hap : a ≠ p := fun hap => hpq l' (hap ▸ ha)
      rw [setProc_proc_of_ne _ _ _ _ hap]; rfl
    · intro a hap; rw [setProc_proc_of_ne _ _ _ _ hap]; rfl
    · simp
  | some tmp =>
    have hc := h.chain l
    rw [hhead] at hc
    -- the list is non-empty, and `walkEnd` stops at its last element
    obtain ⟨xs, z, hxs⟩ : ∃ xs z, q l = xs ++ [z] := by
      obtain ⟨t, ht, _⟩ := chain_some_iff.mp hc
      exact ⟨_, _, (List.dropLast_append_getLast (l := q l) (by simp [ht])).symm⟩
    have hwalk : walkEnd k.next NPROC tmp = some z := by
      rw [walkEnd_eq hc (h.length_le l), hxs]; simp
    have hzl : z ∈ q l := by simp [hxs]
    have hzp : z ≠ p := fun hzp => hpq l (hzp ▸ hzl)
    have hz_nmem : ∀ a ∈ xs, a ≠ z := by
      intro a ha haz
      have hnd := (h.chain l).nodup
      rw [hxs, List.nodup_append] at hnd
      exact hnd.2.2 a ha z (by simp) haz
    simp only [hwalk]
    refine ⟨_, rfl, (SameButLinks.setProc k z fun _ => rfl).trans
      (SameButLinks.setProc _ p fun _ => rfl), ?_⟩
    refine h.update ?_ (fun l' _ => rfl) (fun l' hl a ha => ?_) hdisj (hflag _ ?_ ?_)
    · have hnext : ∀ a, a ≠ p → a ≠ z → (((k.setProc z fun q => { q with next := some p }).setProc p
          fun q => { q with next := none, alreadyEnqueued := true }).proc a) = k.proc a := by
        intro a hap haz
        rw [setProc_proc_of_ne _ _ _ _ hap, setProc_proc_of_ne _ _ _ _ haz]
      rw [hxs]
      simp only [setProc_levelQueue, hhead]
      rw [hxs] at hc
      refine chain_snoc hc ?_ ?_ fun a ha => ?_
      · simp [Kernel.next, hzp]
      · simp [Kernel.next]
      · have hap : a ≠ p := fun hap => hpq l (hap ▸ (by simp [hxs, ha]))
        simp only [Kernel.next, hnext a hap (hz_nmem a ha)]
    · have hap : a ≠ p := fun hap => hpq l' (hap ▸ ha)
      have haz : a ≠ z := fun haz => h.disjoint l' l hl (haz ▸ ha) hzl
      rw [setProc_proc_of_ne _ _ _ _ hap, setProc_proc_of_ne _ _ _ _ haz]
    · intro a hap
      rw [setProc_proc_of_ne _ _ _ _ hap, setProc_proc]
      split <;> simp_all
    · simp

/-! ### `dequeue` and `dequeue_specific` -/

/-- Removing the node `p` between `us` and `vs` from a chain. -/
theorem chain_remove {next next' : Slot → Option Slot} {h h' : Option Slot} {us vs : List Slot}
    {p : Slot} (hc : Chain next h (us ++ p :: vs))
    (hfirst : us = [] → h' = next p) (hkeep : us ≠ [] → h' = h)
    (hprev : ∀ y, us.getLast? = some y → next' y = next p)
    (hsame : ∀ a ∈ us ++ vs, us.getLast? ≠ some a → next' a = next a) :
    Chain next' h' (us ++ vs) := by
  have hnd := hc.nodup
  obtain ⟨m, hseg, hm⟩ := chain_append_iff.mp hc
  obtain ⟨rfl, hvs⟩ := chain_cons_iff.mp hm
  -- no node of `vs` is the predecessor of `p`
  have hvs' : Chain next' (next p) vs := by
    refine hvs.congr fun a ha => hsame a (by simp [ha]) fun hlast => ?_
    have hau : a ∈ us := List.mem_of_mem_getLast? hlast
    rw [List.nodup_append] at hnd
    exact hnd.2.2 a hau a (by simp [ha]) rfl
  rcases List.eq_nil_or_concat us with rfl | ⟨us, y, rfl⟩
  · rw [hfirst rfl]
    simpa using hvs'
  · rw [hkeep (by simp)]
    rw [List.concat_eq_append] at *
    obtain ⟨m', hseg', hm'⟩ := seg_append_iff.mp hseg
    rw [seg_cons_iff] at hm'
    have hy : ∀ a ∈ us, a ≠ y := by
      intro a ha hay
      rw [List.nodup_append, List.nodup_append] at hnd
      exact hnd.1.2.2 a ha y (by simp) hay
    refine chain_append_iff.mpr ⟨next p, seg_append_iff.mpr ⟨m', ?_, ?_⟩, hvs'⟩
    · refine hseg'.congr fun a ha => hsame a (by simp [ha]) fun hlast => ?_
      simp only [List.getLast?_append, List.getLast?_singleton, Option.some_or,
        Option.some.injEq] at hlast
      exact hy a ha hlast.symm
    · rw [seg_cons_iff, seg_nil_iff]
      exact ⟨hm'.1, hprev y (by simp)⟩

/-- Membership flags after removing `p` from queue `l`. -/
theorem flag_remove {k k' : Kernel} {q : Nat → List Slot} (h : Queues k q) {p : Slot} {l : Nat}
    (us : List Slot) {vs : List Slot} (hq : q l = us ++ p :: vs)
    (hne : ∀ a, a ≠ p → (k'.proc a).alreadyEnqueued = (k.proc a).alreadyEnqueued)
    (hself : (k'.proc p).alreadyEnqueued = false) (a : Slot) :
    (k'.proc a).alreadyEnqueued = true ↔ a ∈ us ++ vs ∨ ∃ l', l' ≠ l ∧ a ∈ q l' := by
  have hnd := (h.chain l).nodup
  rw [hq, List.nodup_middle, List.nodup_cons] at hnd
  have hpl : p ∈ q l := by simp [hq]
  by_cases hap : a = p
  · subst hap
    simp only [hself, Bool.false_eq_true, false_iff, not_or, not_exists, not_and]
    exact ⟨hnd.1, fun l' hl ha => hl (h.level_unique ha hpl)⟩
  · rw [hne a hap, h.flag a]
    constructor
    · rintro ⟨l', ha⟩
      by_cases hl : l' = l
      · subst hl
        rw [hq] at ha
        simp only [List.mem_append, List.mem_cons, hap, false_or] at ha ⊢
        exact .inl ha
      · exact .inr ⟨l', hl, ha⟩
    · rintro (ha | ⟨l', _, ha⟩)
      · refine ⟨l, ?_⟩
        rw [hq]
        simp only [List.mem_append, List.mem_cons] at ha ⊢
        tauto
      · exact ⟨l', ha⟩

/-- `dequeue` of an empty queue returns null and changes nothing. -/
theorem dequeue_nil {k : Kernel} {q : Nat → List Slot} (h : Queues k q) {l : Nat}
    (hq : q l = []) : dequeue k l = (none, k) := by
  have hc := h.chain l
  rw [hq, chain_nil_iff] at hc
  rw [dequeue, hc]

/-- `dequeue` removes and returns the first element. -/
theorem dequeue_cons {k : Kernel} {q : Nat → List Slot} (h : Queues k q) {l : Nat} {p : Slot}
    {vs : List Slot} (hq : q l = p :: vs) :
    ∃ k', dequeue k l = (some p, k') ∧ SameButLinks k k' ∧
      (k'.proc p).next = none ∧ (k'.proc p).alreadyEnqueued = false ∧
      Queues k' (Function.update q l vs) := by
  have hc := h.chain l
  have hpl : p ∈ q l := by simp [hq]
  have hhead : k.levelQueue l = some p := by
    rw [hq] at hc; exact (chain_cons_iff.mp hc).1
  rw [dequeue, hhead]
  refine ⟨_, rfl, (SameButLinks.setQueue k l _).trans (SameButLinks.setProc _ p fun _ => rfl),
    by simp, by simp, ?_⟩
  have hsame : ∀ a, a ≠ p → (((k.setQueue l (k.proc p).next).setProc p fun q =>
      { q with next := none, alreadyEnqueued := false }).proc a) = k.proc a := by
    intro a ha; rw [setProc_proc_of_ne _ _ _ _ ha]; rfl
  have hnd := hc.nodup
  rw [hq, List.nodup_cons] at hnd
  refine h.update ?_ (fun l' hl => ?_) (fun l' hl a ha => ?_) (fun l' hl => ?_) ?_
  · simp only [setProc_levelQueue, setQueue_levelQueue, Function.update_self]
    rw [hq] at hc
    refine (chain_cons_iff.mp hc).2.congr fun a ha => ?_
    have hap : a ≠ p := fun hap => hnd.1 (hap ▸ ha)
    simp only [Kernel.next, hsame a hap]
  · simp [hl]
  · have hap : a ≠ p := fun hap => hl (h.level_unique (hap ▸ ha) hpl)
    rw [hsame a hap]
  · exact fun a ha ha' => hl (h.level_unique ha' (by simp [hq, ha]))
  · exact flag_remove h [] hq (fun a ha => by rw [hsame a ha]) (by simp)

/-- `dequeue_specific` of a process that is in no queue changes nothing. -/
theorem dequeueSpecific_of_not_flag {k : Kernel} {p : Slot} {l : Nat}
    (hp : (k.proc p).alreadyEnqueued = false) : dequeueSpecific k l p = .ok k := by
  rw [dequeueSpecific, if_pos hp]

/-- `dequeue_specific` on a queue that does not hold the process changes nothing. -/
theorem dequeueSpecific_of_not_mem {k : Kernel} {q : Nat → List Slot} (h : Queues k q)
    {p : Slot} {l : Nat} (hp : p ∉ q l) : dequeueSpecific k l p = .ok k := by
  rw [dequeueSpecific, walkPrev_eq_none (h.chain l) (h.length_le l) hp]
  simp

/-- `dequeue_specific` removes the process from its queue and keeps the order of the rest. -/
theorem dequeueSpecific_spec {k : Kernel} {q : Nat → List Slot} (h : Queues k q) {p : Slot}
    {l : Nat} (hp : p ∈ q l) :
    ∃ k', dequeueSpecific k l p = .ok k' ∧ SameButLinks k k' ∧
      (k'.proc p).next = none ∧ (k'.proc p).alreadyEnqueued = false ∧
      Queues k' (Function.update q l ((q l).erase p)) := by
  obtain ⟨us, vs, hq⟩ := List.append_of_mem hp
  have hc := h.chain l
  have hnd := hc.nodup
  have hflag : (k.proc p).alreadyEnqueued = true := (h.flag p).mpr ⟨l, hp⟩
  rw [hq] at hc hnd
  have hpus : p ∉ us := by
    rw [List.nodup_middle, List.nodup_cons] at hnd
    exact fun hm => hnd.1 (by simp [hm])
  have hpvs : p ∉ vs := by
    rw [List.nodup_middle, List.nodup_cons] at hnd
    exact fun hm => hnd.1 (by simp [hm])
  have herase : (q l).erase p = us ++ vs := by
    rw [hq, List.erase_append_right _ hpus, List.erase_cons_head]
  have hwalk : walkPrev k.next p NPROC none (k.levelQueue l) = some (some us.getLast?) := by
    rw [walkPrev_eq_some hc (by rw [← hq]; exact h.length_le l)]
    simp
  rw [dequeueSpecific, if_neg (by simp [hflag]), hwalk, herase]
  have hdisj : ∀ l', l' ≠ l → (us ++ vs).Disjoint (q l') := by
    intro l' hl a ha ha'
    refine hl (h.level_unique ha' ?_)
    rw [hq]
    simp only [List.mem_append, List.mem_cons] at ha ⊢
    tauto
  cases hlast : us.getLast? with
  | none =>
    have hus : us = [] := List.getLast?_eq_none_iff.mp hlast
    subst hus
    refine ⟨_, rfl, (SameButLinks.setQueue k l _).trans (SameButLinks.setProc _ p fun _ => rfl),
      by simp, by simp, ?_⟩
    have hsame : ∀ a, a ≠ p → (((k.setQueue l (k.proc p).next).setProc p fun q =>
        { q with next := none, alreadyEnqueued := false }).proc a) = k.proc a := by
      intro a ha; rw [setProc_proc_of_ne _ _ _ _ ha]; rfl
    refine h.update ?_ (fun l' hl => ?_) (fun l' hl a ha => ?_) hdisj
      (flag_remove h _ hq (fun a ha => by rw [hsame a ha]) (by simp))
    · refine chain_remove hc (fun _ => ?_) (fun hne => absurd rfl hne) (by simp) fun a ha _ => ?_
      · simp [Kernel.next]
      · have hap : a ≠ p := fun hap => hpvs (by simpa [hap] using ha)
        simp only [Kernel.next, hsame a hap]
    · simp [hl]
    · have hap : a ≠ p := fun hap => hl (h.level_unique (hap ▸ ha) hp)
      rw [hsame a hap]
  | some y =>
    have hyus : y ∈ us := List.mem_of_mem_getLast? hlast
    have hyp : y ≠ p := fun hyp => hpus (hyp ▸ hyus)
    have hyl : y ∈ q l := by simp [hq, hyus]
    have husne : us ≠ [] := by rintro rfl; simp at hyus
    refine ⟨_, rfl, (SameButLinks.setProc k y fun _ => rfl).trans
      (SameButLinks.setProc _ p fun _ => rfl), by simp, by simp, ?_⟩
    have hsame : ∀ a, a ≠ p → a ≠ y → (((k.setProc y fun q => { q with next := (k.proc p).next
        }).setProc p fun q => { q with next := none, alreadyEnqueued := false }).proc a)
        = k.proc a := by
      intro a ha hay
      rw [setProc_proc_of_ne _ _ _ _ ha, setProc_proc_of_ne _ _ _ _ hay]
    refine h.update ?_ (fun l' hl => rfl) (fun l' hl a ha => ?_) hdisj
      (flag_remove h _ hq (fun a ha => ?_) (by simp))
    · refine chain_remove hc (fun he => absurd he husne) (fun _ => rfl) (fun y' hy' => ?_)
        fun a ha hay => ?_
      · rw [hlast, Option.some.injEq] at hy'
        subst hy'
        simp [Kernel.next, hyp]
      · have hap : a ≠ p := by
          rintro rfl
          rcases List.mem_append.mp ha with ha | ha
          · exact hpus ha
          · exact hpvs ha
        have hay' : a ≠ y := fun hay' => hay (hay' ▸ hlast)
        simp only [Kernel.next, hsame a hap hay']
    · have hap : a ≠ p := fun hap => hl (h.level_unique (hap ▸ ha) hp)
      have hay : a ≠ y := fun hay => hl (h.level_unique (hay ▸ ha) hyl)
      rw [hsame a hap hay]
    · rw [setProc_proc_of_ne _ _ _ _ ha, setProc_proc]
      split <;> simp_all

/-! ### The level 2 selection -/

/-- The level 2 selection chooses a process of the list, if there is one. -/
theorem highPriority_spec (k : Kernel) (xs : List Slot) :
    (xs = [] ∧ highPriority k xs = none) ∨ ∃ p ∈ xs, highPriority k xs = some p := by
  have hfold : ∀ (xs : List Slot) (b : Slot), ∃ p, (p = b ∨ p ∈ xs) ∧
      highPriority k (b :: xs) = some p := by
    intro xs
    induction xs with
    | nil => intro b; exact ⟨b, .inl rfl, rfl⟩
    | cons x xs ih =>
      intro b
      have hstep : highPriority k (b :: x :: xs) =
          xs.foldl _ (if (k.proc x).priority < (k.proc b).priority then some x else some b) := rfl
      rw [hstep]
      by_cases hlt : (k.proc x).priority < (k.proc b).priority
      · obtain ⟨p, hp, hrun⟩ := ih x
        refine ⟨p, .inr ?_, by rw [if_pos hlt]; exact hrun⟩
        rcases hp with rfl | hp
        · simp
        · simp [hp]
      · obtain ⟨p, hp, hrun⟩ := ih b
        refine ⟨p, ?_, by rw [if_neg hlt]; exact hrun⟩
        rcases hp with rfl | hp
        · exact .inl rfl
        · simp [hp]
  cases xs with
  | nil => exact .inl ⟨rfl, rfl⟩
  | cons x xs =>
    obtain ⟨p, hp, hrun⟩ := hfold xs x
    refine .inr ⟨p, ?_, hrun⟩
    rcases hp with rfl | hp
    · simp
    · simp [hp]

end Xv6.Mlfq
