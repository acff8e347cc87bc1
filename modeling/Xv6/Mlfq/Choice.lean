import Xv6.Mlfq.Boost
import Xv6.Lib.Transition

namespace Xv6.Mlfq

open Xv6.Lib

/-!
# MLFQ scheduler — the process that is chosen, and priority boosting

What the queue primitives do to three queues that are finite lists, of any lengths and in any order,
and what one pass of `scheduler()` does to them while the scheduler is not locked.

* `ThreeQueues` — the queues as lists;
* `queue_primitives` — the primitives implement lists;
* `scheduler_choice` — the pass takes the process out that `Chosen` describes, and no other;
* `boost_concatenates` — the boost appends the lower queues to the first one.
-/

variable {k k' : Kernel} {p : Slot} {q : Fin 3 → List Slot}

/-- `level_queue` has three entries, which are disjoint finite lists, and `already_enqueued` marks
    their processes. -/
structure ThreeQueues (k : Kernel) (q : Fin 3 → List Slot) : Prop where
  chain : ∀ l : Fin 3, Chain k.next (k.levelQueue l) (q l)
  out : ∀ l, 3 ≤ l → k.levelQueue l = none
  disjoint : ∀ l l', l ≠ l' → (q l).Disjoint (q l')
  flag : ∀ p, (k.proc p).alreadyEnqueued = true ↔ ∃ l, p ∈ q l

/-- The lists of all levels, of which only the first three can have processes. -/
def allLevels (q : Fin 3 → List Slot) (l : Nat) : List Slot := if h : l < 3 then q ⟨l, h⟩ else []

theorem allLevels_of_lt {l : Nat} (hl : l < 3) : allLevels q l = q ⟨l, hl⟩ := dif_pos hl

theorem allLevels_val (q : Fin 3 → List Slot) (l : Fin 3) : allLevels q l = q l := dif_pos l.isLt

theorem threeQueues_iff : ThreeQueues k q ↔
    Queues k (allLevels q) ∧ ∀ l, 3 ≤ l → k.levelQueue l = none := by
  constructor
  · refine fun h => ⟨⟨fun l => ?_, fun l l' hne => ?_, fun i => ?_⟩, h.out⟩
    · by_cases hl : l < 3
      · rw [allLevels_of_lt hl]
        exact h.chain ⟨l, hl⟩
      · rw [allLevels, dif_neg hl, h.out l (by omega)]
        exact chain_nil_iff.mpr rfl
    · by_cases hl : l < 3 ∧ l' < 3
      · rw [allLevels_of_lt hl.1, allLevels_of_lt hl.2]
        exact h.disjoint _ _ fun heq => hne (Fin.mk.inj heq)
      · rcases not_and_or.mp hl with hl | hl
        · rw [allLevels, dif_neg hl]
          exact List.disjoint_nil_left _
        · rw [allLevels.eq_def q l', dif_neg hl]
          exact List.disjoint_nil_right _
    · rw [h.flag]
      constructor
      · rintro ⟨l, hi⟩
        exact ⟨l, by rwa [allLevels_val]⟩
      · rintro ⟨l, hi⟩
        by_cases hl : l < 3
        · exact ⟨⟨l, hl⟩, by rwa [allLevels_of_lt hl] at hi⟩
        · rw [allLevels, dif_neg hl] at hi
          cases hi
  · rintro ⟨h, hnone⟩
    refine ⟨fun l => ?_, hnone, fun l l' hne => ?_, fun i => ?_⟩
    · have hc := h.chain l
      rwa [allLevels_val] at hc
    · have hd := h.disjoint l l' fun heq => hne (Fin.ext heq)
      rwa [allLevels_val, allLevels_val] at hd
    · rw [h.flag]
      constructor
      · rintro ⟨l, hi⟩
        by_cases hl : l < 3
        · exact ⟨⟨l, hl⟩, by rwa [allLevels_of_lt hl] at hi⟩
        · rw [allLevels, dif_neg hl] at hi
          cases hi
      · rintro ⟨l, hi⟩
        exact ⟨l, by rwa [allLevels_val]⟩

theorem allLevels_update (l : Fin 3) (xs : List Slot) :
    allLevels (Function.update q l xs) = Function.update (allLevels q) l xs := by
  funext l'
  by_cases hlt : l' < 3
  · rw [allLevels_of_lt hlt]
    by_cases hl : l' = l
    · subst hl
      rw [Function.update_self, Function.update_self]
    · have hne : (⟨l', hlt⟩ : Fin 3) ≠ l := fun heq => hl (congrArg Fin.val heq)
      rw [Function.update_of_ne hne, Function.update_of_ne hl, allLevels_of_lt hlt]
  · have hl : l' ≠ l := fun heq => hlt (heq ▸ l.isLt)
    rw [Function.update_of_ne hl, allLevels, allLevels, dif_neg hlt, dif_neg hlt]

/-- One of the lists has been replaced. -/
theorem ThreeQueues.of_update {l : Fin 3} {xs : List Slot}
    (h : Queues k' (Function.update (allLevels q) l xs)) :
    ThreeQueues k' (Function.update q l xs) := by
  rw [← allLevels_update] at h
  refine threeQueues_iff.mpr ⟨h, fun l' hl' => ?_⟩
  have hchain := h.chain l'
  rw [allLevels, dif_neg (by omega)] at hchain
  exact chain_nil_iff.mp hchain

/-! ### The queue primitives -/

/-- The queue primitives implement lists: `enqueue` appends, `dequeue` takes the first element out and
    `dequeue_specific` a given one, and the other queues stay as they are. -/
theorem queue_primitives (h : ThreeQueues k q) (p : Slot) (l : Fin 3) :
    ((∀ l', p ∉ q l') → ∃ k', enqueue k p l = .ok k' ∧ SameButLinks k k' ∧
      ThreeQueues k' (Function.update q l (q l ++ [p]))) ∧
    ((∃ l', p ∈ q l') → enqueue k p l = .ok k) ∧
    (q l = [] → dequeue k l = (none, k)) ∧
    (∀ x xs, q l = x :: xs → ∃ k', dequeue k l = (some x, k') ∧ SameButLinks k k' ∧
      ThreeQueues k' (Function.update q l xs)) ∧
    (p ∈ q l → ∃ k', dequeueSpecific k l p = .ok k' ∧ SameButLinks k k' ∧
      ThreeQueues k' (Function.update q l ((q l).erase p))) ∧
    (p ∉ q l → dequeueSpecific k l p = .ok k) := by
  have hQ := (threeQueues_iff.mp h).1
  have hl := allLevels_val q l
  refine ⟨fun hout => ?_, fun hin => enqueue_of_flag ((h.flag p).mpr hin),
    fun hnil => dequeue_nil hQ (hl.trans hnil), fun x xs hcons => ?_, fun hin => ?_,
    fun hout => dequeueSpecific_of_not_mem hQ (by rwa [hl])⟩
  · have hflag : (k.proc p).alreadyEnqueued = false := by
      rw [← Bool.not_eq_true, h.flag]
      exact fun ⟨l', hl'⟩ => hout l' hl'
    obtain ⟨k', hrun, hsame, hqueues⟩ := enqueue_spec hQ l hflag
    rw [hl] at hqueues
    exact ⟨k', hrun, hsame, .of_update hqueues⟩
  · obtain ⟨k', hrun, hsame, -, -, hqueues⟩ := dequeue_cons hQ (hl.trans hcons)
    exact ⟨k', hrun, hsame, .of_update hqueues⟩
  · obtain ⟨k', hrun, hsame, -, -, hqueues⟩ := dequeueSpecific_spec hQ (hl.symm ▸ hin)
    rw [hl] at hqueues
    exact ⟨k', hrun, hsame, .of_update hqueues⟩

/-! ### The choice -/

/-- `p` is the first of the list with the smallest priority. -/
def FirstSmallest (k : Kernel) (xs : List Slot) (p : Slot) : Prop :=
  ∃ us vs, xs = us ++ p :: vs ∧ (∀ u ∈ us, (k.proc p).priority < (k.proc u).priority) ∧
    ∀ v ∈ vs, (k.proc p).priority ≤ (k.proc v).priority

/-- The process that the scheduler has to choose. -/
def Chosen (k : Kernel) (q : Fin 3 → List Slot) : Option Slot → Prop
  | some p => (q 0).head? = some p ∨ q 0 = [] ∧ ((q 1).head? = some p ∨
      q 1 = [] ∧ FirstSmallest k (q 2) p)
  | none => ∀ l, q l = []

theorem chosen_none_iff {r : Option Slot} (h : Chosen k q r) : r = none ↔ ∀ l, q l = [] := by
  cases r with
  | none => exact ⟨fun _ => h, fun _ => rfl⟩
  | some p =>
    refine ⟨fun hr => (by cases hr), fun hnil => ?_⟩
    rcases h with h0 | ⟨-, h1 | ⟨-, us, vs, h2, -⟩⟩
    · rw [hnil 0] at h0
      cases h0
    · rw [hnil 1] at h1
      cases h1
    · rw [hnil 2] at h2
      simp at h2

/-- The scan of level 2 finds the first process with the smallest priority. -/
theorem highPriority_eq (k : Kernel) (xs : List Slot) : (xs = [] ∧ highPriority k xs = none) ∨
    ∃ p, FirstSmallest k xs p ∧ highPriority k xs = some p := by
  induction xs using List.reverseRecOn with
  | nil => exact .inl ⟨rfl, rfl⟩
  | append_singleton xs x ih =>
    have hstep : highPriority k (xs ++ [x]) = [x].foldl _ (highPriority k xs) := List.foldl_append
    rw [hstep]
    refine .inr ?_
    rcases ih with ⟨rfl, hnone⟩ | ⟨b, ⟨us, vs, rfl, hus, hvs⟩, hsome⟩
    · rw [hnone]
      exact ⟨x, ⟨[], [], rfl, by simp, by simp⟩, rfl⟩
    · rw [hsome]
      show ∃ p, _ ∧ (if (k.proc x).priority < (k.proc b).priority then some x else some b) = some p
      by_cases hlt : (k.proc x).priority < (k.proc b).priority
      · rw [if_pos hlt]
        refine ⟨x, ⟨us ++ b :: vs, [], rfl, fun u hu => ?_, by simp⟩, rfl⟩
        rcases List.mem_append.mp hu with hu | hu
        · exact hlt.trans (hus u hu)
        · rcases List.mem_cons.mp hu with rfl | hu
          · exact hlt
          · exact hlt.trans_le (hvs u hu)
      · rw [if_neg hlt]
        refine ⟨b, ⟨us, vs ++ [x], by simp, hus, fun v hv => ?_⟩, rfl⟩
        rcases List.mem_append.mp hv with hv | hv
        · exact hvs v hv
        · rw [List.mem_singleton.mp hv]
          exact not_lt.mp hlt

/-- The process has been taken out of the queues, and nothing else has changed. -/
structure TakenOut (k k' : Kernel) (q : Fin 3 → List Slot) (p : Slot) : Prop
    extends SameButLinks k k' where
  queues : ThreeQueues k' fun l => (q l).erase p
  next : (k'.proc p).next = none
  flag : (k'.proc p).alreadyEnqueued = false

theorem dequeue_queue (k : Kernel) {l l' : Nat} (hl : l' ≠ l) :
    (dequeue k l).2.levelQueue l' = k.levelQueue l' := by
  rw [dequeue]
  split
  · rfl
  · simp [hl]

theorem dequeueSpecific_queue {l l' : Nat} (h : dequeueSpecific k l p = .ok k') (hl : l' ≠ l) :
    k'.levelQueue l' = k.levelQueue l' := by
  rw [dequeueSpecific] at h
  split at h
  · cases h; rfl
  · split at h
    · cases h
    · cases h; rfl
    · rename_i prev _
      cases h
      cases prev with
      | none => simp [hl]
      | some y => rfl

/-- Taking a process out of one queue. -/
theorem takenOut_of_update (h : ThreeQueues k q) {l : Fin 3} {xs : List Slot}
    (hsame : SameButLinks k k') (hnext : (k'.proc p).next = none)
    (hflag : (k'.proc p).alreadyEnqueued = false) (hmem : p ∈ q l) (hxs : xs = (q l).erase p)
    (hqueue : ∀ l' : Nat, 3 ≤ l' → k'.levelQueue l' = none)
    (hQ : Queues k' (Function.update (allLevels q) l xs)) : TakenOut k k' q p := by
  refine ⟨hsame, threeQueues_iff.mpr ⟨?_, hqueue⟩, hnext, hflag⟩
  have hlists : Function.update (allLevels q) l xs = allLevels fun l' => (q l').erase p := by
    funext l'
    by_cases hl : l' = l
    · subst hl
      rw [Function.update_self, allLevels_val, hxs]
    · rw [Function.update_of_ne hl]
      by_cases hl3 : l' < 3
      · rw [allLevels_of_lt hl3, allLevels_of_lt hl3, List.erase_of_not_mem]
        exact fun hp => hl (congrArg Fin.val
          (by_contra fun hne => h.disjoint ⟨l', hl3⟩ l hne hp hmem))
      · rw [allLevels, dif_neg hl3, allLevels, dif_neg hl3]
  rwa [← hlists]

/-- **The choice of the scheduler.**  The pass takes out the head of the first queue that is not
    empty among the first two, or else the first process of level 2 with the smallest priority, and
    finds none exactly when all queues are empty. -/
theorem scheduler_choice (h : ThreeQueues k q) (hfree : k.schedulerLocked = false) :
    ∃ r k', pick k = .ok (r, k') ∧ Chosen k q r ∧ (r = none ↔ ∀ l, q l = []) ∧
      match r with
      | some p => TakenOut k k' q p
      | none => k' = k := by
  obtain ⟨hQ, hout⟩ := threeQueues_iff.mp h
  have hlevel : ∀ l : Fin 3, allLevels q l = q l := allLevels_val q
  -- a queue that is not empty gives its head
  have hfirst : ∀ (l : Fin 3) (x : Slot) (xs : List Slot), q l = x :: xs →
      ∃ k', dequeue k l = (some x, k') ∧ TakenOut k k' q x := by
    intro l x xs hq
    obtain ⟨k', hdeq, hsame, hnext, hflag, hQ'⟩ := dequeue_cons hQ ((hlevel l).trans hq)
    refine ⟨k', hdeq, takenOut_of_update h hsame hnext hflag (by rw [hq]; exact List.mem_cons_self)
      (by rw [hq, List.erase_cons_head]) (fun l' hl' => ?_) hQ'⟩
    have hne : l' ≠ (l : Nat) := by omega
    have hother := dequeue_queue k hne
    rw [hdeq] at hother
    exact hother.trans (hout l' hl')
  suffices hpick : ∃ r k', pick k = .ok (r, k') ∧ Chosen k q r ∧
      match r with
      | some p => TakenOut k k' q p
      | none => k' = k by
    obtain ⟨r, k', hrun, hchosen, hrest⟩ := hpick
    exact ⟨r, k', hrun, hchosen, chosen_none_iff hchosen, hrest⟩
  have hnil : ∀ l : Fin 3, q l = [] → dequeue k l = (none, k) := fun l hq =>
    dequeue_nil hQ ((hlevel l).trans hq)
  rw [pick, if_neg (by simp [hfree])]
  cases hq0 : q 0 with
  | cons x xs =>
    obtain ⟨k', hdeq, htaken⟩ := hfirst 0 x xs hq0
    have hdeq0 : dequeue k 0 = (some x, k') := hdeq
    rw [hdeq0]
    exact ⟨some x, k', rfl, .inl (by rw [hq0]; rfl), htaken⟩
  | nil =>
    have hdeq0 : dequeue k 0 = (none, k) := hnil 0 hq0
    rw [hdeq0]
    cases hq1 : q 1 with
    | cons x xs =>
      obtain ⟨k', hdeq, htaken⟩ := hfirst 1 x xs hq1
      have hdeq1 : dequeue k 1 = (some x, k') := hdeq
      simp only [hdeq1]
      exact ⟨some x, k', rfl, .inr ⟨hq0, .inl (by rw [hq1]; rfl)⟩, htaken⟩
    | nil =>
      have hdeq1 : dequeue k 1 = (none, k) := hnil 1 hq1
      have hlevel2 : allLevels q 2 = q 2 := hlevel 2
      have hwalk : walkList k.next NPROC (k.levelQueue 2) = some (q 2) :=
        walkList_eq (h.chain 2) (hlevel2 ▸ hQ.length_le 2)
      simp only [hdeq1, hwalk]
      rcases highPriority_eq k (q 2) with ⟨hq2, hhigh⟩ | ⟨p, hp, hhigh⟩
      · rw [hhigh]
        refine ⟨none, k, rfl, fun l => ?_, rfl⟩
        match l with
        | 0 => exact hq0
        | 1 => exact hq1
        | 2 => exact hq2
      · rw [hhigh]
        have hmem : p ∈ q 2 := by
          obtain ⟨us, vs, heq, -⟩ := hp
          rw [heq]
          simp
        obtain ⟨k', hrun, hsame, hnext, hflag, hQ'⟩ :=
          dequeueSpecific_spec hQ (l := 2) (p := p) (by rw [hlevel2]; exact hmem)
        simp only [hrun, ok_bind]
        refine ⟨some p, k', rfl, .inr ⟨hq0, .inr ⟨hq1, hp⟩⟩, ?_⟩
        have herase : (allLevels q 2).erase p = (q 2).erase p := by rw [hlevel2]
        exact takenOut_of_update (l := 2) h hsame hnext hflag hmem herase
          (fun l' hl' => (dequeueSpecific_queue hrun (by omega)).trans (hout l' hl')) hQ'

/-! ### Priority boosting -/

/-- **Priority boosting** while the scheduler is not locked: the first queue becomes the
    concatenation of the three, whose processes start anew, and nobody else changes. -/
theorem boost_concatenates (h : ThreeQueues k q) (hfree : k.schedulerLocked = false)
    (hdue : k.globalTick ≥ 100)
    (hmem : ∀ l, ∀ i ∈ q l, (k.proc i).level = l ∧ (k.proc i).timeQuantum = 2 * l + 4) :
    ∃ k', boostIfDue k = .ok k' ∧ k'.globalTick = 0 ∧
      ThreeQueues k' (fun l => if l = 0 then q 0 ++ q 1 ++ q 2 else []) ∧
      (∀ i ∈ q 0 ++ q 1 ++ q 2, (k'.proc i).level = 0 ∧ (k'.proc i).priority = 3 ∧
        (k'.proc i).timeAllotment = 0 ∧ (k'.proc i).timeQuantum = 4 ∧
        (k'.proc i).alreadyEnqueued = true) ∧
      ∀ i, i ∉ q 0 ++ q 1 ++ q 2 → k'.proc i = k.proc i := by
  obtain ⟨hQ, hout⟩ := threeQueues_iff.mp h
  have h0 : allLevels q 0 = q 0 := allLevels_val q 0
  have h1 : allLevels q 1 = q 1 := allLevels_val q 1
  have h2 : allLevels q 2 = q 2 := allLevels_val q 2
  obtain ⟨k₁, hrun, hQ₁, hsame, hproc, hothers, hheads⟩ := boostQueues_spec hQ
  have hfree₁ : k₁.schedulerLocked = false := hsame.schedulerLocked.trans hfree
  have hboost : unlockBoosted k₁ = .ok k₁ := by rw [unlockBoosted, if_neg (by simp [hfree₁])]
  rw [h0, h1, h2] at hothers
  have hlists : boosted (allLevels q) =
      allLevels fun l => if l = 0 then q 0 ++ q 1 ++ q 2 else [] := by
    funext l
    rw [boosted, h0, h1, h2]
    rcases l with _ | _ | _ | l
    · rw [if_pos rfl, ← List.append_assoc]
      rfl
    · rfl
    · rfl
    · rw [if_neg (by omega), if_neg (by omega), allLevels, dif_neg (by omega), allLevels,
        dif_neg (by omega)]
  have hthree : ThreeQueues k₁ (fun l => if l = 0 then q 0 ++ q 1 ++ q 2 else []) :=
    threeQueues_iff.mpr ⟨hlists ▸ hQ₁, fun l hl => (hheads l hl).trans (hout l hl)⟩
  refine ⟨{ k₁ with globalTick := 0 }, ?_, rfl,
    ⟨hthree.chain, hthree.out, hthree.disjoint, hthree.flag⟩, fun i hi => ?_, hothers⟩
  · rw [boostIfDue, if_pos hdue, boost, hrun, ok_bind, hboost, ok_bind]
  · have hflag : (k₁.proc i).alreadyEnqueued = true := (hthree.flag i).mpr ⟨0, by simpa using hi⟩
    show (k₁.proc i).level = 0 ∧ (k₁.proc i).priority = 3 ∧ (k₁.proc i).timeAllotment = 0 ∧
      (k₁.proc i).timeQuantum = 4 ∧ (k₁.proc i).alreadyEnqueued = true
    refine and_assoc.mp (and_assoc.mp (and_assoc.mp ⟨?_, hflag⟩))
    rw [hproc i, boostProc, h0, h1, h2]
    by_cases hi0 : i ∈ q 0
    · rw [if_pos hi0]
      obtain ⟨hlevel, hquantum⟩ := hmem 0 i hi0
      exact ⟨⟨⟨hlevel, rfl⟩, rfl⟩, hquantum⟩
    · have hi12 : i ∈ q 1 ∨ i ∈ q 2 := by
        simpa [hi0] using hi
      rw [if_neg hi0, if_pos hi12]
      exact ⟨⟨⟨rfl, rfl⟩, rfl⟩, rfl⟩

/-! ### A state -/

/-- Three processes wait on level 2, and the boost is due. -/
def waiting : Kernel :=
  { boot with
    globalTick := 100
    levelQueue := fun l => if l = 2 then some 0 else none
    proc := fun i =>
      if i = 0 then { level := 2, timeQuantum := 8, priority := 3, alreadyEnqueued := true,
                      next := some 1 }
      else if i = 1 then { level := 2, timeQuantum := 8, priority := 1, alreadyEnqueued := true,
                           next := some 2 }
      else if i = 2 then { level := 2, timeQuantum := 8, priority := 1, alreadyEnqueued := true }
      else {} }

/-- Its queues. -/
def waitingQueues (l : Fin 3) : List Slot := if l = 2 then [0, 1, 2] else []

theorem waiting_threeQueues : ThreeQueues waiting waitingQueues := by
  have hwalk : ∀ l : Fin 3, walkList waiting.next NPROC (waiting.levelQueue l) =
      some (waitingQueues l) := by decide +kernel
  refine ⟨fun l => walkList_some (hwalk l), fun l hl => if_neg (by omega), fun l l' hne i => ?_, ?_⟩
  · revert l l' i
    decide +kernel
  · decide +kernel

/-- The process in the middle is taken out of its queue. -/
theorem queue_primitives_waiting : ∃ k', dequeueSpecific waiting 2 1 = .ok k' ∧
    ThreeQueues k' (Function.update waitingQueues 2 [0, 2]) := by
  obtain ⟨k', hrun, -, hqueues⟩ :=
    (queue_primitives waiting_threeQueues 1 2).2.2.2.2.1 (by decide)
  exact ⟨k', hrun, hqueues⟩

/-- Of the two processes with the smallest priority the scheduler takes the first. -/
theorem scheduler_choice_waiting : ∃ k', pick waiting = .ok (some 1, k') ∧
    ThreeQueues k' fun l => if l = 2 then [0, 2] else [] := by
  obtain ⟨r, k', hrun, -, -, htaken⟩ := scheduler_choice waiting_threeQueues rfl
  have hr : r = some 1 := by
    have hfirst : (pick waiting).toOption.map Prod.fst = some (some 1) := by decide +kernel
    rw [hrun] at hfirst
    exact Option.some.inj hfirst
  subst hr
  refine ⟨k', hrun, ?_⟩
  have hlists : (fun l => (waitingQueues l).erase 1) = fun l => if l = 2 then [0, 2] else [] := by
    decide +kernel
  exact hlists ▸ htaken.queues

/-- The boost moves all three to the first queue. -/
theorem boost_concatenates_waiting : ∃ k', boostIfDue waiting = .ok k' ∧ k'.globalTick = 0 ∧
    ThreeQueues k' fun l => if l = 0 then [0, 1, 2] else [] := by
  obtain ⟨k', hrun, htick, hqueues, -⟩ :=
    boost_concatenates waiting_threeQueues rfl (by decide) (by decide +kernel)
  exact ⟨k', hrun, htick, hqueues⟩

end Xv6.Mlfq
