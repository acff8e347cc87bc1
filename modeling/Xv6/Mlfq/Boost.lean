import Xv6.Mlfq.Queue

namespace Xv6.Mlfq

open Xv6.Lib

/-!
# MLFQ scheduler — priority boosting

The boost rewires the `next` links by hand: it walks to the last process of `level_queue[0]`
and hangs the processes of the two other queues behind it, one by one.

* `boostMove_spec` — one of the two moving loops, as a statement on list segments;
* `boost_spec` — on well-formed queues, with the scheduler not locked, the whole boost
  concatenates the three queues and resets the scheduling fields of every queued process.
-/

/-! ### The first loop: resetting `level_queue[0]` -/

/-- What the boost does to a process of `level_queue[0]`. -/
def resetPriority (q : Proc) : Proc := { q with priority := 3, timeAllotment := 0 }

/-- What the boost does to a process of the two lower queues, apart from its link. -/
def resetLevel (q : Proc) : Proc :=
  { q with level := 0, priority := 3, timeAllotment := 0, timeQuantum := 4 }

theorem boostFirst_spec (k : Kernel) (xs : List Slot) :
    boostFirst k xs =
      { k with proc := fun i => if i ∈ xs then resetPriority (k.proc i) else k.proc i } := by
  induction xs generalizing k with
  | nil => simp [boostFirst]
  | cons x xs ih =>
    have hcons : boostFirst k (x :: xs) = boostFirst (k.setProc x resetPriority) xs := rfl
    rw [hcons, ih]
    congr 1
    funext i
    by_cases hx : i = x
    · subst hx
      simp [resetPriority]
    · simp [hx]

/-! ### The moving loops -/

/-- The moving loop hangs the list `xs` behind the list `ys` that starts at `level_queue[0]`
    and ends at `cur`.  While the loop runs, `ys` already leads on into `xs` (`e = h`). -/
theorem boostMove_succ (n : Nat) (k : Kernel) (cur : Option Slot) (x : Slot) :
    boostMove (n + 1) k cur (some x) = boostMove n (cur.elim ((k.setProc x resetLevel).setQueue 0 (some x)) fun c =>
      (k.setProc x resetLevel).setProc c fun q => { q with next := some x }) (some x)
      ((cur.elim ((k.setProc x resetLevel).setQueue 0 (some x)) fun c =>
        (k.setProc x resetLevel).setProc c fun q => { q with next := some x }).proc x).next := by
  cases cur <;> rfl

theorem boostMove_spec {n : Nat} {k : Kernel} {cur h e : Option Slot} {xs ys : List Slot}
    (hseg : Seg k.next (k.levelQueue 0) ys e) (he : e = none ∨ e = h)
    (hcur : cur = ys.getLast?) (hc : Chain k.next h xs) (hnd : (ys ++ xs).Nodup)
    (hn : xs.length ≤ n) :
    ∃ k', boostMove n k cur h = .ok (k', (ys ++ xs).getLast?) ∧
      Chain k'.next (k'.levelQueue 0) (ys ++ xs) ∧
      (∀ i, i ∈ xs → k'.proc i = { resetLevel (k.proc i) with next := (k'.proc i).next }) ∧
      (∀ i, i ∉ xs → k'.proc i = { k.proc i with next := (k'.proc i).next }) ∧
      (∀ i, i ∉ ys ++ xs → k'.proc i = k.proc i) ∧
      (∀ l, l ≠ 0 → k'.levelQueue l = k.levelQueue l) ∧ SameGlobals k k' := by
  induction xs generalizing n k cur h e ys with
  | nil =>
    rw [chain_nil_iff] at hc
    subst hc
    have he' : e = none := he.elim id id
    subst he'
    refine ⟨k, ?_, ?_, by simp, fun _ _ => rfl, fun _ _ => rfl, fun _ _ => rfl, .refl k⟩
    · simp [boostMove, hcur]
    · rw [List.append_nil]; exact hseg
  | cons x xs ih =>
    obtain ⟨rfl, hxs⟩ := chain_cons_iff.mp hc
    cases n with
    | zero => simp at hn
    | succ n =>
      have hxy : x ∉ ys := by
        rw [List.nodup_append] at hnd
        exact fun hm => hnd.2.2 x hm x (by simp) rfl
      have hxxs : x ∉ xs := by
        rw [List.nodup_append] at hnd
        exact (List.nodup_cons.mp hnd.2.1).1
      -- `k₂` is the state after the two assignments of this round
      set k₁ := k.setProc x resetLevel with hk₁
      set k₂ := cur.elim (k₁.setQueue 0 (some x)) fun c =>
        k₁.setProc c fun q => { q with next := some x } with hk₂
      have hstep : boostMove (n + 1) k cur (some x) =
          boostMove n k₂ (some x) (k₂.proc x).next := boostMove_succ n k cur x
      have hlinkx : (k₂.proc x).next = (k.proc x).next ∧
          k₂.proc x = { resetLevel (k.proc x) with next := (k₂.proc x).next } := by
        cases hcc : cur with
        | none => simp [hk₂, hcc, hk₁, resetLevel]
        | some c =>
          have hxc : x ≠ c := by
            rw [hcc] at hcur
            exact fun hxc => hxy (hxc ▸ List.mem_of_mem_getLast? hcur.symm)
          simp [hk₂, hcc, hk₁, resetLevel, hxc]
      have hother : ∀ i, i ≠ x → k₂.proc i = { k.proc i with next := (k₂.proc i).next } := by
        intro i hix
        cases hcc : cur with
        | none => simp [hk₂, hcc, hk₁, hix]
        | some c =>
          by_cases hic : i = c
          · subst hic; simp [hk₂, hcc, hk₁, hix]
          · simp [hk₂, hcc, hk₁, hix, hic]
      have hsame : ∀ i, i ≠ x → cur ≠ some i → k₂.proc i = k.proc i := by
        intro i hix hic
        cases hcc : cur with
        | none => simp [hk₂, hcc, hk₁, hix]
        | some c =>
          have hic' : i ≠ c := fun hic' => hic (hic' ▸ hcc)
          simp [hk₂, hcc, hk₁, hix, hic']
      have hrest : (∀ l, l ≠ 0 → k₂.levelQueue l = k.levelQueue l) ∧ SameGlobals k k₂ := by
        cases hcc : cur with
        | none =>
          exact ⟨fun l hl => by simp [hk₂, hcc, hk₁, hl],
            hk₂ ▸ hcc ▸ (SameGlobals.setProc k x _).trans (.setQueue _ 0 _)⟩
        | some c =>
          refine ⟨fun l hl => by simp [hk₂, hcc, hk₁], ?_⟩
          rw [hk₂, hcc, Option.elim_some]
          exact (SameGlobals.setProc k x _).trans (.setProc k₁ c _)
      -- the list behind `level_queue[0]` now ends with `x` and leads into `xs`
      have hseg₂ : Seg k₂.next (k₂.levelQueue 0) (ys ++ [x]) (k₂.proc x).next := by
        rcases List.eq_nil_or_concat ys with rfl | ⟨ys, c, rfl⟩
        · simp only [List.getLast?_nil] at hcur
          subst hcur
          simp [hk₂, Kernel.next]
        · rw [List.concat_eq_append] at *
          have hcur' : cur = some c := by simpa using hcur
          have hcys : c ∉ ys := by
            rw [List.nodup_append, List.nodup_append] at hnd
            exact fun hm => hnd.1.2.2 c hm c (by simp) rfl
          obtain ⟨m, h1, h2⟩ := seg_append_iff.mp hseg
          rw [seg_cons_iff] at h2
          have hq : k₂.levelQueue 0 = k.levelQueue 0 := by simp [hk₂, hcur', hk₁]
          rw [hq, List.append_assoc]
          refine seg_append_iff.mpr ⟨m, h1.congr fun a ha => ?_, ?_⟩
          · have hax : a ≠ x := fun hax => hxy (by simp [← hax, ha])
            have hac : cur ≠ some a := by
              rw [hcur']; rintro ⟨⟩; exact hcys ha
            simp only [Kernel.next, hsame a hax hac]
          · rw [List.singleton_append, seg_cons_iff, seg_cons_iff, seg_nil_iff]
            refine ⟨h2.1, ?_, rfl⟩
            simp [hk₂, hcur', Kernel.next]
      have hxs₂ : Chain k₂.next (k₂.proc x).next xs := by
        rw [hlinkx.1]
        refine hxs.congr fun a ha => ?_
        have hax : a ≠ x := fun hax => hxxs (hax ▸ ha)
        have hac : cur ≠ some a := by
          rw [hcur]
          intro hlast
          rw [List.nodup_append] at hnd
          exact hnd.2.2 a (List.mem_of_mem_getLast? hlast) a (by simp [ha]) rfl
        simp only [Kernel.next, hsame a hax hac]
      have hnd₂ : ((ys ++ [x]) ++ xs).Nodup := by simpa using hnd
      have hcur₂ : some x = (ys ++ [x]).getLast? := by simp
      obtain ⟨k', hrun, hch, hin, hout, hfar, hlq, hk'⟩ :=
        ih hseg₂ (.inr rfl) hcur₂ hxs₂ hnd₂ (by simpa using hn)
      rw [List.append_assoc, List.singleton_append] at hrun hch hfar
      refine ⟨k', hstep ▸ hrun, hch, fun i hi => ?_, fun i hi => ?_, fun i hi => ?_,
        fun l hl => (hlq l hl).trans (hrest.1 l hl), hrest.2.trans hk'⟩
      · rcases List.mem_cons.mp hi with rfl | hi
        · rw [hout _ hxxs, hlinkx.2]
        · have hix : i ≠ x := fun hix => hxxs (hix ▸ hi)
          rw [hin i hi, hother i hix]
          rfl
      · rw [List.mem_cons, not_or] at hi
        rw [hout i hi.2, hother i hi.1]
      · rw [hfar i hi]
        simp only [List.mem_append, List.mem_cons, not_or] at hi
        refine hsame i hi.2.1 fun hcur' => hi.1 ?_
        rw [hcur] at hcur'
        exact List.mem_of_mem_getLast? hcur'

/-! ### The whole boost -/

/-- The queues after a boost. -/
def boosted (q : Nat → List Slot) (l : Nat) : List Slot :=
  if l = 0 then q 0 ++ (q 1 ++ q 2) else if l ≤ 2 then [] else q l

/-- A process after a boost, apart from its link. -/
def boostProc (q : Nat → List Slot) (i : Slot) (p : Proc) : Proc :=
  if i ∈ q 0 then resetPriority p else if i ∈ q 1 ∨ i ∈ q 2 then resetLevel p else p

theorem mem_boosted (q : Nat → List Slot) (i : Slot) :
    (∃ l, i ∈ boosted q l) ↔ ∃ l, i ∈ q l := by
  constructor
  · rintro ⟨l, hi⟩
    rw [boosted] at hi
    split at hi
    · simp only [List.mem_append] at hi
      rcases hi with hi | hi | hi
      · exact ⟨0, hi⟩
      · exact ⟨1, hi⟩
      · exact ⟨2, hi⟩
    · split at hi
      · simp at hi
      · exact ⟨l, hi⟩
  · rintro ⟨l, hi⟩
    by_cases hl : l ≤ 2
    · refine ⟨0, ?_⟩
      have : l = 0 ∨ l = 1 ∨ l = 2 := by omega
      rcases this with rfl | rfl | rfl <;> simp [boosted, hi]
    · refine ⟨l, ?_⟩
      rw [boosted, if_neg (by omega), if_neg hl]
      exact hi

/-- On well-formed queues the links part of the boost ends and concatenates the queues. -/
theorem boostQueues_spec {k : Kernel} {q : Nat → List Slot} (h : Queues k q) :
    ∃ k', boostQueues k = .ok k' ∧ Queues k' (boosted q) ∧ SameGlobals k k' ∧
      (∀ i, k'.proc i = { boostProc q i (k.proc i) with next := (k'.proc i).next }) ∧
      (∀ i, i ∉ q 0 ++ q 1 ++ q 2 → k'.proc i = k.proc i) ∧
      ∀ l, 3 ≤ l → k'.levelQueue l = k.levelQueue l := by
  have hd01 := h.disjoint 0 1 (by omega)
  have hd02 := h.disjoint 0 2 (by omega)
  have hd12 := h.disjoint 1 2 (by omega)
  have hnd01 : (q 0 ++ q 1).Nodup := (h.chain 0).nodup.append (h.chain 1).nodup hd01
  have hnd012 : (q 0 ++ q 1 ++ q 2).Nodup :=
    hnd01.append (h.chain 2).nodup (List.disjoint_append_left.mpr ⟨hd02, hd12⟩)
  have hwalk : walkList k.next NPROC (k.levelQueue 0) = some (q 0) :=
    walkList_eq (h.chain 0) (h.length_le 0)
  -- the first loop touches no link
  have hq₁ : Queues (boostFirst k (q 0)) q := by
    rw [boostFirst_spec]
    refine h.congr (fun i => ?_) (fun i => ?_) rfl
    · simp only; split <;> simp [resetPriority]
    · simp only; split <;> simp [resetPriority]
  have hp₁ : ∀ i, (boostFirst k (q 0)).proc i =
      if i ∈ q 0 then resetPriority (k.proc i) else k.proc i := by
    intro i; rw [boostFirst_spec]
  have hg₁ : SameGlobals k (boostFirst k (q 0)) := by
    rw [boostFirst_spec]; exact ⟨rfl, rfl, rfl, rfl, rfl, rfl, rfl⟩
  generalize hk₁ : boostFirst k (q 0) = k₁ at hq₁ hp₁ hg₁
  -- level 1
  obtain ⟨k₂, hrun₂, hc₂, hin₂, hout₂, hfar₂, hlq₂, hg₂⟩ :=
    boostMove_spec (hq₁.chain 0) (.inl rfl) rfl (hq₁.chain 1) hnd01 (hq₁.length_le 1)
  -- level 2
  have hc2 : Chain (k₂.setQueue 1 none).next ((k₂.setQueue 1 none).levelQueue 2) (q 2) := by
    have hlq : (k₂.setQueue 1 none).levelQueue 2 = k₁.levelQueue 2 := by
      simp [hlq₂ 2 (by omega)]
    rw [hlq]
    refine (hq₁.chain 2).congr fun a ha => ?_
    have : a ∉ q 0 ++ q 1 := fun hm => by
      rcases List.mem_append.mp hm with hm | hm
      · exact hd02 hm ha
      · exact hd12 hm ha
    simp only [Kernel.next, setQueue_proc, hfar₂ a this]
  have hc0 : Chain (k₂.setQueue 1 none).next ((k₂.setQueue 1 none).levelQueue 0) (q 0 ++ q 1) :=
    hc₂
  obtain ⟨k₃, hrun₃, hc₃, hin₃, hout₃, hfar₃, hlq₃, hg₃⟩ :=
    boostMove_spec hc0 (.inl rfl) rfl hc2 hnd012 (hq₁.length_le 2)
  have hproc : ∀ i, k₃.proc i = { boostProc q i (k.proc i) with next := (k₃.proc i).next } := by
    intro i
    rw [boostProc]
    by_cases h2 : i ∈ q 2
    · have h1 : i ∉ q 1 := fun h1 => hd12 h1 h2
      have h0 : i ∉ q 0 := fun h0 => hd02 h0 h2
      rw [hin₃ i h2, setQueue_proc, hout₂ i h1, hp₁ i, if_neg h0, if_neg h0, if_pos (.inr h2)]
      rfl
    · rw [hout₃ i h2, setQueue_proc]
      by_cases h1 : i ∈ q 1
      · have h0 : i ∉ q 0 := fun h0 => hd01 h0 h1
        rw [hin₂ i h1, hp₁ i, if_neg h0, if_neg h0, if_pos (.inl h1)]
      · rw [hout₂ i h1, hp₁ i]
        by_cases h0 : i ∈ q 0
        · rw [if_pos h0, if_pos h0]
        · rw [if_neg h0, if_neg h0, if_neg (by simp [h1, h2])]
  refine ⟨k₃.setQueue 2 none, ?_, ⟨fun l => ?_, fun l l' hne => ?_, fun p => ?_⟩, ?_, hproc,
    fun i hi => ?_, fun l hl => ?_⟩
  · simp only [boostQueues, hwalk, hk₁, hrun₂, bind, Except.bind, hrun₃]
  · by_cases hl0 : l = 0
    · subst hl0
      simpa [boosted, List.append_assoc] using hc₃
    · by_cases hl2 : l ≤ 2
      · have : l = 1 ∨ l = 2 := by omega
        rcases this with rfl | rfl
        · simp [boosted, hlq₃ 1 (by omega)]
        · simp [boosted]
      · have hlq : (k₃.setQueue 2 none).levelQueue l = k₁.levelQueue l := by
          have h2 : l ≠ 2 := by omega
          have h1 : l ≠ 1 := by omega
          simp [h2, h1, hlq₃ l hl0, hlq₂ l hl0]
        rw [hlq, boosted, if_neg hl0, if_neg hl2]
        refine (hq₁.chain l).congr fun a ha => ?_
        have hnot : ∀ l', l' ≤ 2 → a ∉ q l' := fun l' hl' ha' =>
          absurd (h.level_unique ha ha') (by omega)
        have h3 : a ∉ q 0 ++ q 1 ++ q 2 := by
          simp only [List.mem_append, not_or]
          exact ⟨⟨hnot 0 (by omega), hnot 1 (by omega)⟩, hnot 2 (by omega)⟩
        have h2 : a ∉ q 0 ++ q 1 := by
          simp only [List.mem_append, not_or]
          exact ⟨hnot 0 (by omega), hnot 1 (by omega)⟩
        simp only [Kernel.next, setQueue_proc, hfar₃ a h3, hfar₂ a h2]
  · intro a ha ha'
    simp only [boosted] at ha ha'
    have key : ∀ l, a ∈ q l → (l ≤ 2 → False) → a ∈ q 0 ++ (q 1 ++ q 2) → False := by
      intro l hal hl hm
      simp only [List.mem_append] at hm
      rcases hm with hm | hm | hm
      · exact hl (by have := h.level_unique hal hm; omega)
      · exact hl (by have := h.level_unique hal hm; omega)
      · exact hl (by have := h.level_unique hal hm; omega)
    split at ha <;> split at ha'
    · omega
    · split at ha'
      · simp at ha'
      · exact key l' ha' (by omega) ha
    · split at ha
      · simp at ha
      · exact key l ha (by omega) ha'
    · split at ha
      · simp at ha
      · split at ha'
        · simp at ha'
        · exact hne (h.level_unique ha ha')
  · rw [mem_boosted, ← h.flag p, setQueue_proc, hproc p]
    simp only [boostProc]
    split
    · rfl
    · split <;> rfl
  · exact (hg₁.trans hg₂).trans ((SameGlobals.setQueue k₂ 1 none).trans
      (hg₃.trans (SameGlobals.setQueue k₃ 2 none)))
  · have h01 : i ∉ q 0 ++ q 1 := fun h01 => hi (List.mem_append_left _ h01)
    have h0 : i ∉ q 0 := fun h0 => h01 (List.mem_append_left _ h0)
    rw [setQueue_proc, hfar₃ i hi, setQueue_proc, hfar₂ i h01, hp₁ i, if_neg h0]
  · have h2 : l ≠ 2 := by omega
    have h1 : l ≠ 1 := by omega
    have hk : k₁.levelQueue = k.levelQueue := by rw [← hk₁, boostFirst_spec]
    rw [setQueue_levelQueue, Function.update_of_ne h2, hlq₃ l (by omega), setQueue_levelQueue,
      Function.update_of_ne h1, hlq₂ l (by omega), hk]

end Xv6.Mlfq
