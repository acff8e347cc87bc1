import Xv6.Mlfq.LockedBoost
import Xv6.Mlfq.Params

namespace Xv6.Mlfq

open Xv6.Lib

/-!
# MLFQ scheduler — demotion depends only on the ticks

A process moves down one level when it has been charged the quantum of its level, and in the
lowest level its priority drops with every quantum.  So its parameters are a function of the ticks
charged to it since it was created or boosted, unless `setPriority` or `schedulerUnlock` has
changed them by hand.

* `chargedRank` — that function, and `chargedRank_succ`, one tick of it;
* `boostQueues_found` — which processes a boost finds, and what it does to them;
* `ChargeRun` — runs that count the ticks of every process;
* `demotion_by_ticks` — the ticks decide in every run in which no boost finds a process above level 0
  in `level_queue[0]`, whose level it does not reset;
* `ticks_do_not_decide` — after a boost under the scheduler lock there is such a process.
-/

variable {k k' : Kernel} {p : Slot}

/-! ### The ticks as parameters -/

/-- The parameters of a process that has been charged `n` ticks. -/
def chargedRank (n : Nat) : Rank :=
  if n < 4 then ⟨0, 3, 4, n⟩
  else if n < 10 then ⟨1, 3, 6, n - 4⟩
  else ⟨2, max 0 (3 - ((n - 10) / 8 : Nat)), 8, (n - 10) % 8⟩

/-- One more tick. -/
theorem chargedRank_succ (n : Nat) : (chargedRank n).charged.aged = chargedRank (n + 1) := by
  unfold chargedRank
  by_cases h4 : n < 4
  · -- the tick ends the quantum of level 0 when it is the fourth
    rw [if_pos h4]
    by_cases h3 : n + 1 < 4
    · rw [if_pos h3, Rank.aged, if_neg (by simp [Rank.charged]; omega), if_neg (by simp [Rank.charged])]
      rfl
    · rw [if_neg h3, if_pos (by omega), Rank.aged, if_pos (by simp [Rank.charged]; omega)]
      simp [Rank.charged]
      omega
  · rw [if_neg h4]
    by_cases h10 : n < 10
    · rw [if_pos h10, if_neg (by omega)]
      by_cases h9 : n + 1 < 10
      · rw [if_pos h9, Rank.aged, if_neg (by simp [Rank.charged]; omega),
          if_neg (by simp [Rank.charged])]
        simp [Rank.charged]
        omega
      · have hn : n = 9 := by omega
        subst hn
        decide
    · rw [if_neg h10, if_neg (by omega), if_neg (by omega), Rank.aged,
        if_neg (by simp [Rank.charged])]
      by_cases h8 : (n - 10) % 8 + 1 ≥ 8
      · rw [if_pos ⟨rfl, h8⟩]
        have hdiv : (n + 1 - 10) / 8 = (n - 10) / 8 + 1 := by omega
        have hmod : (n + 1 - 10) % 8 = 0 := by omega
        have hstep : (if max (0 : Int) (3 - ((n - 10) / 8 : Nat)) - 1 ≥ 0
            then max (0 : Int) (3 - ((n - 10) / 8 : Nat)) - 1 else 0) =
            max (0 : Int) (3 - ((n - 10) / 8 + 1 : Nat)) := by
          by_cases hlast : max (0 : Int) (3 - ((n - 10) / 8 : Nat)) - 1 ≥ 0
          · rw [if_pos hlast]; omega
          · rw [if_neg hlast]; omega
        simp only [Rank.charged, hdiv, hmod, Rank.mk.injEq, true_and, and_true]
        exact hstep
      · rw [if_neg fun h => h8 h.2]
        have hdiv : (n + 1 - 10) / 8 = (n - 10) / 8 := by omega
        have hmod : (n + 1 - 10) % 8 = (n - 10) % 8 + 1 := by omega
        simp only [Rank.charged, hdiv, hmod]

/-- Nothing happens to a process that was charged no tick. -/
theorem chargedRank_aged (n : Nat) : (chargedRank n).aged = chargedRank n := by
  have hlt : (chargedRank n).timeAllotment < (chargedRank n).timeQuantum := by
    unfold chargedRank
    split_ifs <;> simp only <;> omega
  rw [Rank.aged, if_neg fun h => absurd h.2 (by omega), if_neg fun h => absurd h.2 (by omega)]

/-! ### What a boost finds -/

/-- The processes of a queue. -/
def queueList (k : Kernel) (l : Nat) : List Slot :=
  (walkList k.next NPROC (k.levelQueue l)).getD []

theorem queueList_eq {xs : List Slot} {l : Nat} (h : Chain k.next (k.levelQueue l) xs) :
    queueList k l = xs := by
  have hlen : xs.length ≤ NPROC := by simpa using h.length_le
  rw [queueList, walkList_eq h hlen]
  rfl

/-- The links after the list that starts at `h` has been hung behind `cur`. -/
def hungBehind (next : Slot → Option Slot) (cur h : Option Slot) : Slot → Option Slot :=
  match cur, h with
  | some c, some x => Function.update next c (some x)
  | _, _ => next

/-- A moving loop that ends moves the list that starts at `h`, which does not contain the process
    `cur` it is hung behind, and gives its processes new parameters. -/
theorem boostMove_found {n : Nat} {cur cur' h : Option Slot}
    (hrun : boostMove n k cur h = .ok (k', cur')) :
    ∃ xs, Chain k.next h xs ∧ (∀ c, cur = some c → c ∉ xs) ∧ cur' = xs.getLast?.or cur ∧
      (∀ i, k'.rank i = if i ∈ xs then newRank else k.rank i) ∧
      k'.next = hungBehind k.next cur h ∧ (∀ l, l ≠ 0 → k'.levelQueue l = k.levelQueue l) ∧
      ∀ a, k'.levelQueue 0 = some a → k.levelQueue 0 = some a ∨ cur = none ∧ h = some a := by
  induction n generalizing k cur h with
  | zero =>
    cases h with
    | none =>
      cases hrun
      exact ⟨[], by simp, by simp, by simp, by simp, by cases cur' <;> rfl, fun _ _ => rfl,
        fun _ => .inl⟩
    | some x => cases hrun
  | succ n ih =>
    cases h with
    | none =>
      cases hrun
      exact ⟨[], by simp, by simp, by simp, by simp, by cases cur' <;> rfl, fun _ _ => rfl,
        fun _ => .inl⟩
    | some x =>
      -- the state after the assignments of this round
      obtain ⟨k₂, hrun₂, hrank₂, hnext₂, hqueue₂, hhead₂⟩ : ∃ k₂,
          boostMove n k₂ (some x) (k₂.next x) = .ok (k', cur') ∧
          (∀ i, k₂.rank i = if i = x then newRank else k.rank i) ∧
          k₂.next = hungBehind k.next cur (some x) ∧
          (∀ l, l ≠ 0 → k₂.levelQueue l = k.levelQueue l) ∧
          ∀ a, k₂.levelQueue 0 = some a → k.levelQueue 0 = some a ∨ cur = none ∧ some x = some a := by
        have hrank : ∀ i, (k.setProc x resetLevel).rank i = if i = x then newRank else k.rank i := by
          intro i
          rw [rank_setProc]
          by_cases hi : i = x
          · subst hi
            rw [Function.update_self, if_pos rfl]
            rfl
          · rw [Function.update_of_ne hi, if_neg hi]
        have hnext : (k.setProc x resetLevel).next = k.next := by
          funext i
          by_cases hi : i = x
          · subst hi; simp [Kernel.next, resetLevel]
          · simp [Kernel.next, hi]
        cases cur with
        | none =>
          exact ⟨(k.setProc x resetLevel).setQueue 0 (some x), hrun, hrank, hnext,
            fun l hl => by simp [hl], fun a ha => .inr ⟨rfl, by simpa using ha⟩⟩
        | some c =>
          refine ⟨(k.setProc x resetLevel).setProc c fun q => { q with next := some x }, hrun,
            fun i => ?_, ?_, fun l _ => rfl, fun a ha => .inl ha⟩
          · rw [rank_setProc_eq rfl]
            exact hrank i
          · funext i
            by_cases hi : i = c
            · subst hi; simp [Kernel.next, hungBehind]
            · rw [hungBehind, Function.update_of_ne hi, ← hnext]
              simp [Kernel.next, hi]
      obtain ⟨xs, hc, hx, hcur', hrank', hnext', hqueue', hhead'⟩ := ih hrun₂
      have hxxs : x ∉ xs := hx x rfl
      -- the link from the old end leads to `x`, so the old end is not in the list
      have hcx : ∀ c, cur = some c → c ≠ x ∧ c ∉ xs := by
        rintro c rfl
        have hlink : k₂.next c = some x := by rw [hnext₂, hungBehind, Function.update_self]
        refine ⟨fun hcx => ?_, fun hm => ?_⟩
        · subst hcx
          rw [hlink] at hc
          exact hxxs (hc.linked_iff.mp (.here c))
        · exact hxxs (hc.linked_iff.mp ((hc.linked_iff.mpr hm).step hlink))
      have hsame : ∀ i, cur ≠ some i → k₂.next i = k.next i := by
        intro i hi
        rw [hnext₂]
        cases cur with
        | none => rfl
        | some c => exact Function.update_of_ne (fun hic => hi (by rw [hic])) _ _
      refine ⟨x :: xs, chain_cons_iff.mpr ⟨rfl, ?_⟩, fun c hcc => ?_, ?_, fun i => ?_, ?_,
        fun l hl => (hqueue' l hl).trans (hqueue₂ l hl), fun a ha => ?_⟩
      · rw [← hsame x fun hcc => (hcx x hcc).1 rfl]
        refine hc.congr fun a ha => (hsame a fun hcc => (hcx a hcc).2 ha).symm
      · rw [List.mem_cons, not_or]
        exact hcx c hcc
      · rw [hcur', List.getLast?_cons]
        cases xs.getLast? <;> simp
      · rw [hrank', hrank₂]
        by_cases hi : i = x
        · subst hi; simp
        · simp [hi]
      · -- the links inside the list are set to what they were
        have hk' : k'.next = k₂.next := by
          rw [hnext']
          cases hn : k₂.next x with
          | none => rfl
          | some y => rw [hungBehind, ← hn, Function.update_eq_self]
        rw [hk', hnext₂]
      · exact hhead₂ a ((hhead' a ha).resolve_right fun h => absurd h.1 (by simp))

theorem hungBehind_closed {next : Slot → Option Slot} {cur h : Option Slot} {S : Slot → Prop}
    (hnext : ∀ a b, S a → next a = some b → S b) (hh : ∀ x, h = some x → S x) (a b : Slot)
    (ha : S a) (hab : hungBehind next cur h a = some b) : S b := by
  unfold hungBehind at hab
  split at hab
  · rename_i c x
    by_cases hac : a = c
    · subst hac
      rw [Function.update_self] at hab
      exact hh b hab
    · rw [Function.update_of_ne hac] at hab
      exact hnext a b ha hab
  · exact hnext a b ha hab

/-- **What a boost finds.**  A boost that ends met three lists.  It gives the processes of
    `level_queue[0]` a priority and an allotment, those of the two lower queues new parameters, and
    leaves everybody else alone; the lists share no process, and behind the boost only the processes
    that it met are queued. -/
theorem boostQueues_found (hrun : boostQueues k = .ok k') :
    (∀ l < 3, ∃ xs, Chain k.next (k.levelQueue l) xs) ∧
    (∀ l < 3, ∀ l' < 3, l ≠ l' → ∀ i, LinkedIn k l i → ¬ LinkedIn k l' i) ∧
    (∀ i, k'.rank i = if i ∈ queueList k 1 ∨ i ∈ queueList k 2 then newRank
      else if i ∈ queueList k 0 then { k.rank i with priority := 3, timeAllotment := 0 }
      else k.rank i) ∧
    ∀ i, LinkedIn k' 0 i → ∃ l < 3, LinkedIn k l i := by
  rw [boostQueues] at hrun
  split at hrun
  · cases hrun
  rename_i ys hys
  simp only [bind_eq_ok, Prod.exists] at hrun
  obtain ⟨k₂, cur, hrun₂, k₃, cur₃, hrun₃, hk'⟩ := hrun
  cases hk'
  have hfirst : ∀ j, (boostFirst k ys).rank j =
      if j ∈ ys then { k.rank j with priority := 3, timeAllotment := 0 } else k.rank j := by
    intro j
    rw [boostFirst_spec, Kernel.rank]
    dsimp only
    split <;> rfl
  obtain ⟨hnext₁, hqueue₁⟩ : (boostFirst k ys).next = k.next ∧
      (boostFirst k ys).levelQueue = k.levelQueue := by
    rw [boostFirst_spec]
    refine ⟨funext fun j => ?_, rfl⟩
    simp only [Kernel.next]
    split <;> rfl
  have hc0 : Chain k.next (k.levelQueue 0) ys := walkList_some hys
  obtain ⟨xs, hc1, hxs, hcur, hrank₂, hnext₂, hqueue₂, hhead₂⟩ := boostMove_found hrun₂
  obtain ⟨zs, hc2, hzs, -, hrank₃, hnext₃, -, hhead₃⟩ := boostMove_found hrun₃
  rw [hnext₁, hqueue₁] at hc1 hnext₂
  have hq2 : (k₂.setQueue 1 none).levelQueue 2 = k.levelQueue 2 := by
    simp [hqueue₂ 2 (by omega), hqueue₁]
  rw [hq2] at hc2 hnext₃ hhead₃
  replace hc2 : Chain k₂.next (k.levelQueue 2) zs := hc2
  -- the only new link leads from the end of the first list into the second one, whose end is not
  -- in the third list
  have hend : ∀ c, ys.getLast? = some c → c ∉ zs := by
    intro c hlast hczs
    cases hx : k.levelQueue 1 with
    | none =>
      rw [hx, chain_none_iff] at hc1
      exact hzs c (by rw [hcur, hc1, hlast]; rfl) hczs
    | some x =>
      rw [hlast, hx] at hnext₂
      have hin : ∀ y, Linked k₂.next (some x) y → y ∈ zs := fun y hy =>
        hc2.linked_iff.mp (hy.closed
          (fun b hb => (hc2.linked_iff.mpr hczs).step (by
            rw [hnext₂, hungBehind, Function.update_self, ← hb]))
          fun b d hb hd => hb.step hd)
      have hc1' : Chain k₂.next (some x) xs := by
        rw [← hx]
        refine hc1.congr fun b hb => ?_
        have hba : b ≠ c := fun hba => hxs c hlast (by rwa [← hba])
        rw [hnext₂, hungBehind, Function.update_of_ne hba]
      obtain ⟨d, hd⟩ : ∃ d, xs.getLast? = some d := by
        cases xs with
        | nil => simp at hc1'
        | cons b bs => exact ⟨_, List.getLast?_eq_some_getLast (by simp)⟩
      refine hzs d (by rw [hcur, hd]; rfl) (hin d ?_)
      exact hc1'.linked_iff.mpr (List.mem_of_mem_getLast? hd)
  have hsame : ∀ a ∈ zs, k.next a = k₂.next a := by
    intro a ha
    cases hlast : ys.getLast? with
    | none => simp [hnext₂, hlast, hungBehind]
    | some c =>
      have hac : a ≠ c := fun hac => hend c hlast (by rwa [← hac])
      cases hx : k.levelQueue 1 with
      | none => simp [hnext₂, hlast, hx, hungBehind]
      | some x => rw [hnext₂, hlast, hx, hungBehind, Function.update_of_ne hac]
  have hc2' := hc2.congr hsame
  refine ⟨fun l hl => ?_, ?_, fun i => ?_, fun i hi => ?_⟩
  · have : l = 0 ∨ l = 1 ∨ l = 2 := by omega
    rcases this with rfl | rfl | rfl
    · exact ⟨ys, hc0⟩
    · exact ⟨xs, hc1⟩
    · exact ⟨zs, hc2'⟩
  · -- two lists that share a process share their end
    have hshare : ∀ {l l' us vs c}, Chain k.next (k.levelQueue l) us →
        Chain k.next (k.levelQueue l') vs → us.getLast? = some c → c ∉ vs →
        ∀ i, LinkedIn k l i → ¬ LinkedIn k l' i := fun {l l' us vs c} hus hvs hlast hc i hi hi' => by
      have hic : Linked k.next (some i) c :=
        hus.linked_last (hus.linked_iff.mp hi) hlast
      refine hc (hvs.linked_iff.mp (hic.closed (fun a ha => ?_) fun a b ha hab => ha.step hab))
      cases ha
      exact hi'
    have hlast : ∀ {us : List Slot} {l i}, Chain k.next (k.levelQueue l) us → LinkedIn k l i →
        ∃ c, us.getLast? = some c := fun {us l i} hus hi => by
      cases us with
      | nil => exact absurd (hus.linked_iff.mp hi) (by simp)
      | cons b bs => exact ⟨_, List.getLast?_eq_some_getLast (by simp)⟩
    have h01 : ∀ i, LinkedIn k 0 i → ¬ LinkedIn k 1 i := fun i hi => by
      obtain ⟨c, hc⟩ := hlast hc0 hi
      exact hshare hc0 hc1 hc (hxs c hc) i hi
    have h02 : ∀ i, LinkedIn k 0 i → ¬ LinkedIn k 2 i := fun i hi => by
      obtain ⟨c, hc⟩ := hlast hc0 hi
      exact hshare hc0 hc2' hc (hend c hc) i hi
    have h12 : ∀ i, LinkedIn k 1 i → ¬ LinkedIn k 2 i := fun i hi => by
      obtain ⟨c, hc⟩ := hlast hc1 hi
      exact hshare hc1 hc2' hc (hzs c (by rw [hcur, hc]; rfl)) i hi
    intro l hl l' hl' hne i hi hi'
    have hcase : l = 0 ∨ l = 1 ∨ l = 2 := by omega
    have hcase' : l' = 0 ∨ l' = 1 ∨ l' = 2 := by omega
    rcases hcase with rfl | rfl | rfl <;> rcases hcase' with rfl | rfl | rfl
    · exact hne rfl
    · exact h01 i hi hi'
    · exact h02 i hi hi'
    · exact h01 i hi' hi
    · exact hne rfl
    · exact h12 i hi hi'
    · exact h02 i hi' hi
    · exact h12 i hi' hi
    · exact hne rfl
  · rw [queueList_eq hc0, queueList_eq hc1, queueList_eq hc2']
    show k₃.rank i = _
    rw [hrank₃, rank_setQueue, hrank₂, hfirst]
    by_cases hz : i ∈ zs
    · simp [hz]
    · simp [hz]
  · -- what was queued before is closed under the old links and under the new ones
    have hclosed : ∀ a b, (∃ l < 3, LinkedIn k l a) → k.next a = some b → ∃ l < 3, LinkedIn k l b := by
      rintro a b ⟨l, hl, ha⟩ hab
      exact ⟨l, hl, ha.step hab⟩
    have hhead : ∀ l < 3, ∀ x, k.levelQueue l = some x → ∃ l < 3, LinkedIn k l x :=
      fun l hl x hx => ⟨l, hl, by rw [LinkedIn, hx]; exact .here x⟩
    refine Linked.closed (S := fun a => ∃ l < 3, LinkedIn k l a) hi (fun a ha => ?_)
      fun a b ha hab => ?_
    · rcases hhead₃ a ha with ha | ⟨-, ha⟩
      · rcases hhead₂ a ha with ha | ⟨-, ha⟩
        · exact hhead 0 (by omega) a (by rwa [hqueue₁] at ha)
        · exact hhead 1 (by omega) a (by rwa [hqueue₁] at ha)
      · exact hhead 2 (by omega) a ha
    · refine hungBehind_closed (fun a b ha hab => ?_) (hhead 2 (by omega)) a b ha (hnext₃ ▸ hab)
      exact hungBehind_closed hclosed (hhead 1 (by omega)) a b ha (hnext₂ ▸ hab)

theorem mem_queueList {l : Nat} {i : Slot} (h : ∃ xs, Chain k.next (k.levelQueue l) xs) :
    i ∈ queueList k l ↔ LinkedIn k l i := by
  obtain ⟨xs, hc⟩ := h
  rw [queueList_eq hc, LinkedIn, hc.linked_iff]

/-! ### The second half of a scheduler round -/

/-- The process that comes back ages, and nobody else. -/
theorem beforeBoost_rank {b : Kernel} (hinv : LockInv k) (hp : k.schedP = some p)
    (hs : (k.proc p).state ≠ .RUNNING) (hrun : beforeBoost k p = .ok b) :
    b.rank = Function.update k.rank p (k.rank p).aged := by
  simp only [beforeBoost, bind_eq_ok] at hrun
  obtain ⟨k₁, hk₁, k₂, hk₂, k₃, hk₃, hrun⟩ := hrun
  cases hrun
  -- a process that gives up the lock is not raised
  have hrank₁ : k₁.rank = k.rank := by
    rw [giveUpLock] at hk₁
    split at hk₁
    · rename_i hgive
      rcases unlockHolder_effect hk₁ with ⟨rfl, _⟩ | ⟨x, hx, hk₁⟩
      · rfl
      · have hxp : x = p := Option.some.inj ((hinv.offCpu.found hx).symm.trans hp)
        subst hxp
        rw [unlockFound_rank hk₁, if_neg (by rintro (h | h); exacts [hgive.2 h, hs h]),
          Function.update_eq_self]
        rfl
    · cases hk₁; rfl
  have hforget : (forgetP k₃).rank = k₃.rank := by
    unfold forgetP
    split <;> rfl
  rw [hforget, requeue_rank hk₃, changeLevel_rank hk₂, hrank₁]

theorem Params.beforeBoost {S : Slot → Prop} {cap : Slot → Nat} {b : Kernel}
    (h : Params (some p) S cap k) (hp : S p) (hrun : Mlfq.beforeBoost k p = .ok b) :
    Params none S cap b := by
  simp only [Mlfq.beforeBoost, bind_eq_ok] at hrun
  obtain ⟨k₁, hk₁, k₂, hk₂, k₃, hk₃, hrun⟩ := hrun
  cases hrun
  have h₀ : Params (some p) S cap { k with cpuProc := none } :=
    h.congr (h.covers.congr (fun _ => rfl) rfl) (fun i => .refl _) (fun _ hi => .inl hi)
      (fun _ _ hc => .inl hc) (fun q hq => by simp at hq) fun _ hq => .inl hq
  exact (((h₀.giveUpLock hk₁).changeLevel hk₂).requeue hp hk₃).forgetP

/-- A boost that finds nobody above level 0 in `level_queue[0]` gives everybody whom it finds new
    parameters, and nobody else. -/
theorem boost_rank {S : Slot → Prop} {cap : Slot → Nat} {b : Kernel} (h : Params none S cap b)
    (hzero : ∀ i ∈ queueList b 0, (b.proc i).level = 0) (hrun : boost b = .ok k') (i : Slot) :
    k'.rank i = if i ∈ queueList b 0 ∨ i ∈ queueList b 1 ∨ i ∈ queueList b 2 then newRank
      else b.rank i := by
  rw [boost] at hrun
  simp only [bind_eq_ok] at hrun
  obtain ⟨k₁, hk₁, k₂, hk₂, hrun⟩ := hrun
  cases hrun
  obtain ⟨hchain, -, hrank, hlinked⟩ := boostQueues_found hk₁
  have hqueue : ∀ l < 3, ∀ j, j ∈ queueList b l ↔ LinkedIn b l j := fun l hl j =>
    mem_queueList (hchain l hl)
  -- the quantum of level 0 is 4
  have hfirst : ∀ j ∈ queueList b 0, { b.rank j with priority := 3, timeAllotment := 0 } = newRank := by
    intro j hj
    have ht := h.tuned j (h.covers.of_linked ((hqueue 0 (by omega) j).mp hj))
    have hq := ht.quantum
    have hl : (b.rank j).level = 0 := hzero j hj
    rw [hl] at hq
    dsimp only
    rw [hl, hq]
    rfl
  have hrank₁ : ∀ j, k₁.rank j =
      if j ∈ queueList b 0 ∨ j ∈ queueList b 1 ∨ j ∈ queueList b 2 then newRank else b.rank j := by
    intro j
    rw [hrank]
    by_cases hlow : j ∈ queueList b 1 ∨ j ∈ queueList b 2
    · rw [if_pos hlow, if_pos (.inr hlow)]
    · rw [if_neg hlow]
      by_cases hj : j ∈ queueList b 0
      · rw [if_pos hj, if_pos (.inl hj), hfirst j hj]
      · rw [if_neg hj, if_neg (by rintro (h | h); exacts [hj h, hlow h])]
  show k₂.rank i = _
  rw [← hrank₁]
  rw [unlockBoosted] at hk₂
  split at hk₂
  · rcases unlockHolder_effect hk₂ with ⟨rfl, _⟩ | ⟨x, hx, hk₂⟩
    · rfl
    · -- the holder was found by the boost already
      obtain ⟨⟨l, hl, hlink⟩, _⟩ := findHolder_some hx
      obtain ⟨_, _, hq1, hq2⟩ := boostQueues_effect hk₁
      have hl0 : l = 0 := by
        simp only [List.mem_cons, List.not_mem_nil, or_false] at hl
        rcases hl with rfl | rfl | rfl
        · rfl
        · rw [LinkedIn, hq1] at hlink; cases hlink
        · rw [LinkedIn, hq2] at hlink; cases hlink
      subst hl0
      have hnew : k₁.rank x = newRank := by
        rw [hrank₁, if_pos]
        obtain ⟨l, hl, hlx⟩ := hlinked x hlink
        have : l = 0 ∨ l = 1 ∨ l = 2 := by omega
        rcases this with rfl | rfl | rfl
        · exact .inl ((hqueue 0 hl x).mpr hlx)
        · exact .inr (.inl ((hqueue 1 hl x).mpr hlx))
        · exact .inr (.inr ((hqueue 2 hl x).mpr hlx))
      rw [unlockFound_rank hk₂]
      by_cases hix : i = x
      · subst hix
        rw [Function.update_self, hnew]
        split <;> rfl
      · rw [Function.update_of_ne hix]
  · cases hk₂; rfl

/-! ### Runs that count the ticks -/

/-- The state in which `exit()` of `p` gives up the CPU. -/
def exitBack (k : Kernel) (p : Slot) : Except Stop (Option (Kernel × Slot)) :=
  if k.initproc = some p then .error (.panic "init exiting")
  else do
    let k ← wakeup1 k ((k.proc p).parent.map .proc)
    let k ← (List.finRange NPROC).foldlM (reparentOne p) k
    .ok (some (k.setProc p fun q => { q with state := .ZOMBIE }, p))

/-- The state in which `p` comes back to `scheduler()` in the step, if it does. -/
def comesBack (k : Kernel) (p : Slot) : Step → Except Stop (Option (Kernel × Slot))
  | .exit => exitBack k p
  | .wait =>
    if ((List.finRange NPROC).find? fun i =>
        (k.proc i).parent = some p ∧ (k.proc i).state = .ZOMBIE).isSome then .ok none
    else if (∀ i, (k.proc i).parent ≠ some p) ∨ (k.proc p).killed then .ok none
    else .ok (some (k.setProc p fun q => { q with chan := some (.proc p), state := .SLEEPING }, p))
  | .sleep chan =>
    .ok (some (k.setProc p fun q => { q with chan := some chan, state := .SLEEPING }, p))
  | .yield => .ok (some (k.setProc p fun q => { q with state := .RUNNABLE }, p))
  | .schedulerLock pw => if k.schedulerLocked ∨ pw = schedPassword then .ok none else exitBack k p
  | .schedulerUnlock pw =>
    if k.schedulerLocked = false ∨ pw = schedPassword then .ok none else exitBack k p
  | .tick user => do
    let k ← wakeup1 { k with globalTick := k.globalTick + 1 } (some .ticks)
    if (k.proc p).state = .RUNNING ∧ ¬ ((k.proc p).killed ∧ user) then
      .ok (some ((k.setProc p fun q => { q with timeAllotment := q.timeAllotment + 1 }).setProc p
        fun q => { q with state := .RUNNABLE }, p))
    else .ok none
  | _ => .ok none

/-- The state in which a boost starts in the step, if one does. -/
def boostStart (k : Kernel) (e : Step) : Option Kernel :=
  match k.cpuProc with
  | none => none
  | some p =>
    match comesBack k p e with
    | .ok (some (k, p)) =>
      match beforeBoost k p with
      | .ok b => if b.globalTick ≥ 100 then some b else none
      | .error _ => none
    | _ => none

local instance : LawfulBEq Slot := inferInstance

/-- The step finds the process in a queue when it boosts. -/
def boosts (k : Kernel) (e : Step) (i : Slot) : Bool :=
  match boostStart k e with
  | some b => decide (i ∈ queueList b 0 ∨ i ∈ queueList b 1 ∨ i ∈ queueList b 2)
  | none => false

/-- The step charges a tick to the process. -/
def charges (k : Kernel) (e : Step) (i : Slot) : Bool :=
  e.isTick && decide (k.cpuProc = some i ∧ (k.proc i).state = .RUNNING)

/-- The process that a call of `setPriority` changes, or that a call of `schedulerUnlock` moves to
    the head of `level_queue[0]`. -/
def adjusted (k : Kernel) : Step → Option Slot
  | .setPriority pid priority =>
    if k.cpuProc = none ∨ priority < 0 ∨ priority > 3 then none
    else (List.finRange NPROC).find? fun i => (k.proc i).pid = pid
  | .schedulerUnlock pw =>
    if k.cpuProc = none ∨ k.schedulerLocked = false ∨ pw ≠ schedPassword then none
    else
      match findHolder k [0, 1, 2] with
      | .ok (some p) =>
        if (k.proc p).state = .RUNNABLE ∨ (k.proc p).state = .RUNNING then some p else none
      | _ => none
  | _ => none

/-- The machine with a count of the ticks of every process since it was created or found by a
    boost.  The count of a process that was adjusted by hand no longer says anything. -/
structure ChargeRun extends UserRun where
  charged : Slot → Nat
  counted : Slot → Bool

/-- One step of the machine. -/
def chargeStep (s : ChargeRun) (e : Step) : Except Stop ChargeRun := do
  let t ← userStep s.toUserRun e
  let reset := fun i => boosts s.kernel e i || decide (newSlot s.kernel e = some i)
  .ok
    { t with
      charged := fun i =>
        if reset i then 0 else if charges s.kernel e i then s.charged i + 1 else s.charged i
      counted := fun i => reset i || (s.counted i && decide (adjusted s.kernel e ≠ some i)) }

/-- The machine when the scheduler starts: the first process has been created. -/
def ChargeInit (s : ChargeRun) : Prop :=
  UserInit s.toUserRun ∧ s.charged = (fun _ => 0) ∧
    ∀ i, s.counted i = decide ((s.kernel.proc i).state ≠ .UNUSED)

/-- The level, the allotment and the priority that the ticks of a process give it. -/
def AsCharged (n : Nat) (q : Proc) : Prop :=
  (n < 4 → q.level = 0 ∧ q.timeAllotment = n) ∧
  (4 ≤ n → n < 10 → q.level = 1 ∧ q.timeAllotment = n - 4) ∧
  (10 ≤ n → q.level = 2 ∧ q.timeAllotment = (n - 10) % 8 ∧
    q.priority = max (0 : Int) (3 - ((n - 10) / 8 : Nat)))

/-- The parameters of every process that is in use and not running, and whose count goes on, are
    those of its ticks. -/
def TicksDecide (s : ChargeRun) : Prop :=
  ∀ i, (s.kernel.proc i).state ≠ .UNUSED → (s.kernel.proc i).state ≠ .RUNNING →
    s.counted i = true → AsCharged (s.charged i) (s.kernel.proc i)

/-- A boost of the step finds nobody above level 0 in `level_queue[0]`. -/
def FirstQueueLevelZero (s : ChargeRun) (e : Step) : Prop :=
  ∀ b ∈ boostStart s.kernel e, ∀ i ∈ queueList b 0, (b.proc i).level = 0

instance (s : ChargeRun) (e : Step) : Decidable (FirstQueueLevelZero s e) :=
  inferInstanceAs (Decidable (∀ b ∈ boostStart s.kernel e, ∀ i ∈ queueList b 0, (b.proc i).level = 0))

/-! ### What a step does -/

/-- The process `p` has left the CPU: `k₁` is the state `k` with `p` not running and parameters `r`,
    apart from what the parameters do not depend on. -/
structure LeftCpu (k k₁ : Kernel) (p : Slot) (r : Slot → Rank) : Prop where
  lock : SameLock k k₁
  state : (k₁.proc p).state ≠ .RUNNING
  rank : k₁.rank = r
  params : ∀ S cap, Params none S cap k → S p → ∃ cap', Params (some p) S cap' k₁

theorem LeftCpu.setProc {f : Proc → Proc} (hrank : (f (k.proc p)).rank = (k.proc p).rank)
    (hlock : ∀ q, (f q).lockScheduler = q.lockScheduler) (hnext : ∀ q, (f q).next = q.next)
    (hs : (f (k.proc p)).state ≠ .RUNNING) : LeftCpu k (k.setProc p f) p k.rank where
  lock := .setProc k p hlock
  state := by rwa [setProc_proc_self]
  rank := rank_setProc_eq hrank
  params _ cap h hp := ⟨cap, (h.open p).setProc hp hrank hnext⟩

theorem exit_exitBack (hrun : exit k p = .ok k') :
    ∃ k₁, exitBack k p = .ok (some (k₁, p)) ∧ schedReturn k₁ p = .ok k' ∧ LeftCpu k k₁ p k.rank := by
  rw [exit] at hrun
  split at hrun
  · cases hrun
  rename_i hinit
  simp only [bind_eq_ok] at hrun
  obtain ⟨k₁, hk₁, k₂, hk₂, hrun⟩ := hrun
  have hlock : SameLock k₁ k₂ := foldlM_invariant (I := SameLock k₁)
    (fun _ _ _ ha hb => ha.trans (.reparentOne hb)) (.refl k₁) hk₂
  have hrank : k₂.rank = k₁.rank := foldlM_invariant (I := fun k => k.rank = k₁.rank)
    (fun _ _ _ ha hb => (reparentOne_rank hb).trans ha) rfl hk₂
  have hleft : LeftCpu k₂ (k₂.setProc p fun q => { q with state := .ZOMBIE }) p k₂.rank :=
    .setProc rfl (fun _ => rfl) (fun _ => rfl) (by simp)
  refine ⟨_, ?_, hrun, ⟨((SameLock.wakeup1 hk₁).trans hlock).trans hleft.lock, hleft.state,
    (hleft.rank.trans hrank).trans (wakeup1_rank hk₁), fun S cap h hp => ?_⟩⟩
  · rw [exitBack, if_neg hinit]
    simp only [bind_eq_ok]
    exact ⟨k₁, hk₁, k₂, hk₂, rfl⟩
  · refine hleft.params S cap ?_ hp
    exact foldlM_invariant (I := Params none S cap) (fun _ _ _ h hc => h.reparentOne hc)
      (h.wakeup1 hk₁) hk₂

/-- The parameters of a step that is charged. -/
def chargedBy (k : Kernel) (e : Step) (i : Slot) : Rank :=
  if charges k e i then (k.rank i).charged else k.rank i

/-- A tick only wakes sleepers up. -/
theorem wakeup1_running {chan : Option Chan} (h : wakeup1 k chan = .ok k') (i : Slot) :
    (k'.proc i).state = .RUNNING ↔ (k.proc i).state = .RUNNING := by
  refine foldlM_invariant
    (I := fun k₁ => (k₁.proc i).state = .RUNNING ↔ (k.proc i).state = .RUNNING)
    (fun k₁ x k₂ h₁ h₂ => ?_) Iff.rfl h
  rw [← h₁]
  rw [wakeOne] at h₂
  split at h₂
  · rename_i hsleep
    rw [makeRunnable] at h₂
    rw [(enqueue_sameButLinks h₂).state_eq i]
    by_cases hix : i = x
    · subst hix; simp [hsleep.1]
    · simp [hix]
  · cases h₂; rfl

theorem tick_comesBack {user : Bool} (hcpu : k.cpuProc = some p) (hrun : tick k user = .ok k') :
    comesBack k p (.tick user) = .ok none ∨ ∃ k₁, comesBack k p (.tick user) = .ok (some (k₁, p)) ∧
      schedReturn k₁ p = .ok k' ∧ LeftCpu k k₁ p (chargedBy k (.tick user)) := by
  rw [tick] at hrun
  simp only [bind_eq_ok] at hrun
  obtain ⟨k₁, hk₁, hrun⟩ := hrun
  have hcount : SameLock k { k with globalTick := k.globalTick + 1 } :=
    ⟨rfl, rfl, rfl, fun _ => rfl⟩
  have hlock : SameLock k k₁ := hcount.trans (.wakeup1 hk₁)
  have hback : ∀ o, (if (k₁.proc p).state = .RUNNING ∧ ¬ ((k₁.proc p).killed ∧ user) then
      .ok (some ((k₁.setProc p fun q => { q with timeAllotment := q.timeAllotment + 1 }).setProc p
        fun q => { q with state := .RUNNABLE }, p)) else .ok none) = Except.ok o →
      comesBack k p (.tick user) = .ok o := fun o ho => by
    rw [comesBack]
    simp only [bind_eq_ok]
    exact ⟨k₁, hk₁, ho⟩
  rw [hlock.cpuProc, hcpu] at hrun
  simp only at hrun
  by_cases hs : (k₁.proc p).state = .RUNNING
  · rw [if_pos hs] at hrun
    split at hrun
    · rename_i hkilled
      rw [setProc_proc_self] at hkilled
      exact .inl (hback none (if_neg fun h => h.2 hkilled))
    · rename_i hkilled
      rw [setProc_proc_self] at hkilled
      refine .inr ⟨_, hback _ (if_pos ⟨hs, hkilled⟩), hrun, ?_⟩
      refine ⟨(hlock.trans (.setProc k₁ p ?_)).trans (.setProc _ p ?_), by simp, ?_,
        fun S cap h hp => ?_⟩
      · intro q; rfl
      · intro q; rfl
      · rw [rank_setProc_eq rfl, rank_setProc, wakeup1_rank hk₁]
        funext i
        by_cases hip : i = p
        · subst hip
          have hs' : (k.proc i).state = .RUNNING := (wakeup1_running hk₁ i).mp hs
          rw [Function.update_self, chargedBy, charges, Step.isTick, if_pos (by simp [hcpu, hs']),
            ← show k₁.rank i = k.rank i by rw [wakeup1_rank hk₁]; rfl]
          rfl
        · rw [Function.update_of_ne hip, chargedBy, charges, Step.isTick,
            if_neg (by simp [hcpu, Ne.symm hip])]
          rfl
      · have h₀ : Params none S cap { k with globalTick := k.globalTick + 1 } :=
          h.congr (h.covers.congr (fun _ => rfl) rfl) (fun i => .refl _) (fun _ hi => .inl hi)
            (fun _ _ hc => .inl hc) (fun _ hq => .inl hq) fun _ hq => .inl hq
        exact ⟨_, ((h₀.wakeup1 hk₁).charge hp).setProc hp rfl fun _ => rfl⟩
  · exact .inl (hback none (if_neg fun h => hs h.1))

/-- A step of the running process: it stays on the CPU, or it comes back to `scheduler()`. -/
theorem step_comesBack {e : Step} (hcpu : k.cpuProc = some p) (hrun : step k e = .ok k') :
    comesBack k p e = .ok none ∨ ∃ k₁, comesBack k p e = .ok (some (k₁, p)) ∧
      schedReturn k₁ p = .ok k' ∧ LeftCpu k k₁ p (chargedBy k e) ∧ newSlot k e = none ∧
      adjusted k e = none := by
  have hfree : e.isTick = false → chargedBy k e = k.rank := fun he => by
    funext i
    rw [chargedBy, charges, he, Bool.false_and, if_neg (by simp)]
  cases e with
  | forkAlloc ok => exact .inl rfl
  | forkFinish ok => exact .inl rfl
  | wakeup chan => exact .inl rfl
  | kill pid => exact .inl rfl
  | setPriority pid pr => exact .inl rfl
  | schedule => exact .inl rfl
  | exit =>
    rw [step, byProc, hcpu] at hrun
    obtain ⟨k₁, hback, hrun, hleft⟩ := exit_exitBack hrun
    exact .inr ⟨k₁, hback, hrun, hfree rfl ▸ hleft, rfl, rfl⟩
  | wait =>
    rw [step, byProc, hcpu] at hrun
    simp only [wait] at hrun
    rw [comesBack]
    split at hrun
    · rename_i c hc
      rw [hc]
      exact .inl rfl
    · rename_i hc
      rw [hc, if_neg (by simp)]
      split at hrun
      · rename_i hnone
        exact .inl (if_pos hnone)
      · rename_i hnone
        refine .inr ⟨_, if_neg hnone, hrun, ?_, rfl, rfl⟩
        rw [hfree rfl]
        exact .setProc rfl (fun _ => rfl) (fun _ => rfl) (by simp)
  | sleep chan =>
    rw [step, byProc, hcpu] at hrun
    refine .inr ⟨_, rfl, hrun, ?_, rfl, rfl⟩
    rw [hfree rfl]
    exact .setProc rfl (fun _ => rfl) (fun _ => rfl) (by simp)
  | yield =>
    rw [step, byProc, hcpu] at hrun
    refine .inr ⟨_, rfl, hrun, ?_, rfl, rfl⟩
    rw [hfree rfl]
    exact .setProc rfl (fun _ => rfl) (fun _ => rfl) (by simp)
  | schedulerLock pw =>
    rw [step, byProc, hcpu] at hrun
    simp only [schedulerLock] at hrun
    rw [comesBack]
    split at hrun
    · rename_i hl
      exact .inl (if_pos (.inl hl))
    · rename_i hl
      split at hrun
      · rename_i hpw
        exact .inl (if_pos (.inr hpw))
      · rename_i hpw
        obtain ⟨k₁, hback, hrun, hleft⟩ := exit_exitBack hrun
        rw [if_neg (by rintro (h | h); exacts [hl h, hpw h])]
        exact .inr ⟨k₁, hback, hrun, hfree rfl ▸ hleft, rfl, rfl⟩
  | schedulerUnlock pw =>
    rw [step, byProc, hcpu] at hrun
    simp only [schedulerUnlock] at hrun
    rw [comesBack]
    split at hrun
    · rename_i hl
      exact .inl (if_pos (.inl hl))
    · rename_i hl
      split at hrun
      · rename_i hpw
        exact .inl (if_pos (.inr hpw))
      · rename_i hpw
        obtain ⟨k₁, hback, hrun, hleft⟩ := exit_exitBack hrun
        rw [if_neg (by rintro (h | h); exacts [hl h, hpw h])]
        exact .inr ⟨k₁, hback, hrun, hfree rfl ▸ hleft, rfl, by
          rw [adjusted, if_pos (.inr (.inr hpw))]⟩
  | tick user =>
    rcases tick_comesBack hcpu hrun with hnone | ⟨k₁, hback, hrun, hleft⟩
    · exact .inl hnone
    · exact .inr ⟨k₁, hback, hrun, hleft, rfl, rfl⟩

/-- `fork` gives parameters to the slot that it takes, and to nobody else. -/
theorem forkAlloc_rank_of_ne {ok : Bool} {i : Slot} (hi : (allocproc k).1 ≠ some i) :
    (forkAlloc k p ok).rank i = k.rank i := by
  have halloc : (allocproc k).2.rank i = k.rank i := by
    rw [allocproc] at hi ⊢
    split
    · rfl
    · rename_i c hc
      rw [hc] at hi
      rw [rank_setProc, Function.update_of_ne fun hic => hi (by rw [hic])]
      rfl
  rw [forkAlloc]
  split
  · rename_i k₁ heq
    rw [heq] at halloc
    exact halloc
  · rename_i c k₁ heq
    rw [heq] at halloc
    split
    · exact halloc
    · rw [rank_setProc_eq rfl]
      exact halloc

theorem forkFinish_rank {ok : Bool} (hrun : forkFinish k p ok = .ok k') : k'.rank = k.rank := by
  rw [forkFinish] at hrun
  split at hrun
  · cases hrun
  · simp only at hrun
    split at hrun
    · rw [makeRunnable_rank hrun, rank_setProc_eq rfl]
      rfl
    · cases hrun
      rw [rank_setProc_eq rfl]
      rfl

theorem kill_rank {pid : Int} (hrun : kill k pid = .ok k') : k'.rank = k.rank := by
  rw [kill] at hrun
  split at hrun
  · cases hrun; rfl
  · simp only at hrun
    split at hrun
    · rw [makeRunnable_rank hrun, rank_setProc_eq rfl]
    · cases hrun
      rw [rank_setProc_eq rfl]

theorem schedule_rank (hrun : schedule k = .ok k') : k'.rank = k.rank := by
  rw [schedule] at hrun
  split at hrun
  · cases hrun
  simp only [bind_eq_ok, Prod.exists] at hrun
  obtain ⟨r, k₁, hpick, hrun⟩ := hrun
  have hrank : k₁.rank = k.rank := by
    rcases pick_effect hpick with ⟨rfl, _⟩ | ⟨_, hsame, _⟩
    · rfl
    · exact hsame.rank
  cases r with
  | none => cases hrun; exact hrank
  | some p =>
    simp only at hrun
    split at hrun
    · cases hrun
    · cases hrun
      rw [rank_setProc_eq rfl]
      exact hrank

/-- `setPriority` changes the process that it finds. -/
theorem setPriority_rank {pid pr : Int} {i : Slot} (hcpu : k.cpuProc = some p)
    (hi : adjusted k (.setPriority pid pr) ≠ some i) : (setPriority k pid pr).rank i = k.rank i := by
  rw [setPriority]
  split
  · rfl
  · rename_i hrange
    rw [adjusted, if_neg (by rintro (h | h); exacts [by simp [hcpu] at h, hrange h])] at hi
    split
    · rfl
    · rename_i q hq
      rw [hq] at hi
      rw [rank_setProc, Function.update_of_ne fun hiq => hi (by rw [hiq])]

/-- A call of `schedulerUnlock` changes the process that it finds and can move. -/
theorem unlockHolder_rank {i : Slot} (hcpu : k.cpuProc = some p)
    (hl : ¬ k.schedulerLocked = false) (hi : adjusted k (.schedulerUnlock schedPassword) ≠ some i)
    (hrun : unlockHolder k = .ok k') : k'.rank i = k.rank i := by
  rcases unlockHolder_effect hrun with ⟨rfl, _⟩ | ⟨x, hx, hrun⟩
  · rfl
  · rw [adjusted, if_neg (by simp [hcpu, hl]), hx] at hi
    simp only at hi
    rw [unlockFound_rank hrun]
    by_cases hix : i = x
    · subst hix
      rw [Function.update_self]
      split
      · rename_i hs
        rw [if_pos hs] at hi
        exact absurd rfl hi
      · rfl
    · rw [Function.update_of_ne hix]

/-- A tick that does not preempt anybody. -/
theorem tick_stays_rank {user : Bool}
    (hstay : ∀ p, k.cpuProc = some p → comesBack k p (.tick user) = .ok none)
    (hrun : tick k user = .ok k') (i : Slot) : k'.rank i = chargedBy k (.tick user) i := by
  rw [tick] at hrun
  simp only [bind_eq_ok] at hrun
  obtain ⟨k₁, hk₁, hrun⟩ := hrun
  have hrank : k₁.rank = k.rank := by
    rw [wakeup1_rank hk₁]
    rfl
  have hcpu₁ : k₁.cpuProc = k.cpuProc := (SameLock.wakeup1 hk₁).cpuProc
  rw [chargedBy, charges, Step.isTick, Bool.true_and, ← hcpu₁]
  split at hrun
  · rename_i hcpu
    cases hrun
    rw [hcpu, if_neg (by simp), hrank]
  · rename_i p hcpu
    have hs : (k₁.proc p).state = .RUNNING ↔ (k.proc p).state = .RUNNING := wakeup1_running hk₁ p
    split at hrun
    · rename_i hrunning
      split at hrun
      · cases hrun
        rw [rank_setProc, hrank]
        by_cases hip : i = p
        · subst hip
          rw [Function.update_self, if_pos (by simp [hcpu, hs.mp hrunning])]
          rw [← congrFun hrank i]
          rfl
        · rw [Function.update_of_ne hip, if_neg (by simp [hcpu, Ne.symm hip])]
      · rename_i hkilled
        rw [setProc_proc_self] at hkilled
        have hnone := hstay p (hcpu₁.symm.trans hcpu)
        rw [comesBack] at hnone
        simp only [bind_eq_ok] at hnone
        obtain ⟨k₂, hk₂, hnone⟩ := hnone
        cases hk₁.symm.trans hk₂
        rw [if_pos ⟨hrunning, hkilled⟩] at hnone
        cases hnone
    · rename_i hrunning
      cases hrun
      rw [hrank, if_neg]
      rintro h
      simp only [hcpu, Option.some.injEq, decide_eq_true_eq] at h
      obtain ⟨rfl, h⟩ := h
      exact hrunning (hs.mpr h)

/-- A step with which nobody comes back to `scheduler()` changes the parameters of a new process, of
    a process that is adjusted by hand, and of a process that is charged. -/
theorem stays_rank {e : Step} (hstay : ∀ p, k.cpuProc = some p → comesBack k p e = .ok none)
    (hrun : step k e = .ok k') (i : Slot) :
    (newSlot k e = some i → k'.rank i = newRank) ∧
    (newSlot k e ≠ some i → adjusted k e ≠ some i → k'.rank i = chargedBy k e i) := by
  have hfree : e.isTick = false → chargedBy k e = k.rank := fun he => by
    funext i
    rw [chargedBy, charges, he, Bool.false_and, if_neg (by simp)]
  have hsame : newSlot k e = none → e.isTick = false → k'.rank = k.rank →
      (newSlot k e = some i → k'.rank i = newRank) ∧
      (newSlot k e ≠ some i → adjusted k e ≠ some i → k'.rank i = chargedBy k e i) :=
    fun hnew he hrank => ⟨fun h => absurd h (by simp [hnew]), fun _ _ => by rw [hrank, hfree he]⟩
  have hback : ∀ p k₁, k.cpuProc = some p → comesBack k p e = .ok (some (k₁, p)) → False :=
    fun p k₁ hcpu h => by rw [hstay p hcpu] at h; cases h
  have hby : ∀ {f : Slot → Except Stop Kernel}, byProc k f = .ok k' →
      ∃ p, k.cpuProc = some p ∧ f p = .ok k' := fun {f} hf => by
    rw [byProc] at hf
    split at hf
    · cases hf
    · exact ⟨_, ‹_›, hf⟩
  cases e with
  | forkAlloc ok =>
    obtain ⟨p, hcpu, hrun⟩ := hby hrun
    cases hrun
    rw [newSlot, hcpu, if_pos (by rfl), hfree rfl]
    exact ⟨forkAlloc_rank, fun hi _ => forkAlloc_rank_of_ne hi⟩
  | forkFinish ok =>
    obtain ⟨p, hcpu, hrun⟩ := hby hrun
    exact hsame rfl rfl (forkFinish_rank hrun)
  | exit =>
    obtain ⟨p, hcpu, hrun⟩ := hby hrun
    obtain ⟨k₁, h, _⟩ := exit_exitBack hrun
    exact (hback p k₁ hcpu h).elim
  | wait =>
    obtain ⟨p, hcpu, hrun⟩ := hby hrun
    rcases step_comesBack (e := .wait) hcpu (by rw [step, byProc, hcpu]; exact hrun) with
      hnone | ⟨k₁, h, _⟩
    · refine hsame rfl rfl ?_
      rw [wait] at hrun
      split at hrun
      · cases hrun
        rw [rank_setProc_eq rfl]
      · rename_i hc
        rw [comesBack, hc, if_neg (by simp)] at hnone
        split at hrun
        · cases hrun; rfl
        · rename_i hnone'
          rw [if_neg hnone'] at hnone
          cases hnone
    · exact (hback p k₁ hcpu h).elim
  | sleep chan =>
    obtain ⟨p, hcpu, hrun⟩ := hby hrun
    exact (hback p _ hcpu rfl).elim
  | wakeup chan => exact hsame rfl rfl (wakeup1_rank hrun)
  | kill pid =>
    obtain ⟨p, hcpu, hrun⟩ := hby hrun
    exact hsame rfl rfl (kill_rank hrun)
  | yield =>
    obtain ⟨p, hcpu, hrun⟩ := hby hrun
    exact (hback p _ hcpu rfl).elim
  | setPriority pid pr =>
    obtain ⟨p, hcpu, hrun⟩ := hby hrun
    cases hrun
    exact ⟨fun h => absurd h (by simp [newSlot]), fun _ hi => by
      rw [hfree rfl, setPriority_rank hcpu hi]⟩
  | schedulerLock pw =>
    obtain ⟨p, hcpu, hrun⟩ := hby hrun
    refine hsame rfl rfl ?_
    rw [schedulerLock] at hrun
    split at hrun
    · cases hrun; rfl
    · rename_i hl
      split at hrun
      · cases hrun
        rw [rank_setProc_eq rfl]
        rfl
      · rename_i hpw
        obtain ⟨k₁, h, _⟩ := exit_exitBack hrun
        refine (hback p k₁ hcpu ?_).elim
        rw [comesBack, if_neg (by rintro (h | h); exacts [hl h, hpw h]), h]
  | schedulerUnlock pw =>
    obtain ⟨p, hcpu, hrun⟩ := hby hrun
    refine ⟨fun h => absurd h (by simp [newSlot]), fun _ hi => ?_⟩
    rw [hfree rfl]
    rw [schedulerUnlock] at hrun
    split at hrun
    · cases hrun; rfl
    · rename_i hl
      split at hrun
      · rename_i hpw
        rw [hpw] at hi
        exact unlockHolder_rank hcpu hl hi hrun
      · rename_i hpw
        obtain ⟨k₁, h, _⟩ := exit_exitBack hrun
        refine (hback p k₁ hcpu ?_).elim
        rw [comesBack, if_neg (by rintro (h | h); exacts [hl h, hpw h]), h]
  | tick user => exact ⟨fun h => absurd h (by simp [newSlot]), fun _ _ => tick_stays_rank hstay hrun i⟩
  | schedule => exact hsame rfl rfl (schedule_rank hrun)

/-- Only a process in user mode is charged and stays on the CPU. -/
theorem stays_charged {e : Step} {i : Slot} (hstay : comesBack k i e = .ok none)
    (hrun : step k e = .ok k') (hcharged : charges k e i = true) :
    e = .tick true ∧ (k.proc i).killed = true := by
  rw [charges, Bool.and_eq_true, decide_eq_true_eq] at hcharged
  obtain ⟨htick, -, hs⟩ := hcharged
  obtain ⟨user, rfl⟩ : ∃ user, e = .tick user := by
    cases e with
    | tick user => exact ⟨user, rfl⟩
    | _ => cases htick
  rw [comesBack] at hstay
  simp only [bind_eq_ok] at hstay
  obtain ⟨k₁, hk₁, hstay⟩ := hstay
  split at hstay
  · cases hstay
  · rename_i hnot
    rw [not_and, not_not] at hnot
    have hs₁ : (k₁.proc i).state = .RUNNING := (wakeup1_running hk₁ i).mpr hs
    obtain ⟨hkilled, hu⟩ := hnot hs₁
    refine ⟨by rw [hu], ?_⟩
    rw [← hkilled, wakeup1_killed hk₁ i]

/-! ### Every run -/

/-- The parameters of every process whose count goes on are those of its ticks; a process that has
    not entered the kernel was not charged. -/
structure ChargeInv (s : ChargeRun) : Prop where
  params : ParamsInv s.toUserRun
  lock : LockInv s.kernel
  rank : ∀ i, s.counted i = true → s.kernel.rank i = chargedRank (s.charged i)
  fresh : ∀ i, s.trapped i = false → s.charged i = 0

/-- A process comes back to `scheduler()`: if the scheduler boosts, those whom it finds get new
    parameters; the others have aged. -/
theorem comesBack_rank {s : ChargeRun} {e : Step} {k₁ k' : Kernel} {p : Slot} (h : ChargeInv s)
    (hzero : FirstQueueLevelZero s e) (hcpu : s.kernel.cpuProc = some p)
    (hback : comesBack s.kernel p e = .ok (some (k₁, p))) (hrun : schedReturn k₁ p = .ok k')
    (hleft : LeftCpu s.kernel k₁ p (chargedBy s.kernel e)) (i : Slot) :
    k'.rank i = if boosts s.kernel e i = true then newRank
      else if i = p then (chargedBy s.kernel e i).aged else chargedBy s.kernel e i := by
  obtain ⟨S, cap, hparams, -⟩ := h.params
  have hp : S p := hparams.cpu p hcpu
  obtain ⟨cap', hparams₁⟩ := hleft.params S cap hparams hp
  have hlock₁ : LockInv k₁ := h.lock.congr hleft.lock
  have hschedP : k₁.schedP = some p := hleft.lock.schedP.trans (h.lock.onCpu p hcpu)
  rw [schedReturn_eq] at hrun
  obtain ⟨b, hb, hrun⟩ := bind_eq_ok.mp hrun
  have hrank := beforeBoost_rank hlock₁ hschedP hleft.state hb
  have hage : b.rank i = if i = p then (chargedBy s.kernel e i).aged else chargedBy s.kernel e i := by
    rw [hrank, hleft.rank]
    by_cases hip : i = p
    · subst hip
      rw [Function.update_self, if_pos rfl]
    · rw [Function.update_of_ne hip, if_neg hip]
  have hstart : boostStart s.kernel e = if b.globalTick ≥ 100 then some b else none := by
    simp only [boostStart, hcpu, hback, hb]
  rw [boostIfDue] at hrun
  split at hrun
  · rename_i hdue
    rw [if_pos hdue] at hstart
    rw [boost_rank (hparams₁.beforeBoost hp hb) (hzero b hstart) hrun, boosts, hstart, hage]
    simp only [decide_eq_true_eq]
  · rename_i hdue
    rw [if_neg hdue] at hstart
    cases hrun
    rw [boosts, hstart, if_neg (by simp), hage]

/-- Nobody boosts while nobody comes back. -/
theorem boosts_stays {e : Step} (hstay : ∀ p, k.cpuProc = some p → comesBack k p e = .ok none)
    (i : Slot) : boosts k e i = false := by
  have hstart : boostStart k e = none := by
    rw [boostStart]
    split
    · rfl
    · rename_i p hcpu
      rw [hstay p hcpu]
  rw [boosts, hstart]

theorem ChargeInv.step {s t : ChargeRun} {e : Step} (h : ChargeInv s)
    (hzero : FirstQueueLevelZero s e) (hrun : chargeStep s e = .ok t) : ChargeInv t := by
  rw [chargeStep] at hrun
  obtain ⟨u, hu, hrun⟩ := bind_eq_ok.mp hrun
  cases hrun
  have hparams : ParamsInv u := h.params.step hu
  rw [userStep] at hu
  split at hu
  · cases hu
  rename_i huser
  obtain ⟨k', hk', hu⟩ := bind_eq_ok.mp hu
  cases hu
  have hlock : LockInv k' := h.lock.step hk'
  refine ⟨hparams, hlock, fun i hi => ?_, fun i hi => ?_⟩
  · by_cases hstay : ∀ p, s.kernel.cpuProc = some p → comesBack s.kernel p e = .ok none
    · have hboost := boosts_stays hstay i
      obtain ⟨hnew, hsame⟩ := stays_rank hstay hk' i
      simp only [hboost, Bool.false_or, Bool.or_eq_true, Bool.and_eq_true, decide_eq_true_eq] at hi ⊢
      by_cases hslot : newSlot s.kernel e = some i
      · rw [if_pos hslot]
        exact hnew hslot
      · obtain ⟨hcounted, hadj⟩ := hi.resolve_left hslot
        rw [if_neg hslot]
        show k'.rank i = _
        rw [hsame hslot hadj, chargedBy, h.rank i hcounted]
        split
        · -- a killed process in user mode, which has not been charged before
          rename_i hcharged
          have hcpu : s.kernel.cpuProc = some i := by
            rw [charges, Bool.and_eq_true, decide_eq_true_eq] at hcharged
            exact hcharged.2.1
          obtain ⟨rfl, hkilled⟩ := stays_charged (hstay i hcpu) hk' hcharged
          have hzero : s.charged i = 0 := by
            refine h.fresh i ?_
            rw [Bool.not_eq_true] at huser
            simpa [neverInUser, hcpu, hkilled] using huser
          rw [hzero]
          rfl
        · rfl
    · push Not at hstay
      obtain ⟨p, hcpu, hp⟩ := hstay
      obtain ⟨k₁, hback, hret, hleft, hnew, hadj⟩ := (step_comesBack hcpu hk').resolve_left hp
      simp only [hnew, hadj, reduceCtorEq, decide_false, Bool.or_false, ne_eq, not_false_eq_true,
        decide_true, Bool.and_true, Bool.or_eq_true] at hi ⊢
      show k'.rank i = _
      rw [comesBack_rank h hzero hcpu hback hret hleft]
      by_cases hboost : boosts s.kernel e i = true
      · rw [if_pos hboost, if_pos hboost]
        rfl
      · have hcounted := hi.resolve_left hboost
        rw [if_neg hboost, if_neg hboost, chargedBy, h.rank i hcounted]
        by_cases hcharged : charges s.kernel e i = true
        · have hip : i = p := by
            rw [charges, Bool.and_eq_true, decide_eq_true_eq, hcpu] at hcharged
            exact (Option.some.inj hcharged.2.1).symm
          rw [if_pos hcharged, if_pos hcharged, if_pos hip, chargedRank_succ]
        · rw [if_neg hcharged, if_neg hcharged, chargedRank_aged, ite_self]
  · -- a process that has not entered the kernel has just been created, or was not charged
    simp only [Bool.or_eq_true, decide_eq_true_eq]
    simp only [noteTrap] at hi
    split at hi
    · rename_i hslot
      rw [if_pos (.inr hslot)]
    · rename_i hslot
      split at hi
      · cases hi
      · rename_i hnot
        have hcharged : ¬ charges s.kernel e i = true := by
          rw [charges, Bool.and_eq_true, decide_eq_true_eq]
          exact fun hc => hnot ⟨hc.2.1, .inl hc.1⟩
        rw [if_neg hcharged, h.fresh i hi, ite_self]

theorem ChargeInv.init {s : ChargeRun} (h : ChargeInit s) : ChargeInv s := by
  obtain ⟨huser, hcharged, hcounted⟩ := h
  refine ⟨.init huser, .of_init huser.1, fun i hi => ?_, fun i _ => by rw [hcharged]⟩
  rw [hcounted, decide_eq_true_eq] at hi
  rw [hcharged]
  show s.kernel.rank i = newRank
  have hinit := huser.1
  rw [Init, userinit, allocproc] at hinit
  split at hinit
  · cases hinit
  · rename_i c k₁ heq
    rw [makeRunnable] at hinit
    have hsame := enqueue_sameButLinks hinit
    split at heq
    · cases heq
    · rename_i d _
      cases heq
      rw [hsame.state_eq i] at hi
      rw [hsame.rank]
      by_cases hic : i = c
      · subst hic
        simp [Kernel.rank, Proc.rank, newRank]
      · simp [hic, boot] at hi

theorem AsCharged.of_rank {n : Nat} {q : Proc} (h : q.rank = chargedRank n) : AsCharged n q := by
  have hlevel : q.level = (chargedRank n).level := by rw [← h]; rfl
  have hpriority : q.priority = (chargedRank n).priority := by rw [← h]; rfl
  have hallot : q.timeAllotment = (chargedRank n).timeAllotment := by rw [← h]; rfl
  unfold chargedRank at hlevel hpriority hallot
  refine ⟨fun h4 => ?_, fun h4 h10 => ?_, fun h10 => ?_⟩
  · rw [if_pos h4] at hlevel hallot
    exact ⟨hlevel, hallot⟩
  · rw [if_neg (by omega), if_pos h10] at hlevel hallot
    exact ⟨hlevel, hallot⟩
  · rw [if_neg (by omega), if_neg (by omega)] at hlevel hallot hpriority
    exact ⟨hlevel, hallot, hpriority⟩

/-- **Demotion depends only on the ticks.**  In every run in which no boost finds a process above
    level 0 in `level_queue[0]`, the level, the allotment and the priority of a process that is not
    running are those that its ticks give it, whatever it and the others did. -/
theorem demotion_by_ticks {s : ChargeRun}
    (h : Reachable ChargeInit (Steps chargeStep FirstQueueLevelZero) s) : TicksDecide s := by
  have hinv : ChargeInv s := by
    refine h.invariant (fun _ => .init) ?_
    rintro s t hs ⟨e, hzero, hstep⟩
    exact hs.step hzero hstep
  intro i _ _ hcounted
  exact .of_rank (hinv.rank i hcounted)

/-- The first process is preempted four times, and four more times after it has yielded. -/
theorem demotion_by_ticks_eight : ∃ s : ChargeRun, s.charged 0 = 8 ∧
    (s.kernel.proc 0).level = 1 ∧ (s.kernel.proc 0).timeAllotment = 4 := by
  obtain ⟨k₀, h₀⟩ : ∃ k, userinit boot = .ok k := ⟨_, rfl⟩
  have hstart : Reachable ChargeInit (Steps chargeStep FirstQueueLevelZero)
      ⟨⟨k₀, fun _ => false⟩, fun _ => 0, fun i => decide ((k₀.proc i).state ≠ .UNUSED)⟩ :=
    .start ⟨⟨h₀, rfl⟩, rfl, fun _ => rfl⟩
  obtain ⟨s, hs, ht⟩ := reachable_of_reachTest chargeStep FirstQueueLevelZero
    (fun s => decide ((s.kernel.proc 0).state = .RUNNABLE ∧ s.counted 0 = true ∧ s.charged 0 = 8))
    [.schedule, .tick true, .schedule, .tick true, .schedule, .tick true, .schedule, .tick true,
      .schedule, .yield, .schedule, .tick true, .schedule, .tick true, .schedule, .tick true,
      .schedule, .tick true] hstart (by cases h₀; decide +kernel)
  simp only [decide_eq_true_eq] at ht
  obtain ⟨hstate, hcounted, hcharged⟩ := ht
  obtain ⟨-, hone, -⟩ := demotion_by_ticks hs 0 (by simp [hstate]) (by simp [hstate]) hcounted
  obtain ⟨hlevel, hallot⟩ := hone (by omega) (by omega)
  exact ⟨s, hcharged, hlevel, by omega⟩

/-! ### A demoted process at the end of `level_queue[0]` -/

/-- Nobody runs and nobody sleeps. -/
def Idle (k : Kernel) : Prop := k.cpuProc = none ∧ ∀ i, (k.proc i).state ≠ .SLEEPING

instance (k : Kernel) : Decidable (Idle k) := inferInstanceAs (Decidable (_ ∧ _))

/-- The machine `n` ticks later. -/
def later (s : ChargeRun) (n : Nat) : ChargeRun :=
  { s with kernel := { s.kernel with globalTick := s.kernel.globalTick + n } }

/-- While nobody runs and nobody sleeps a tick is only counted. -/
theorem chargeStep_idle {s : ChargeRun} (h : Idle s.kernel) :
    chargeStep s (.tick false) = .ok (later s 1) := by
  obtain ⟨hcpu, hsleep⟩ := h
  have hstep : step s.kernel (.tick false) =
      .ok { s.kernel with globalTick := s.kernel.globalTick + 1 } := by
    have hwake : wakeup1 { s.kernel with globalTick := s.kernel.globalTick + 1 } (some .ticks) =
        .ok { s.kernel with globalTick := s.kernel.globalTick + 1 } := by
      refine wakeup1_eq_self ?_ _
      exact hsleep
    rw [step, tick, hwake, ok_bind]
    simp only [hcpu]
  have htrap : noteTrap s.toUserRun (.tick false)
      { s.kernel with globalTick := s.kernel.globalTick + 1 } = s.trapped := by
    funext i
    rw [noteTrap, if_neg (by simp [newSlot]), if_neg (by simp [hcpu])]
  have huser : userStep s.toUserRun (.tick false) = .ok (later s 1).toUserRun := by
    rw [userStep, if_neg (by simp [neverInUser]), hstep, ok_bind, htrap]
    rfl
  have hboost : boosts s.kernel (.tick false) = fun _ => false := by
    funext i
    exact boosts_stays (fun p hp => by rw [hcpu] at hp; cases hp) i
  rw [chargeStep, huser, ok_bind, hboost]
  simp [newSlot, charges, hcpu, adjusted, later]

theorem reachable_later {s : ChargeRun} (n : Nat)
    (hs : Reachable ChargeInit (Steps chargeStep fun _ _ => True) s) (h : Idle s.kernel) :
    Reachable ChargeInit (Steps chargeStep fun _ _ => True) (later s n) := by
  induction n with
  | zero => exact hs
  | succ n ih => exact ih.step ⟨.tick false, trivial, chargeStep_idle (s := later s n) h⟩

/-- The run of a process that takes the scheduler lock behind another process in `level_queue[0]`,
    and keeps it until the boost.  The boost leaves a cyclic queue, so the process stays linked there
    while it runs.  It takes the lock again, is demoted, and sleeps when the next boost is due. -/
theorem ticks_do_not_decide :
    ¬ ∀ s, Reachable ChargeInit (Steps chargeStep fun _ _ => True) s → TicksDecide s := by
  obtain ⟨k₀, h₀⟩ : ∃ k, userinit boot = .ok k := ⟨_, rfl⟩
  have hstart : Reachable ChargeInit (Steps chargeStep fun _ _ => True)
      ⟨⟨k₀, fun _ => false⟩, fun _ => 0, fun i => decide ((k₀.proc i).state ≠ .UNUSED)⟩ :=
    .start ⟨⟨h₀, rfl⟩, rfl, fun _ => rfl⟩
  have hrun : execTest chargeStep
      ⟨⟨k₀, fun _ => false⟩, fun _ => 0, fun i => decide ((k₀.proc i).state ≠ .UNUSED)⟩
      [.schedule, .forkAlloc true, .forkFinish true, .schedulerLock schedPassword, .tick true]
      (fun s₁ => decide (Idle s₁.kernel) && execTest chargeStep (later s₁ 98)
        [.schedule, .tick true, .schedule, .schedulerLock schedPassword,
          .schedulerUnlock schedPassword, .schedulerLock schedPassword, .tick true, .schedule,
          .tick true, .schedule, .tick true, .schedule, .tick true]
        fun s₂ => decide (Idle s₂.kernel) && execTest chargeStep (later s₂ 96)
          [.schedule, .sleep (.other 0)]
          fun s₃ => decide ((s₃.kernel.proc 0).state = .SLEEPING ∧ s₃.counted 0 = true ∧
            s₃.charged 0 = 0 ∧ (s₃.kernel.proc 0).level = 1)) = true := by
    cases h₀
    decide +kernel
  obtain ⟨s₁, hs₁, hrun⟩ := exec_of_execTest _ _ _ _ hrun
  rw [Bool.and_eq_true, decide_eq_true_eq] at hrun
  obtain ⟨hidle₁, hrun⟩ := hrun
  obtain ⟨s₂, hs₂, hrun⟩ := exec_of_execTest _ _ _ _ hrun
  rw [Bool.and_eq_true, decide_eq_true_eq] at hrun
  obtain ⟨hidle₂, hrun⟩ := hrun
  obtain ⟨s₃, hs₃, hrun⟩ := exec_of_execTest _ _ _ _ hrun
  rw [decide_eq_true_eq] at hrun
  obtain ⟨hstate, hcounted, hcharged, hlevel⟩ := hrun
  have hreach₁ := reachable_later 98 (reachable_exec hstart (fun _ _ _ => trivial) hs₁) hidle₁
  have hreach₂ := reachable_later 96 (reachable_exec hreach₁ (fun _ _ _ => trivial) hs₂) hidle₂
  have hreach₃ := reachable_exec hreach₂ (fun _ _ _ => trivial) hs₃
  intro h
  obtain ⟨hzero, -, -⟩ := h s₃ hreach₃ 0 (by simp [hstate]) (by simp [hstate]) hcounted
  have := (hzero (by omega)).1
  omega

end Xv6.Mlfq
