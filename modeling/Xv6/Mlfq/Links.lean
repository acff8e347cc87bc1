import Xv6.Mlfq.Boost
import Xv6.Lib.Transition

namespace Xv6.Mlfq

open Xv6.Lib

/-!
# MLFQ scheduler — the queue operations on arbitrary links

With the scheduler lock the queues do not stay well formed: a queue may become cyclic, two
queues may share a tail, and `already_enqueued` may disagree with the links.  This file says
what the queue operations do on any state, as long as they come back.

`Covers S k` says that the set `S` contains every queue head and is closed under `next`, so
that everything the scheduler can meet in a queue is in `S`.  Every operation keeps a covering
set, up to the process it links.
-/

/-- `p` is met when following level queue `l`. -/
def LinkedIn (k : Kernel) (l : Nat) (p : Slot) : Prop := Linked k.next (k.levelQueue l) p

/-- `S` contains the heads of all queues and is closed under `next`. -/
structure Covers (S : Slot → Prop) (k : Kernel) : Prop where
  head : ∀ l a, k.levelQueue l = some a → S a
  next : ∀ a b, S a → (k.proc a).next = some b → S b

namespace Covers

variable {S : Slot → Prop} {k k' : Kernel} {p : Slot} {l : Nat}

theorem of_linked (h : Covers S k) (hl : LinkedIn k l p) : S p :=
  Linked.closed hl (h.head l) h.next

/-- The linked processes are the smallest covering set. -/
theorem linked (k : Kernel) : Covers (fun p => ∃ l, LinkedIn k l p) k where
  head l a ha := ⟨l, by rw [LinkedIn, ha]; exact .here a⟩
  next a b := by
    rintro ⟨l, ha⟩ hb
    exact ⟨l, Linked.step ha hb⟩

/-- Covering only reads heads and links. -/
theorem congr (h : Covers S k) (hlink : ∀ i, (k'.proc i).next = (k.proc i).next)
    (hhead : k'.levelQueue = k.levelQueue) : Covers S k' where
  head l a ha := h.head l a (by rwa [hhead] at ha)
  next a b ha hb := h.next a b ha (by rwa [hlink] at hb)

/-- A new successor inside the set. -/
theorem setProc (h : Covers S k) (i : Slot) {f : Proc → Proc}
    (hf : ∀ b, (f (k.proc i)).next = some b → S b) : Covers S (k.setProc i f) where
  head := h.head
  next a b ha hb := by
    by_cases hai : a = i
    · subst hai
      rw [setProc_proc_self] at hb
      exact hf b hb
    · rw [setProc_proc_of_ne _ _ _ _ hai] at hb
      exact h.next a b ha hb

/-- Any update of a process outside the set. -/
theorem setProc_out (h : Covers S k) (i : Slot) (f : Proc → Proc) (hi : ¬ S i) :
    Covers S (k.setProc i f) where
  head := h.head
  next a b ha hb := by
    have hai : a ≠ i := fun hai => hi (hai ▸ ha)
    rw [setProc_proc_of_ne _ _ _ _ hai] at hb
    exact h.next a b ha hb

/-- An update that does not touch the link. -/
theorem setProc_keep (h : Covers S k) (i : Slot) {f : Proc → Proc}
    (hf : ∀ q, (f q).next = q.next) : Covers S (k.setProc i f) := by
  refine h.congr (fun j => ?_) rfl
  by_cases hji : j = i
  · subst hji; rw [setProc_proc_self, hf]
  · rw [setProc_proc_of_ne _ _ _ _ hji]

/-- A new head inside the set. -/
theorem setQueue (h : Covers S k) (l : Nat) {a : Option Slot} (ha : ∀ b, a = some b → S b) :
    Covers S (k.setQueue l a) where
  head l' b hb := by
    rw [setQueue_levelQueue] at hb
    by_cases hl : l' = l
    · subst hl
      rw [Function.update_self] at hb
      exact ha b hb
    · rw [Function.update_of_ne hl] at hb
      exact h.head l' b hb
  next := h.next

end Covers

/-! ### Queue primitives -/

/-- `enqueue` changes links only. -/
theorem enqueue_sameButLinks {k k' : Kernel} {p : Slot} {l : Nat} (h : enqueue k p l = .ok k') :
    SameButLinks k k' := by
  rw [enqueue] at h
  split at h
  · cases h; exact .refl k
  · split at h
    · cases h
      exact (SameButLinks.setQueue k l _).trans (.setProc _ p fun _ => rfl)
    · split at h
      · cases h
      · cases h
        exact (SameButLinks.setProc k _ fun _ => rfl).trans (.setProc _ p fun _ => rfl)

/-- `x` has been linked behind the end of a queue, as its new last element. -/
structure Appends (k k' : Kernel) (x : Slot) : Prop where
  self : k'.next x = none
  next : ∀ y, y ≠ x → k'.next y = k.next y ∨ (k.next y = none ∧ k'.next y = some x)
  head : ∀ l, k'.levelQueue l = k.levelQueue l ∨ (k.levelQueue l = none ∧ k'.levelQueue l = some x)
  flag : ∀ y, y ≠ x → (k'.proc y).alreadyEnqueued = (k.proc y).alreadyEnqueued

/-- `enqueue` changes nothing or appends. -/
theorem enqueue_appends {k k' : Kernel} {x : Slot} {l : Nat} (h : enqueue k x l = .ok k') :
    k' = k ∨ Appends k k' x := by
  rw [enqueue] at h
  split at h
  · cases h; exact .inl rfl
  · refine .inr ?_
    split at h
    · rename_i hl
      cases h
      refine ⟨by simp [Kernel.next], fun y hy => .inl (by simp [Kernel.next, hy]), fun l' => ?_,
        fun y hy => by simp [hy]⟩
      by_cases hl' : l' = l
      · subst hl'; exact .inr ⟨hl, by simp⟩
      · exact .inl (by simp [hl'])
    · rename_i tmp _
      split at h
      · cases h
      · rename_i z hz
        cases h
        have hzend : k.next z = none := (walkEnd_some hz).2
        refine ⟨by simp [Kernel.next], fun y hy => ?_, fun l' => .inl rfl, fun y hy => ?_⟩
        · by_cases hyz : y = z
          · subst hyz
            refine .inr ⟨hzend, ?_⟩
            rw [Kernel.next, setProc_proc_of_ne _ _ _ _ hy, setProc_proc_self]
          · refine .inl ?_
            rw [Kernel.next, setProc_proc_of_ne _ _ _ _ hy, setProc_proc_of_ne _ _ _ _ hyz]
            rfl
        · rw [setProc_proc_of_ne _ _ _ _ hy]
          by_cases hyz : y = z
          · subst hyz; rw [setProc_proc_self]
          · rw [setProc_proc_of_ne _ _ _ _ hyz]

theorem Appends.covers {k k' : Kernel} {x : Slot} {S : Slot → Prop} (h : Appends k k' x)
    (hS : Covers S k) : Covers (fun y => S y ∨ y = x) k' where
  head l a ha := by
    rcases h.head l with hl | ⟨_, hl⟩
    · rw [hl] at ha
      exact .inl (hS.head l a ha)
    · rw [hl, Option.some.injEq] at ha
      exact .inr ha.symm
  next a b ha hb := by
    by_cases hax : a = x
    · subst hax
      have := h.self
      rw [Kernel.next, hb] at this
      cases this
    · have ha' : S a := ha.resolve_right hax
      rcases h.next a hax with hn | ⟨_, hn⟩
      · rw [Kernel.next, hb] at hn
        exact .inl (hS.next a b ha' hn.symm)
      · rw [Kernel.next, hb, Option.some.injEq] at hn
        exact .inr hn

/-- `enqueue` covers at most one process more. -/
theorem enqueue_covers {k k' : Kernel} {x : Slot} {l : Nat} {S : Slot → Prop}
    (h : enqueue k x l = .ok k') (hS : Covers S k) :
    ∃ S', Covers S' k' ∧ ∀ y, S' y → S y ∨ y = x := by
  rcases enqueue_appends h with rfl | happ
  · exact ⟨S, hS, fun y => .inl⟩
  · exact ⟨_, happ.covers hS, fun y hy => hy⟩

/-- Appending a process that was linked nowhere does not change where another one is linked. -/
theorem Appends.linkedIn_iff {k k' : Kernel} {x p : Slot} {l : Nat} (h : Appends k k' x)
    (hx : ¬ LinkedIn k l x) (hp : p ≠ x) : LinkedIn k' l p ↔ LinkedIn k l p := by
  constructor
  · intro hl
    have hS : LinkedIn k l p ∨ p = x := by
      refine Linked.closed (S := fun y => LinkedIn k l y ∨ y = x) hl (fun a ha => ?_)
        fun a b ha hb => ?_
      · rcases h.head l with hh | ⟨_, hh⟩
        · rw [hh] at ha
          exact .inl (by rw [LinkedIn, ha]; exact .here a)
        · rw [hh, Option.some.injEq] at ha
          exact .inr ha.symm
      · by_cases hax : a = x
        · subst hax; rw [h.self] at hb; cases hb
        · rcases h.next a hax with hn | ⟨_, hn⟩
          · exact .inl (Linked.step (ha.resolve_right hax) (hn ▸ hb))
          · rw [hn, Option.some.injEq] at hb
            exact .inr hb.symm
    exact hS.resolve_right hp
  · intro hl
    refine (Linked.closed (S := fun y => LinkedIn k l y ∧ LinkedIn k' l y) hl (fun a ha => ?_)
      fun a b ha hb => ?_).2
    · refine ⟨by rw [LinkedIn, ha]; exact .here a, ?_⟩
      rcases h.head l with hh | ⟨hh, _⟩
      · rw [LinkedIn, hh, ha]; exact .here a
      · rw [hh] at ha; cases ha
    · have hax : a ≠ x := fun hax => hx (hax ▸ ha.1)
      refine ⟨Linked.step ha.1 hb, Linked.step ha.2 ?_⟩
      rcases h.next a hax with hn | ⟨hn, _⟩
      · rw [hn, hb]
      · rw [hn] at hb; cases hb

/-- Appending does not close a loop. -/
theorem Appends.loop {k k' : Kernel} {x p : Slot} (h : Appends k k' x) (hp : p ≠ x)
    (hl : Linked k'.next (k'.next p) p) : Linked k.next (k.next p) p := by
  have hS : Linked k.next (k.next p) p ∨ p = x := by
    refine Linked.closed (S := fun y => Linked k.next (k.next p) y ∨ y = x) hl (fun a ha => ?_)
      fun a b ha hb => ?_
    · rcases h.next p hp with hn | ⟨_, hn⟩
      · rw [hn] at ha
        exact .inl (by rw [ha]; exact .here a)
      · rw [hn, Option.some.injEq] at ha
        exact .inr ha.symm
    · by_cases hax : a = x
      · subst hax; rw [h.self] at hb; cases hb
      · rcases h.next a hax with hn | ⟨_, hn⟩
        · exact .inl (Linked.step (ha.resolve_right hax) (hn ▸ hb))
        · rw [hn, Option.some.injEq] at hb
          exact .inr hb.symm
  exact hS.resolve_right hp

/-- A process that was enqueued on purpose is marked. -/
theorem enqueue_flag {k k' : Kernel} {p : Slot} {l : Nat} (h : enqueue k p l = .ok k') :
    (k'.proc p).alreadyEnqueued = true := by
  rw [enqueue] at h
  split at h
  · cases h; assumption
  · split at h
    · cases h; simp
    · split at h
      · cases h
      · cases h; simp

theorem dequeue_sameButLinks (k : Kernel) (l : Nat) : SameButLinks k (dequeue k l).2 := by
  rw [dequeue]
  split
  · exact .refl k
  · rename_i p _
    dsimp only
    have h := SameButLinks.setQueue k l (k.proc p).next
    exact h.trans (SameButLinks.setProc _ p fun _ => rfl)

theorem dequeue_covers {k : Kernel} {l : Nat} {S : Slot → Prop} (hS : Covers S k) :
    Covers S (dequeue k l).2 ∧ ∀ p, (dequeue k l).1 = some p → S p := by
  rw [dequeue]
  split
  · exact ⟨hS, by simp⟩
  · rename_i p hp
    have hSp := hS.head l p hp
    dsimp only
    have h := hS.setQueue l fun b hb => hS.next p b hSp hb
    refine ⟨h.setProc p fun b hb => ?_, ?_⟩
    · cases hb
    · rintro p' ⟨⟩
      exact hSp

theorem dequeueSpecific_sameButLinks {k k' : Kernel} {p : Slot} {l : Nat}
    (h : dequeueSpecific k l p = .ok k') : SameButLinks k k' := by
  rw [dequeueSpecific] at h
  split at h
  · cases h; exact .refl k
  · split at h
    · cases h
    · cases h; exact .refl k
    · rename_i prev _
      cases h
      cases prev with
      | none => exact (SameButLinks.setQueue k l _).trans (.setProc _ p fun _ => rfl)
      | some y => exact (SameButLinks.setProc k y fun _ => rfl).trans (.setProc _ p fun _ => rfl)

theorem dequeueSpecific_covers {k k' : Kernel} {p : Slot} {l : Nat} {S : Slot → Prop}
    (h : dequeueSpecific k l p = .ok k') (hS : Covers S k) : Covers S k' := by
  rw [dequeueSpecific] at h
  split at h
  · cases h; exact hS
  · split at h
    · cases h
    · cases h; exact hS
    · rename_i prev hw
      have hSp : S p := hS.of_linked (walkPrev_some hw).1
      cases h
      refine Covers.setProc ?_ p (by simp)
      cases prev with
      | none => exact hS.setQueue l fun b hb => hS.next p b hSp hb
      | some y => exact hS.setProc y fun b hb => hS.next p b hSp hb

/-- Removing `p` from the one queue it is linked in leaves it linked nowhere, unless the queue
    comes back to `p`. -/
theorem dequeueSpecific_removes {k k' : Kernel} {p : Slot} {l : Nat}
    (h : dequeueSpecific k l p = .ok k') (hflag : (k.proc p).alreadyEnqueued = true)
    (hp : LinkedIn k l p) (hloop : ¬ Linked k.next (k.next p) p)
    (honly : ∀ l', l' ≠ l → ¬ LinkedIn k l' p) :
    Covers (fun x => x ≠ p ∧ ∃ l', LinkedIn k l' x) k' := by
  obtain ⟨us, hseg, hnd⟩ := Linked.first hp
  have hpus : p ∉ us := fun hm => (List.nodup_append.mp hnd).2.2 p hm p (by simp) rfl
  have hlen : us.length < NPROC := by
    have := hnd.length_le_card
    simp only [List.length_append, List.length_singleton, Fintype.card_fin] at this
    omega
  have hw : walkPrev k.next p NPROC none (k.levelQueue l) = some (some us.getLast?) := by
    rw [walkPrev_eq_of_seg hseg hpus hlen]; simp
  rw [dequeueSpecific, if_neg (by simp [hflag]), hw] at h
  cases h
  have hL : Covers (fun x => ∃ l', LinkedIn k l' x) k := .linked k
  -- the successor of `p` is linked and is not `p`
  have hsucc : ∀ b, (k.proc p).next = some b → b ≠ p ∧ ∃ l', LinkedIn k l' b := by
    intro b hb
    refine ⟨?_, hL.next p b ⟨l, hp⟩ hb⟩
    rintro rfl
    exact hloop (by rw [Kernel.next, hb]; exact .here b)
  -- a linked process whose successor is `p` stands right before `p` in its queue
  have hpred : ∀ a, (∃ l', LinkedIn k l' a) → (k.proc a).next = some p →
      us.getLast? = some a := by
    rintro a ⟨l', ha⟩ hap
    have hl' : l' = l := by
      by_contra hne
      exact honly l' hne (Linked.step ha hap)
    subst hl'
    rcases Linked.split ha hseg with hau | hau
    · obtain ⟨bs, cs, rfl⟩ := List.append_of_mem hau
      obtain ⟨m, _, hm⟩ := seg_append_iff.mp hseg
      obtain ⟨_, hcs⟩ := seg_cons_iff.mp hm
      cases cs with
      | nil => simp
      | cons c cs =>
        obtain ⟨hc, _⟩ := seg_cons_iff.mp hcs
        rw [Kernel.next, hap, Option.some.injEq] at hc
        exact absurd (by simp [hc]) hpus
    · cases hau with
      | here => exact absurd (by rw [Kernel.next, hap]; exact .here p) hloop
      | there _ _ hau => exact absurd (Linked.step hau hap) hloop
  refine Covers.setProc ?_ p (by simp)
  cases hlast : us.getLast? with
  | none =>
    refine ⟨fun l' a ha => ?_, fun a b ha hb => ?_⟩
    · rw [setQueue_levelQueue] at ha
      by_cases hl : l' = l
      · subst hl
        rw [Function.update_self] at ha
        exact hsucc a ha
      · rw [Function.update_of_ne hl] at ha
        refine ⟨?_, hL.head l' a ha⟩
        rintro rfl
        exact honly l' hl (by rw [LinkedIn, ha]; exact .here a)
    · refine ⟨?_, hL.next a b ha.2 hb⟩
      rintro rfl
      have := hpred a ha.2 hb
      rw [hlast] at this
      cases this
  | some y =>
    refine ⟨fun l' a ha => ?_, fun a b ha hb => ?_⟩
    · rw [setProc_levelQueue] at ha
      refine ⟨?_, hL.head l' a ha⟩
      rintro rfl
      by_cases hl : l' = l
      · subst hl
        have hus : us ≠ [] := by rintro rfl; simp at hlast
        obtain ⟨u, t, rfl⟩ := List.exists_cons_of_ne_nil hus
        rw [ha] at hseg
        obtain ⟨hau, _⟩ := seg_cons_iff.mp hseg
        cases hau
        simp at hpus
      · exact honly l' hl (by rw [LinkedIn, ha]; exact .here a)
    · by_cases hay : a = y
      · subst hay
        rw [setProc_proc_self] at hb
        exact hsucc b hb
      · rw [setProc_proc_of_ne _ _ _ _ hay] at hb
        refine ⟨?_, hL.next a b ha.2 hb⟩
        rintro rfl
        have := hpred a ha.2 hb
        rw [hlast, Option.some.injEq] at this
        exact hay this.symm

/-! ### Boosting -/

/-- `k` and `k'` agree on the globals and on who is in which state and who holds the lock. -/
structure SameRoles (k k' : Kernel) : Prop extends SameGlobals k k' where
  state : ∀ i, (k'.proc i).state = (k.proc i).state
  lockScheduler : ∀ i, (k'.proc i).lockScheduler = (k.proc i).lockScheduler

namespace SameRoles

variable {k k' k'' : Kernel}

theorem refl (k : Kernel) : SameRoles k k := ⟨.refl k, fun _ => rfl, fun _ => rfl⟩

theorem trans (h : SameRoles k k') (h' : SameRoles k' k'') : SameRoles k k'' :=
  ⟨h.toSameGlobals.trans h'.toSameGlobals, fun i => (h'.state i).trans (h.state i),
    fun i => (h'.lockScheduler i).trans (h.lockScheduler i)⟩

theorem of_links (h : SameButLinks k k') : SameRoles k k' :=
  ⟨h.toSameGlobals, h.state_eq, h.lockScheduler_eq⟩

theorem setProc (k : Kernel) (i : Slot) {f : Proc → Proc}
    (hf : ∀ q, (f q).state = q.state ∧ (f q).lockScheduler = q.lockScheduler) :
    SameRoles k (k.setProc i f) := by
  refine ⟨.setProc k i f, fun j => ?_, fun j => ?_⟩
  · by_cases hji : j = i
    · subst hji; rw [setProc_proc_self, (hf _).1]
    · rw [setProc_proc_of_ne _ _ _ _ hji]
  · by_cases hji : j = i
    · subst hji; rw [setProc_proc_self, (hf _).2]
    · rw [setProc_proc_of_ne _ _ _ _ hji]

theorem setQueue (k : Kernel) (l : Nat) (h : Option Slot) : SameRoles k (k.setQueue l h) :=
  ⟨.setQueue k l h, fun _ => rfl, fun _ => rfl⟩

end SameRoles

/-- One moving loop of the boost links only processes it has met. -/
theorem boostMove_effect {n : Nat} {k k' : Kernel} {cur cur' h : Option Slot}
    (hrun : boostMove n k cur h = .ok (k', cur')) :
    SameRoles k k' ∧ ∀ S, Covers S k → (∀ a, cur = some a → S a) → (∀ a, h = some a → S a) →
      Covers S k' ∧ ∀ a, cur' = some a → S a := by
  induction n generalizing k cur h with
  | zero =>
    cases h with
    | none => cases hrun; exact ⟨.refl _, fun S hS hcur _ => ⟨hS, hcur⟩⟩
    | some x => cases hrun
  | succ n ih =>
    cases h with
    | none => cases hrun; exact ⟨.refl _, fun S hS hcur _ => ⟨hS, hcur⟩⟩
    | some x =>
      have hreset : SameRoles k (k.setProc x resetLevel) := .setProc k x fun _ => ⟨rfl, rfl⟩
      have hresetS : ∀ S, Covers S k → Covers S (k.setProc x resetLevel) := fun S hS =>
        hS.setProc_keep x fun _ => rfl
      -- the round links `x` and goes on from it
      obtain ⟨k₂, hrun₂, hsame₂, hS₂⟩ : ∃ k₂, boostMove n k₂ (some x) (k₂.proc x).next =
          .ok (k', cur') ∧ SameRoles k k₂ ∧ ∀ S, Covers S k → S x → Covers S k₂ := by
        cases cur with
        | none =>
          exact ⟨_, hrun, hreset.trans (.setQueue _ 0 (some x)), fun S hS hx =>
            (hresetS S hS).setQueue 0 (by rintro b ⟨⟩; exact hx)⟩
        | some c =>
          have hlink : SameRoles (k.setProc x resetLevel)
              ((k.setProc x resetLevel).setProc c fun q => { q with next := some x }) :=
            .setProc _ c fun _ => ⟨rfl, rfl⟩
          refine ⟨_, hrun, hreset.trans hlink, fun S hS hx => (hresetS S hS).setProc c ?_⟩
          rintro b ⟨⟩
          exact hx
      obtain ⟨hsame, hcov⟩ := ih hrun₂
      refine ⟨hsame₂.trans hsame, fun S hS _ hx => ?_⟩
      have hS' := hS₂ S hS (hx x rfl)
      exact hcov S hS' (by rintro a ⟨⟩; exact hx x rfl) fun a ha => hS'.next x a (hx x rfl) ha

/-- The links part of the boost moves processes between queues, empties the lower two, and
    leaves all roles alone. -/
theorem boostQueues_effect {k k' : Kernel} (hrun : boostQueues k = .ok k') :
    SameRoles k k' ∧ (∀ S, Covers S k → Covers S k') ∧
      k'.levelQueue 1 = none ∧ k'.levelQueue 2 = none := by
  rw [boostQueues] at hrun
  split at hrun
  · cases hrun
  · rename_i xs hxs
    simp only [bind_eq_ok, Prod.exists] at hrun
    obtain ⟨k₂, cur, hrun₂, k₃, cur₃, hrun₃, hk'⟩ := hrun
    cases hk'
    have hfirst : SameRoles k (boostFirst k xs) := by
      rw [boostFirst_spec]
      refine ⟨⟨rfl, rfl, rfl, rfl, rfl, rfl, rfl⟩, fun i => ?_, fun i => ?_⟩
      · simp only; split <;> rfl
      · simp only; split <;> rfl
    have hfirstS : ∀ S, Covers S k → Covers S (boostFirst k xs) := by
      intro S hS
      rw [boostFirst_spec]
      refine hS.congr (fun i => ?_) rfl
      simp only; split <;> rfl
    obtain ⟨hsame₂, hcov₂⟩ := boostMove_effect hrun₂
    obtain ⟨hsame₃, hcov₃⟩ := boostMove_effect hrun₃
    refine ⟨(hfirst.trans hsame₂).trans ((SameRoles.setQueue k₂ 1 none).trans
      (hsame₃.trans (.setQueue k₃ 2 none))), fun S hS => ?_, ?_, by simp⟩
    · have hS₁ := hfirstS S hS
      have hlast : ∀ a, xs.getLast? = some a → S a := fun a ha =>
        hS.of_linked ((walkList_some hxs).linked_iff.mpr (List.mem_of_mem_getLast? ha))
      obtain ⟨hS₂, hcur⟩ := hcov₂ S hS₁ hlast (hS₁.head 1)
      have hS₂' := hS₂.setQueue 1 (a := none) (by simp)
      exact (hcov₃ S hS₂' hcur (hS₂'.head 2)).1.setQueue 2 (by simp)
    · have hq : ∀ {n : Nat} {k k' : Kernel} {cur cur' h : Option Slot},
          boostMove n k cur h = .ok (k', cur') → k'.levelQueue 1 = k.levelQueue 1 := by
        intro n
        induction n with
        | zero =>
          intro k k' cur cur' h hr
          cases h with
          | none => cases hr; rfl
          | some x => cases hr
        | succ n ih =>
          intro k k' cur cur' h hr
          cases h with
          | none => cases hr; rfl
          | some x =>
            cases cur with
            | none => rw [ih hr]; simp
            | some c => rw [ih hr]; simp
      simp [hq hrun₃]

/-! ### Unlocking -/

theorem findHolder_some {k : Kernel} {ls : List Nat} {p : Slot}
    (h : findHolder k ls = .ok (some p)) :
    (∃ l ∈ ls, LinkedIn k l p) ∧ (k.proc p).lockScheduler = true := by
  induction ls with
  | nil => cases h
  | cons l ls ih =>
    rw [findHolder] at h
    split at h
    · cases h
    · rename_i hw
      cases h
      obtain ⟨hl, hp⟩ := walkFind_some hw
      exact ⟨⟨l, by simp, hl⟩, hp⟩
    · obtain ⟨⟨l', hl', hlink⟩, hp⟩ := ih h
      exact ⟨⟨l', by simp [hl'], hlink⟩, hp⟩

theorem findHolder_none {k : Kernel} {ls : List Nat} (h : findHolder k ls = .ok none)
    {l : Nat} (hl : l ∈ ls) {p : Slot} (hp : LinkedIn k l p) :
    (k.proc p).lockScheduler = false := by
  induction ls with
  | nil => simp at hl
  | cons l' ls ih =>
    rw [findHolder] at h
    split at h
    · cases h
    · cases h
    · rename_i hw
      rcases List.mem_cons.mp hl with rfl | hl
      · obtain ⟨xs, hc, hxs⟩ := walkFind_none hw
        exact hxs p (hc.linked_iff.mp hp)
      · exact ih h hl

/-- The process whose lock is given up, and the state of the lock after it. -/
structure Unlocked (k k' : Kernel) (p : Slot) : Prop where
  globalTick : k'.globalTick = k.globalTick
  schedulerLocked : k'.schedulerLocked = false
  initproc : k'.initproc = k.initproc
  cpuProc : k'.cpuProc = k.cpuProc
  schedP : k'.schedP = k.schedP
  np : k'.np = k.np
  state : ∀ i, (k'.proc i).state = (k.proc i).state
  self : (k'.proc p).lockScheduler = false
  others : ∀ i, i ≠ p → (k'.proc i).lockScheduler = (k.proc i).lockScheduler

/-- The first two assignments of `schedulerUnlock`. -/
theorem clearLock_effect (k : Kernel) (p : Slot) : Unlocked k (clearLock k p) p := by
  refine ⟨rfl, rfl, rfl, rfl, rfl, rfl, fun i => ?_, by simp [clearLock],
    fun i hi => by simp [clearLock, hi]⟩
  by_cases hip : i = p
  · subst hip; simp [clearLock]
  · simp [clearLock, hip]

theorem clearLock_covers {k : Kernel} {S : Slot → Prop} (hS : Covers S k) (p : Slot) :
    Covers S (clearLock k p) :=
  have hS' : Covers S { k with schedulerLocked := false } := hS.congr (fun _ => rfl) rfl
  hS'.setProc_keep p fun _ => rfl

theorem Unlocked.trans {k k' k'' : Kernel} {p : Slot} (h : Unlocked k k' p)
    (h' : SameRoles k' k'') : Unlocked k k'' p :=
  ⟨h'.globalTick.trans h.globalTick, h'.schedulerLocked.trans h.schedulerLocked,
    h'.initproc.trans h.initproc, h'.cpuProc.trans h.cpuProc, h'.schedP.trans h.schedP,
    h'.np.trans h.np, fun i => (h'.state i).trans (h.state i), (h'.lockScheduler p).trans h.self,
    fun i hi => (h'.lockScheduler i).trans (h.others i hi)⟩

theorem pushHead_sameRoles (k : Kernel) (p : Slot) : SameRoles k (pushHead k p) := by
  rw [pushHead]
  split
  · refine SameRoles.trans ?_ (.setQueue _ 0 _)
    exact SameRoles.setProc k p fun _ => ⟨rfl, rfl⟩
  · exact .refl k

theorem pushHead_covers {k : Kernel} {p : Slot} {S : Slot → Prop} (hS : Covers S k)
    (hp : S p) : Covers S (pushHead k p) := by
  rw [pushHead]
  split
  · exact (hS.setProc p fun b hb => hS.head 0 b hb).setQueue 0 (by rintro b ⟨⟩; exact hp)
  · exact hS

theorem dropNotRunnable_effect {k k' : Kernel} {p : Slot} (h : dropNotRunnable k p = .ok k') :
    SameButLinks k k' ∧ ∀ S, Covers S k → Covers S k' := by
  rw [dropNotRunnable] at h
  split at h
  · exact ⟨dequeueSpecific_sameButLinks h, fun S => dequeueSpecific_covers h⟩
  · cases h; exact ⟨.refl k, fun _ hS => hS⟩

theorem unlockFound_effect {k k' : Kernel} {p : Slot} (h : unlockFound k p = .ok k') :
    Unlocked k k' p ∧ ∀ S, Covers S k → S p → Covers S k' := by
  rw [unlockFound] at h
  simp only [bind_eq_ok] at h
  obtain ⟨k₂, hk₂, h⟩ := h
  cases h
  obtain ⟨hsame, hcov⟩ := dropNotRunnable_effect hk₂
  refine ⟨((clearLock_effect k p).trans (.of_links hsame)).trans (pushHead_sameRoles k₂ p),
    fun S hS hp => pushHead_covers (hcov S (clearLock_covers hS p)) hp⟩

/-- `clearLock` leaves all links alone. -/
theorem clearLock_linkedIn (k : Kernel) (p : Slot) :
    (clearLock k p).next = k.next ∧ ∀ l x, LinkedIn (clearLock k p) l x ↔ LinkedIn k l x := by
  have hnext : (clearLock k p).next = k.next := by
    funext i
    rw [Kernel.next, Kernel.next, clearLock]
    by_cases hip : i = p
    · subst hip; rw [setProc_proc_self]
    · rw [setProc_proc_of_ne _ _ _ _ hip]
  refine ⟨hnext, fun l x => ?_⟩
  rw [LinkedIn, LinkedIn, hnext]
  rfl

/-- Unlocking a process that does not want to run on, and that `dequeue_specific` can remove,
    leaves it linked nowhere. -/
theorem unlockFound_removes {k k' : Kernel} {p : Slot} (h : unlockFound k p = .ok k')
    (hs : (k.proc p).state ≠ .RUNNABLE ∧ (k.proc p).state ≠ .RUNNING)
    (hflag : (k.proc p).alreadyEnqueued = true) (hp : LinkedIn k (k.proc p).level p)
    (hloop : ¬ Linked k.next (k.next p) p)
    (honly : ∀ l, l ≠ (k.proc p).level → ¬ LinkedIn k l p) :
    Covers (fun x => x ≠ p ∧ ∃ l, LinkedIn k l x) k' := by
  rw [unlockFound] at h
  simp only [bind_eq_ok] at h
  obtain ⟨m, hm, h⟩ := h
  cases h
  obtain ⟨hnext, hlink⟩ := clearLock_linkedIn k p
  have hself : (clearLock k p).proc p = { k.proc p with lockScheduler := false } :=
    setProc_proc_self _ _ _
  rw [dropNotRunnable, if_pos (by rw [hself]; exact hs.1), hself] at hm
  have hcov := dequeueSpecific_removes hm (by rw [hself]; exact hflag) ((hlink _ _).mpr hp)
    (by rw [hnext]; exact hloop) fun l hl hl' => honly l hl ((hlink l p).mp hl')
  have hstate : (m.proc p).state = (k.proc p).state := by
    rw [(dequeueSpecific_sameButLinks hm).state_eq p, hself]
  -- it is not pushed to the head of `level_queue[0]` either
  have hpush : pushHead m p = m := by
    rw [pushHead, if_neg]
    rw [hstate]
    exact not_or.mpr hs
  rw [hpush]
  simpa only [hlink] using hcov

/-- `schedulerUnlock` finds nobody and changes nothing, or unlocks a linked holder. -/
theorem unlockHolder_effect {k k' : Kernel} (h : unlockHolder k = .ok k') :
    (k' = k ∧ (k.schedulerLocked = false ∨ findHolder k [0, 1, 2] = .ok none)) ∨
      ∃ p, findHolder k [0, 1, 2] = .ok (some p) ∧ unlockFound k p = .ok k' := by
  rw [unlockHolder] at h
  split at h
  · rename_i hlock
    cases h; exact .inl ⟨rfl, .inl hlock⟩
  · simp only [bind_eq_ok] at h
    obtain ⟨r, hr, h⟩ := h
    cases r with
    | none => cases h; exact .inl ⟨rfl, .inr hr⟩
    | some p => exact .inr ⟨p, hr, h⟩

/-! ### The choice of the scheduler -/

/-- A locked scheduler keeps its process; otherwise the choice is a process out of the queues,
    which is unlinked. -/
theorem pick_effect {k k' : Kernel} {r : Option Slot} (h : pick k = .ok (r, k')) :
    (k' = k ∧ r = k.schedP ∧ k.schedulerLocked = true) ∨
      (¬ (k.schedP.isSome ∧ k.schedulerLocked) ∧ SameButLinks k k' ∧
        ∀ S, Covers S k → Covers S k' ∧ ∀ p, r = some p → S p) := by
  rw [pick] at h
  split at h
  · rename_i hlock
    cases h
    exact .inl ⟨rfl, rfl, hlock.2⟩
  · rename_i hfree
    refine .inr ⟨hfree, ?_⟩
    have h0 := dequeue_sameButLinks k 0
    have hc0 := fun S => dequeue_covers (l := 0) (k := k) (S := S)
    split at h
    · rename_i heq
      cases h
      rw [heq] at h0 hc0
      exact ⟨h0, hc0⟩
    · rename_i k₁ heq
      rw [heq] at h0 hc0
      have h1 := dequeue_sameButLinks k₁ 1
      have hc1 := fun S => dequeue_covers (l := 1) (k := k₁) (S := S)
      split at h
      · rename_i heq₁
        cases h
        rw [heq₁] at h1 hc1
        exact ⟨h0.trans h1, fun S hS => hc1 S (hc0 S hS).1⟩
      · rename_i k₂ heq₁
        rw [heq₁] at h1 hc1
        have hc : ∀ S, Covers S k → Covers S k₂ := fun S hS => (hc1 S (hc0 S hS).1).1
        split at h
        · cases h
        · rename_i xs hxs
          split at h
          · cases h
            exact ⟨h0.trans h1, fun S hS => ⟨hc S hS, by simp⟩⟩
          · rename_i p hp
            simp only [bind_eq_ok] at h
            obtain ⟨k₃, hk₃, h⟩ := h
            cases h
            refine ⟨(h0.trans h1).trans (dequeueSpecific_sameButLinks hk₃), fun S hS =>
              ⟨dequeueSpecific_covers hk₃ (hc S hS), ?_⟩⟩
            rintro p' ⟨⟩
            -- the choice is one of the processes of level 2
            have hmem : p ∈ xs := by
              rcases highPriority_spec k₂ xs with ⟨_, hnone⟩ | ⟨p', hp', hsome⟩
              · rw [hnone] at hp; cases hp
              · rw [hsome, Option.some.injEq] at hp
                exact hp ▸ hp'
            exact (hc S hS).of_linked ((walkList_some hxs).linked_iff.mpr hmem)

end Xv6.Mlfq
