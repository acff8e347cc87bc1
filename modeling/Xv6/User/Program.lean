import Xv6.Lib.Simulation
import Xv6.User.Malloc

namespace Xv6.User

open Xv6.Lib
open scoped List

/-!
# User memory — a program and what it holds (`umalloc.c`)

A program gets blocks from `malloc` and memory from `sbrk`, gives blocks back to `free`, and reads and
writes the bytes that it has asked for, in any order.

* `Sound` — what the program holds and what is free are all there is, and nothing overlaps;
* `arrays` — what the memory is for: every part is an array;
* `blocks_are_arrays`, `blocks_are_apart`, `malloc_returns`, `all_given_back` — what a program may rely on.
-/

variable {base lo n x : Nat} {h h' h'' : Heap} {fs fs' xs as : List Nat} {p : Nat}

/-! ### A program and its memory -/

/-- What a program holds: a block from `malloc`, or memory that it has asked the kernel for. -/
inductive Part
  | block (ap : Nat)
  | own (addr : Nat)
  deriving DecidableEq

def Part.addr : Part → Nat
  | .block ap => ap
  | .own addr => addr

/-- The memory of the program, and what it holds, with the numbers of bytes that it has asked for. -/
structure State where
  heap : Heap
  held : List (Part × Nat)

inductive Call
  | malloc (nbytes : Nat) (ok : Bool)
  | free (ap nbytes : Nat)
  | sbrk (n : Nat) (ok : Bool)
  | load (p : Part) (i : Nat)
  | store (p : Part) (i : Nat) (b : UInt8)

inductive Result
  | addr (p : Option Nat)
  | done
  | byte (b : UInt8)
  deriving DecidableEq

/-- A program frees the blocks that it has, and accesses the bytes that it has asked for.  It does not ask
    for so much that `nunits * sizeof(Header)` is negative for `sbrk`, and it does not give back memory to
    the kernel. -/
def State.Valid (s : State) : Call → Prop
  | .malloc nbytes _ => nbytes ≤ 2 ^ 31 - 16
  | .free ap nbytes => (.block ap, nbytes) ∈ s.held
  | .sbrk n _ => 0 < n ∧ n < 2 ^ 31
  | .load p i => ∃ r ∈ s.held, r.1 = p ∧ i < r.2
  | .store p i _ => ∃ r ∈ s.held, r.1 = p ∧ i < r.2

instance (s : State) (c : Call) : Decidable (s.Valid c) := by
  cases c <;> unfold State.Valid <;> infer_instance

/-- A part that the program gets, if it gets it. -/
def State.get (s : State) (part : Nat → Part) (n : Nat) : Option Nat × Heap → Result × State
  | (none, h) => (.addr none, { s with heap := h })
  | (some p, h) => (.addr (some p), ⟨h, (part p, n) :: s.held⟩)

def State.call (base : Nat) (s : State) : Call → Except Stop (Result × State)
  | .malloc nbytes ok => do .ok (s.get .block nbytes (← User.malloc base s.heap nbytes ok))
  | .free ap nbytes => do .ok (.done, ⟨← User.free s.heap ap, s.held.erase (.block ap, nbytes)⟩)
  | .sbrk n ok => .ok (s.get .own n (User.sbrk s.heap n ok))
  | .load p i => .ok (.byte (s.heap.mem.get (p.addr + i)), s)
  | .store p i b => .ok (.done, { s with heap := { s.heap with mem := s.heap.mem.set (p.addr + i) b } })

def State.step (base : Nat) (s : State) (c : Call) : Except Stop (Option (Call × Result) × State) :=
  if s.Valid c then do
    let (r, s) ← s.call base c
    .ok (some (c, r), s)
  else .error .misuse

/-- A program whose own memory ends at `lo`. -/
def program (base lo : Nat) : System State (Call × Result) :=
  .ofStep (fun s => s.heap.freep = none ∧ s.heap.brk = lo ∧ s.held = []) (State.step base) fun _ _ => True

/-- What a program sees of its memory if every part that it holds is an array. -/
inductive Arrays.Step (a : Part → Option (List UInt8)) :
    Option (Call × Result) → (Part → Option (List UInt8)) → Prop
  | malloc {ap : Nat} {ok : Bool} {bytes : List UInt8} : a (.block ap) = none →
      Step a (some (.malloc bytes.length ok, .addr (some ap))) (Function.update a (.block ap) (some bytes))
  | noBlock {nbytes : Nat} {ok : Bool} : Step a (some (.malloc nbytes ok, .addr none)) a
  | free {ap : Nat} {bytes : List UInt8} : a (.block ap) = some bytes →
      Step a (some (.free ap bytes.length, .done)) (Function.update a (.block ap) none)
  | sbrk {p : Nat} {ok : Bool} {bytes : List UInt8} : a (.own p) = none →
      Step a (some (.sbrk bytes.length ok, .addr (some p))) (Function.update a (.own p) (some bytes))
  | noMemory {n : Nat} {ok : Bool} : Step a (some (.sbrk n ok, .addr none)) a
  | load {p : Part} {i : Nat} {bytes : List UInt8} (hi : i < bytes.length) : a p = some bytes →
      Step a (some (.load p i, .byte bytes[i])) a
  | store {p : Part} {i : Nat} {b : UInt8} {bytes : List UInt8} : a p = some bytes → i < bytes.length →
      Step a (some (.store p i b, .done)) (Function.update a p (some (bytes.set i b)))

def arrays : System (Part → Option (List UInt8)) (Call × Result) where
  init a := ∀ p, a p = none
  step := Arrays.Step

/-! ### Nothing overlaps -/

/-- Where a part begins, with its header. -/
def start : Part × Nat → Nat
  | (.block ap, _) => ap - HEADER
  | (.own addr, _) => addr

/-- The bytes that a part takes. -/
def extent : Part × Nat → Nat
  | (.block _, nbytes) => HEADER * units nbytes
  | (.own _, n) => n

def Apart (r r' : Part × Nat) : Prop := start r + extent r ≤ start r' ∨ start r' + extent r' ≤ start r

/-- The header of a block says how large it is. -/
def Proper (h : Heap) : Part × Nat → Prop
  | (.block ap, nbytes) => nbytes ≤ 2 ^ 31 - 16 ∧ HEADER ≤ ap ∧ h.size (ap - HEADER) = units nbytes
  | (.own _, n) => 0 < n

/-- The memory from `lo` on consists of the free blocks and of what the program holds. -/
structure Sound (base lo : Nat) (s : State) (fs : List Nat) : Prop where
  list : s.heap.freep = none ∧ fs = [] ∧ (∀ ap nbytes, (.block ap, nbytes) ∉ s.held) ∨
    FreeList base lo s.heap fs ∧ ∃ f ∈ fs, s.heap.freep = some f
  low : base + HEADER ≤ lo
  limit : s.heap.brk < KERNBASE
  inside : ∀ r ∈ s.held, lo ≤ start r ∧ start r + extent r ≤ s.heap.brk
  proper : ∀ r ∈ s.held, Proper s.heap r
  apart : s.held.Pairwise Apart
  outside : ∀ r ∈ s.held, Outside s.heap fs (start r) (start r + extent r)
  total : lo + HEADER * total s.heap fs + (s.held.map extent).sum = s.heap.brk

variable {s t : State} {r : Part × Nat} {c : Call}

theorem extent_pos (hr : Proper h r) : 0 < extent r := by
  obtain ⟨p | p, n⟩ := r
  · exact Nat.mul_pos (by decide) (Nat.succ_pos _)
  · exact hr

/-- The bytes that a program has asked for are behind the header. -/
theorem data_inside {i : Nat} (hr : Proper h r) (hi : i < r.2) :
    start r ≤ r.1.addr + i ∧ r.1.addr + i < start r + extent r := by
  obtain ⟨p | p, n⟩ := r
  · obtain ⟨hn, hp, -⟩ := hr
    simp only [start, extent, units, Part.addr, HEADER] at *
    omega
  · simp only [start, extent, Part.addr] at *
    omega

/-- The bytes of some parts are as before. -/
def Kept (h h' : Heap) (rs : List (Part × Nat)) : Prop :=
  ∀ r ∈ rs, ∀ x, start r ≤ x → x < start r + extent r → h'.mem.get x = h.mem.get x

theorem Kept.proper {rs : List (Part × Nat)} (hk : Kept h h' rs) (hm : r ∈ rs) (hr : Proper h r) :
    Proper h' r := by
  obtain ⟨p | p, n⟩ := r
  · obtain ⟨hn, hp, hsize⟩ := hr
    refine ⟨hn, hp, Eq.trans (Bytes.le_congr fun x hx hx' => hk _ hm x ?_ ?_) hsize⟩
    · exact (Nat.le_add_right ..).trans hx
    · have hle : HEADER ≤ HEADER * units n := Nat.le_mul_of_pos_right HEADER (Nat.succ_pos _)
      show x < p - HEADER + HEADER * units n
      unfold HEADER at hle hx' ⊢
      omega
  · exact hr

theorem Kept.trans {rs : List (Part × Nat)} (h₁ : Kept h h' rs) (h₂ : Kept h' h'' rs) : Kept h h'' rs :=
  fun r hr x hx hx' => (h₂ r hr x hx hx').trans (h₁ r hr x hx hx')

/-- No header of the list is in a part that the program holds. -/
theorem Sound.clear {a : Nat} (hs : Sound base lo s fs) (hr : r ∈ s.held) (ha : a ∈ fs) (hx : start r ≤ x)
    (hx' : x < start r + extent r) : x < a ∨ a + HEADER ≤ x := by
  rcases hs.list with ⟨-, rfl, -⟩ | ⟨hl, -⟩
  · cases ha
  · have hin := hs.inside r hr
    have hlow := hs.low
    have hout := hs.outside r hr a ha
    rcases eq_or_ne a base with rfl | hne
    · omega
    · have hpos := header_le_stop (hl.pos a ha hne).1
      omega

theorem Sound.kept (hs : Sound base lo s fs) (hk : Keeps s.heap h' as)
    (has : ∀ a ∈ as, a ∈ fs ∨ a + HEADER ≤ lo ∨ s.heap.brk ≤ a) : Kept s.heap h' s.held := by
  intro r hr x hx hx'
  refine hk x fun a ha => ?_
  have hin := hs.inside r hr
  rcases has a ha with ha | ha | ha
  · exact hs.clear hr ha hx hx'
  · omega
  · omega

/-- The memory and the free list have changed, and the program holds the same parts or less. -/
theorem Sound.rebuild {f : Nat} {rs : List (Part × Nat)} (hs : Sound base lo s fs)
    (hl : FreeList base lo h' fs') (hfm : f ∈ fs') (hf : h'.freep = some f) (hbrk : s.heap.brk ≤ h'.brk)
    (hsub : rs.Sublist s.held) (hk : Kept s.heap h' rs)
    (hout : ∀ r ∈ rs, Outside h' fs' (start r) (start r + extent r))
    (htotal : lo + HEADER * User.total h' fs' + (rs.map extent).sum = h'.brk) : Sound base lo ⟨h', rs⟩ fs' :=
  ⟨.inr ⟨hl, f, hfm, hf⟩, hs.low, hl.limit,
    fun r hr => ⟨(hs.inside r (hsub.subset hr)).1, (hs.inside r (hsub.subset hr)).2.trans hbrk⟩,
    fun r hr => hk.proper hr (hs.proper r (hsub.subset hr)), hs.apart.sublist hsub, hout, htotal⟩

theorem Apart.symm {r r' : Part × Nat} (h : Apart r r') : Apart r' r := Or.symm h

/-- One part and the others. -/
theorem Sound.split (hs : Sound base lo s fs) (hr : r ∈ s.held) :
    (∀ r' ∈ s.held.erase r, Apart r r') ∧
      (s.held.map extent).sum = extent r + ((s.held.erase r).map extent).sum := by
  have hperm := List.perm_cons_erase hr
  refine ⟨(List.pairwise_cons.mp ((hperm.pairwise_iff fun hab => Apart.symm hab).mp hs.apart)).1, ?_⟩
  rw [(hperm.map extent).sum_nat, List.map_cons, List.sum_cons]

/-! ### What the calls do -/

theorem Sound.lo_le (hs : Sound base lo s fs) : lo ≤ s.heap.brk := by
  have htotal := hs.total
  omega

/-- A block that the program has is given back. -/
theorem Sound.free {ap nbytes : Nat} (hs : Sound base lo s fs) (hr : (.block ap, nbytes) ∈ s.held) :
    ∃ h' fs', User.free s.heap ap = .ok h' ∧ h'.brk = s.heap.brk ∧
      Sound base lo ⟨h', s.held.erase (.block ap, nbytes)⟩ fs' ∧
      Kept s.heap h' (s.held.erase (.block ap, nbytes)) := by
  rcases hs.list with ⟨-, -, hnone⟩ | ⟨hl, f, hfm, hf⟩
  · exact absurd hr (hnone ap nbytes)
  · obtain ⟨-, hap, hsize⟩ := hs.proper _ hr
    obtain ⟨hapart, hsum⟩ := hs.split hr
    have hin := hs.inside _ hr
    have hstop : s.heap.stop (ap - HEADER) = start (.block ap, nbytes) + extent (.block ap, nbytes) := by
      rw [Heap.stop, hsize]
      rfl
    have hb : Block lo s.heap fs (ap - HEADER) := by
      refine ⟨hin.1, hsize ▸ Nat.succ_pos _, hstop.le.trans hin.2, ?_⟩
      rw [hstop]
      exact hs.outside _ hr
    obtain ⟨h', fs', p, hx, hi, hpm, hp⟩ := free_spec hl hf hfm hb
    rw [Nat.sub_add_cancel hap] at hx
    have hsub : s.held.erase (.block ap, nbytes) <+ s.held := List.erase_sublist
    have hkept : Kept s.heap h' (s.held.erase (.block ap, nbytes)) := fun r hr' x hx hx' => by
      refine hi.keeps x (List.forall_mem_cons.mpr ⟨?_, fun a ha => hs.clear (hsub.subset hr') ha hx hx'⟩)
      have hra := hapart r hr'
      have hlen := header_le_stop hb.pos
      rw [hstop] at hlen
      have hstart : start (.block ap, nbytes) = ap - HEADER := rfl
      unfold Apart at hra
      omega
    refine ⟨h', fs', hx, hi.brk, hs.rebuild hi.list hpm hp hi.brk.ge hsub hkept (fun r hr' => ?_) ?_, hkept⟩
    · have hpos := extent_pos (hs.proper r (hsub.subset hr'))
      refine hi.outside _ _ (by omega) (hs.outside r (hsub.subset hr')) ?_
      rw [hstop]
      exact hapart r hr'
    · have htotal := hs.total
      rw [hsum] at htotal
      rw [hi.total, hi.brk, hsize, Nat.mul_add]
      simp only [extent] at htotal ⊢
      omega

/-- A block is taken from the list for the program. -/
theorem Sound.take {b f nbytes : Nat} (hs : Sound base lo s fs)
    (ht : Taken base lo s.heap h' (units nbytes) b fs fs') (hfm : f ∈ fs') (hf : h'.freep = some f)
    (hn : nbytes ≤ 2 ^ 31 - 16) :
    Sound base lo ⟨h', (.block (b + HEADER), nbytes) :: s.held⟩ fs' ∧ Kept s.heap h' s.held := by
  have hstart : start (.block (b + HEADER), nbytes) = b := Nat.add_sub_cancel ..
  have hextent : extent (.block (b + HEADER), nbytes) = HEADER * units nbytes := rfl
  have hstop : h'.stop b = b + HEADER * units nbytes := by rw [Heap.stop, ht.size]
  have hlen : b + HEADER ≤ b + HEADER * units nbytes :=
    Nat.add_le_add_left (Nat.le_mul_of_pos_right HEADER (Nat.succ_pos _)) b
  have hapart : ∀ r ∈ s.held, Apart (.block (b + HEADER), nbytes) r := fun r hr => by
    rw [Apart, hstart, hextent]
    exact ht.apart _ _ (hs.outside r hr)
  have hkept : Kept s.heap h' s.held := fun r hr x hx hx' => by
    refine ht.keeps x (List.forall_mem_cons.mpr ⟨?_, fun a ha => hs.clear hr ha hx hx'⟩)
    have hra := hapart r hr
    rw [Apart, hstart, hextent] at hra
    omega
  have hblock := ht.block
  refine ⟨⟨.inr ⟨ht.list, f, hfm, hf⟩, hs.low, ht.list.limit, List.forall_mem_cons.mpr ⟨?_, fun r hr => ?_⟩,
    List.forall_mem_cons.mpr ⟨⟨hn, Nat.le_add_left .., ?_⟩, fun r hr => hkept.proper hr (hs.proper r hr)⟩,
    List.pairwise_cons.mpr ⟨hapart, hs.apart⟩, List.forall_mem_cons.mpr
    ⟨?_, fun r hr => ht.outside _ _ (hs.outside r hr)⟩, ?_⟩, hkept⟩
  · rw [hstart, hextent, ← hstop]
    exact ⟨hblock.le, hblock.inside⟩
  · rw [ht.brk]
    exact hs.inside r hr
  · rw [Nat.add_sub_cancel, ht.size]
  · rw [hstart, hextent, ← hstop]
    exact hblock.outside
  · have htotal := hs.total
    rw [← ht.total, Nat.mul_add] at htotal
    rw [List.map_cons, List.sum_cons, hextent, ht.brk]
    show lo + HEADER * User.total h' fs' + _ = _
    omega

/-- The memory grows by a free block. -/
theorem Sound.grow {f nu : Nat} (hs : Sound base lo s fs) (hg : Grown base lo s.heap h' nu fs fs')
    (hfm : f ∈ fs') (hf : h'.freep = some f) : Sound base lo ⟨h', s.held⟩ fs' ∧ Kept s.heap h' s.held := by
  have hkept : Kept s.heap h' s.held := hs.kept hg.keeps
    (List.forall_mem_cons.mpr ⟨.inr (.inr le_rfl), fun a ha => .inl ha⟩)
  refine ⟨hs.rebuild hg.list hfm hf (hg.brk ▸ Nat.le_add_right ..) (List.Sublist.refl _) hkept
    (fun r hr => ?_) ?_, hkept⟩
  · have hpos := extent_pos (hs.proper r hr)
    exact hg.outside _ _ (by omega) (hs.inside r hr).2 (hs.outside r hr)
  · have htotal := hs.total
    rw [hg.total, hg.brk, Nat.mul_add]
    omega

/-- `freep` and the list when `malloc` is called for the first time. -/
def first (base : Nat) (h : Heap) : Heap :=
  { (h.setPtr base base).setSize base 0 with freep := some base }

theorem Sound.first (hs : Sound base lo s fs) (hf : s.heap.freep = none) :
    FreeList base lo (first base s.heap) [base] ∧ Sound base lo ⟨first base s.heap, s.held⟩ [base] ∧
      Kept s.heap (first base s.heap) s.held := by
  rcases hs.list with ⟨-, rfl, -⟩ | ⟨-, f, -, hsome⟩
  · have hlow := hs.low
    have hlo := hs.lo_le
    have hlim := hs.limit
    have hbase : base + HEADER ≤ KERNBASE := (hlow.trans hlo).trans hlim.le
    have hsize : (User.first base s.heap).size base = 0 := size_setSize hbase (by decide)
    have hptr : (User.first base s.heap).ptr base = base := by
      refine Eq.trans (ptr_setSize (h := s.heap.setPtr base base)) (ptr_setPtr hbase ?_)
      unfold KERNBASE HEADER at hbase
      omega
    have hstop : (User.first base s.heap).stop base = base := stop_zero hsize
    have hl : FreeList base lo (User.first base s.heap) [base] := by
      refine ⟨seg_cons_iff.mpr ⟨rfl, ?_⟩, by simp, List.pairwise_singleton .., hsize, fun a ha hne => ?_,
        List.forall_mem_singleton.mpr ⟨hlow.trans hlo, ?_⟩, hlow, hlim⟩
      · rw [hptr]
        exact .nil _
      · exact absurd (List.mem_singleton.mp ha) hne
      · rw [hstop]
        exact ((Nat.le_add_right ..).trans hlow).trans hlo
    have hkeeps : Keeps s.heap (User.first base s.heap) [base] :=
      (keeps_setPtr.trans keeps_setSize).mono (by simp)
    have hkept : Kept s.heap (User.first base s.heap) s.held :=
      hs.kept hkeeps (List.forall_mem_singleton.mpr (.inr (.inl hlow)))
    refine ⟨hl, hs.rebuild hl List.mem_cons_self rfl le_rfl (List.Sublist.refl _) hkept (fun r hr => ?_) ?_,
      hkept⟩
    · refine List.forall_mem_singleton.mpr (.inl ?_)
      rw [hstop]
      exact ((Nat.le_add_right ..).trans hlow).trans (hs.inside r hr).1
    · have htotal := hs.total
      rw [total_cons, hsize]
      exact htotal
  · rw [hf] at hsome
    cases hsome

/-- Why `malloc` has not found a block. -/
def NoRoom (h : Heap) (fs : List Nat) (nbytes : Nat) (ok : Bool) : Prop :=
  (∀ a ∈ fs, h.size a < units nbytes) ∧ Refused h (HEADER * coreUnits (units nbytes)) ok

theorem units_limit {nbytes : Nat} (hn : nbytes ≤ 2 ^ 31 - 16) : HEADER * units nbytes < 2 ^ 31 := by
  unfold units HEADER
  omega

theorem Sound.search {f nbytes : Nat} (hs : Sound base lo s fs) (hl : FreeList base lo s.heap fs) (hfm : f ∈ fs)
    (hf : s.heap.freep = some f) (hn : nbytes ≤ 2 ^ 31 - 16) (ok : Bool) :
    ∃ p h' fs', User.search (units nbytes) ok (3 * (s.heap.brk + 2)) s.heap f (s.heap.ptr f) = .ok (p, h') ∧
      Sound base lo (s.get .block nbytes (p, h')).2 fs' ∧ Kept s.heap h' s.held ∧
      (p = none → NoRoom s.heap fs nbytes ok) := by
  rcases search_spec hl hf hfm hs.lo_le (Nat.succ_pos _ : 0 < units nbytes) (units_limit hn) le_rfl ok
    with ⟨b, h', fs', f', hx, ht, hfm', hf'⟩ |
      ⟨hsmall, ⟨hx, hr⟩ | ⟨h₁, fs₁, f₁, hg, hfm₁, hf₁, b, h', fs', f', hx, ht, hfm', hf'⟩⟩
  · obtain ⟨hs', hkept⟩ := hs.take ht hfm' hf' hn
    exact ⟨_, h', fs', hx, hs', hkept, nofun⟩
  · exact ⟨none, s.heap, fs, hx, hs, fun _ _ _ _ _ => rfl, fun _ => ⟨hsmall, hr⟩⟩
  · obtain ⟨hs₁, hkept₁⟩ := hs.grow hg hfm₁ hf₁
    obtain ⟨hs', hkept⟩ := hs₁.take ht hfm' hf' hn
    exact ⟨_, h', fs', hx, hs', hkept₁.trans hkept, nofun⟩

/-- `malloc` returns, and what it returns is apart from everything else. -/
theorem Sound.malloc {nbytes : Nat} (hs : Sound base lo s fs) (hn : nbytes ≤ 2 ^ 31 - 16) (ok : Bool) :
    ∃ p h' fs', User.malloc base s.heap nbytes ok = .ok (p, h') ∧
      Sound base lo (s.get .block nbytes (p, h')).2 fs' ∧ Kept s.heap h' s.held ∧
      (p = none → NoRoom s.heap fs nbytes ok) := by
  rw [User.malloc]
  split
  · rename_i hf
    obtain ⟨hl, hs₁, hkept₁⟩ := hs.first hf
    obtain ⟨p, h', fs', hx, hs', hkept, hnone⟩ := hs₁.search hl List.mem_cons_self rfl hn ok
    refine ⟨p, h', fs', hx, ?_, hkept₁.trans hkept, fun hp => ?_⟩
    · cases p <;> exact hs'
    · obtain ⟨-, hr⟩ := hnone hp
      rcases hs.list with ⟨-, rfl, -⟩ | ⟨-, f, -, hsome⟩
      · exact ⟨nofun, hr⟩
      · rw [hf] at hsome
        cases hsome
  · rename_i f hf
    rcases hs.list with ⟨hnone, -⟩ | ⟨hl, f', hfm, hf'⟩
    · rw [hf] at hnone
      cases hnone
    · obtain rfl := Option.some.inj (hf.symm.trans hf')
      rw [check_ok (hl.inside f hfm).1, ok_bind]
      exact hs.search hl hfm hf hn ok

/-- The program gets memory from the kernel. -/
theorem Sound.sbrk (hs : Sound base lo s fs) (hn : 0 < n) (hlim : s.heap.brk + n < KERNBASE) :
    Sound base lo ⟨{ s.heap with brk := s.heap.brk + n }, (.own s.heap.brk, n) :: s.held⟩ fs := by
  have hle : s.heap.brk ≤ s.heap.brk + n := Nat.le_add_right ..
  refine ⟨?_, hs.low, hlim, List.forall_mem_cons.mpr ⟨⟨hs.lo_le, le_rfl⟩, fun r hr => ?_⟩,
    List.forall_mem_cons.mpr ⟨hn, hs.proper⟩, List.pairwise_cons.mpr ⟨fun r hr => .inr (hs.inside r hr).2, hs.apart⟩,
    List.forall_mem_cons.mpr ⟨fun a ha => ?_, hs.outside⟩, ?_⟩
  · rcases hs.list with ⟨hf, hfs, hnone⟩ | ⟨hl, hf⟩
    · refine .inl ⟨hf, hfs, fun ap nbytes hm => ?_⟩
      rcases List.mem_cons.mp hm with heq | hm
      · cases heq
      · exact hnone ap nbytes hm
    · exact .inr ⟨hl.setBrk hle hlim, hf⟩
  · exact ⟨(hs.inside r hr).1, (hs.inside r hr).2.trans hle⟩
  · rcases hs.list with ⟨-, rfl, -⟩ | ⟨hl, -⟩
    · cases ha
    · exact .inl (hl.inside a ha).2
  · have htotal := hs.total
    show lo + HEADER * User.total s.heap fs + (n + (s.held.map extent).sum) = s.heap.brk + n
    omega

theorem mem_set_of_ne {i j : Nat} {b : UInt8} (hij : j ≠ i) : (h.mem.set i b).get j = h.mem.get j :=
  Bytes.get_set_of_ne hij

theorem Proper.addr_le (hr : Proper h r) : start r ≤ r.1.addr ∧ r.1.addr ≤ start r + extent r := by
  obtain ⟨p | p, n⟩ := r
  · obtain ⟨hn, hp, -⟩ := hr
    simp only [start, extent, units, Part.addr, HEADER] at *
    omega
  · simp only [start, extent, Part.addr]
    omega

/-- A byte of one part is not in another one. -/
theorem Sound.ne {r' : Part × Nat} {i : Nat} (hs : Sound base lo s fs) (hr : r ∈ s.held) (hi : i < r.2)
    (hr' : r' ∈ s.held) (hne : r' ≠ r) (hx : start r' ≤ x) (hx' : x < start r' + extent r') :
    x ≠ r.1.addr + i := by
  have hapart := (hs.split hr).1 r' ((List.mem_erase_of_ne hne).mpr hr')
  have hdata := data_inside (hs.proper r hr) hi
  unfold Apart at hapart
  omega

/-- The program writes a byte that it has asked for. -/
theorem Sound.store {i : Nat} (hs : Sound base lo s fs) (hr : r ∈ s.held) (hi : i < r.2) (b : UInt8) :
    Sound base lo { s with heap := { s.heap with mem := s.heap.mem.set (r.1.addr + i) b } } fs := by
  obtain ⟨hdata, hdata'⟩ := data_inside (hs.proper r hr) hi
  have hheader : ∀ a ∈ fs, ∀ x, a ≤ x → x < a + HEADER →
      (s.heap.mem.set (r.1.addr + i) b).get x = s.heap.mem.get x := fun a ha x hx hx' => by
    have hclear := hs.clear hr ha hdata hdata'
    exact mem_set_of_ne (by omega)
  have hsame : Same s.heap { s.heap with mem := s.heap.mem.set (r.1.addr + i) b } fs := fun a ha => by
    unfold HEADER at hheader
    exact ⟨Bytes.le_congr fun x hx hx' => hheader a ha x hx (by omega),
      Bytes.le_congr fun x hx hx' => hheader a ha x (by omega) hx'⟩
  refine ⟨?_, hs.low, hs.limit, hs.inside, fun r' hr' => ?_, hs.apart,
    fun r' hr' => hsame.outside.mpr (hs.outside r' hr'), ?_⟩
  · rcases hs.list with hnone | ⟨hl, hf⟩
    · exact .inl hnone
    · exact .inr ⟨hl.congr hsame rfl, hf⟩
  · have hproper := hs.proper r' hr'
    obtain ⟨p | p, n⟩ := r'
    · obtain ⟨hn, hp, hsize⟩ := hproper
      refine ⟨hn, hp, Eq.trans (Bytes.le_congr fun x hx hx' => mem_set_of_ne ?_) hsize⟩
      have hle := Proper.addr_le (hs.proper _ hr')
      have hstart : start (.block p, n) = p - HEADER := rfl
      have haddr : Part.addr (.block p) = p := rfl
      unfold HEADER at hp hstart hx hx'
      by_cases heq : (.block p, n) = r
      · rw [← heq, haddr]
        omega
      · rw [haddr] at hle
        exact hs.ne hr hi hr' heq (by omega) (by omega)
    · exact hproper
  · show lo + HEADER * User.total { s.heap with mem := s.heap.mem.set (r.1.addr + i) b } fs + _ = _
    rw [hsame.total]
    exact hs.total

/-! ### What a program may rely on -/

/-- The bytes of a part. -/
def contents (h : Heap) (r : Part × Nat) : List UInt8 :=
  (List.range r.2).map fun i => h.mem.get (r.1.addr + i)

theorem length_contents : (contents h r).length = r.2 := by
  rw [contents, List.length_map, List.length_range]

theorem getElem_contents {i : Nat} (hi : i < (contents h r).length) :
    (contents h r)[i] = h.mem.get (r.1.addr + i) := by
  simp only [contents, List.getElem_map, List.getElem_range]

theorem Kept.contents {rs : List (Part × Nat)} (hk : Kept h h' rs) (hm : r ∈ rs) (hr : Proper h r) :
    contents h' r = contents h r :=
  List.map_congr_left fun i hi => by
    obtain ⟨hx, hx'⟩ := data_inside hr (List.mem_range.mp hi)
    exact hk r hm _ hx hx'

/-- Two parts that are apart are different. -/
theorem Apart.ne {r' : Part × Nat} (h₁ : Apart r r') (hr : Proper h r) (hr' : Proper h r') : r'.1 ≠ r.1 := by
  obtain ⟨p, n⟩ := r
  obtain ⟨p', n'⟩ := r'
  rintro (rfl : p' = p)
  have hpos := extent_pos hr
  have hpos' := extent_pos hr'
  have hstart : start (p', n) = start (p', n') := by cases p' <;> rfl
  unfold Apart at h₁
  omega

/-- The parts that the program holds are these arrays. -/
def Shows (base lo : Nat) (s : State) (a : Part → Option (List UInt8)) : Prop :=
  (∃ fs, Sound base lo s fs) ∧ (∀ r ∈ s.held, a r.1 = some (contents s.heap r)) ∧
    ∀ p, (∀ n, (p, n) ∉ s.held) → a p = none

variable {a : Part → Option (List UInt8)}

/-- The program gets one more part. -/
theorem Shows.cons (hs : Shows base lo s a) (hr : Sound base lo ⟨h', r :: s.held⟩ fs')
    (hk : Kept s.heap h' s.held) : a r.1 = none ∧
      Shows base lo ⟨h', r :: s.held⟩ (Function.update a r.1 (some (contents h' r))) := by
  obtain ⟨⟨fs, hsound⟩, hall, hnone⟩ := hs
  obtain ⟨hapart, -⟩ := List.pairwise_cons.mp hr.apart
  have hne : ∀ r' ∈ s.held, r'.1 ≠ r.1 := fun r' hr' =>
    (hapart r' hr').ne (hr.proper r List.mem_cons_self) (hr.proper r' (List.mem_cons_of_mem r hr'))
  refine ⟨hnone r.1 fun n hn => hne _ hn rfl, ⟨fs', hr⟩, List.forall_mem_cons.mpr
    ⟨Function.update_self .., fun r' hr' => ?_⟩, fun p hp => ?_⟩
  · rw [Function.update_of_ne (hne r' hr'), hall r' hr', hk.contents hr' (hsound.proper r' hr')]
  · obtain ⟨p', n⟩ := r
    have hne : p ≠ p' := by
      rintro rfl
      exact hp n List.mem_cons_self
    rw [Function.update_of_ne hne]
    exact hnone p fun n hn => hp n (List.mem_cons_of_mem _ hn)

theorem Shows.same (hs : Shows base lo s a) (hr : Sound base lo ⟨h', s.held⟩ fs') (hk : Kept s.heap h' s.held) :
    Shows base lo ⟨h', s.held⟩ a := by
  obtain ⟨⟨fs, hsound⟩, hall, hnone⟩ := hs
  refine ⟨⟨fs', hr⟩, fun r' hr' => ?_, hnone⟩
  rw [hall r' hr', hk.contents hr' (hsound.proper r' hr')]

theorem Shows.erase {ap n : Nat} (hs : Shows base lo s a) (hm : (.block ap, n) ∈ s.held)
    (hr : Sound base lo ⟨h', s.held.erase (.block ap, n)⟩ fs')
    (hk : Kept s.heap h' (s.held.erase (.block ap, n))) :
    Shows base lo ⟨h', s.held.erase (.block ap, n)⟩ (Function.update a (.block ap) none) := by
  obtain ⟨⟨fs, hsound⟩, hall, hnone⟩ := hs
  have hsub : s.held.erase (.block ap, n) <+ s.held := List.erase_sublist
  refine ⟨⟨fs', hr⟩, fun r' hr' => ?_, fun p hp => ?_⟩
  · have hproper := hsound.proper r' (hsub.subset hr')
    have hne : r'.1 ≠ .block ap := ((hsound.split hm).1 r' hr').ne (hsound.proper _ hm) hproper
    rw [Function.update_of_ne hne, hall r' (hsub.subset hr'), hk.contents hr' hproper]
  · by_cases heq : p = .block ap
    · rw [heq, Function.update_self]
    · rw [Function.update_of_ne heq]
      refine hnone p fun k hk => hp k ((List.mem_erase_of_ne fun he => ?_).mpr hk)
      exact heq (congrArg Prod.fst he)

theorem Shows.store {i : Nat} {b : UInt8} (hs : Shows base lo s a) (hr : r ∈ s.held) (hi : i < r.2) :
    Shows base lo { s with heap := { s.heap with mem := s.heap.mem.set (r.1.addr + i) b } }
      (Function.update a r.1 (some ((contents s.heap r).set i b))) := by
  obtain ⟨⟨fs, hsound⟩, hall, hnone⟩ := hs
  refine ⟨⟨fs, hsound.store hr hi b⟩, fun r' hr' => ?_, fun p hp => ?_⟩
  · show Function.update a r.1 _ r'.1 = some (contents { s.heap with mem := _ } r')
    by_cases heq : r' = r
    · rw [heq, Function.update_self]
      congr 1
      refine List.ext_getElem (by rw [List.length_set, length_contents, length_contents]) fun j hj hj' => ?_
      rw [getElem_contents, List.getElem_set, getElem_contents]
      by_cases hij : i = j
      · have hin := data_inside (hsound.proper r hr) hi
        have hle := (hsound.inside r hr).2
        have hlim := hsound.limit
        rw [if_pos hij, ← hij]
        exact (Bytes.get_set_self (by omega)).symm
      · rw [if_neg hij]
        exact (mem_set_of_ne (by omega)).symm
    · have hapart := (hsound.split hr).1 r' ((List.mem_erase_of_ne heq).mpr hr')
      have hproper := hsound.proper r' hr'
      rw [Function.update_of_ne (hapart.ne (hsound.proper r hr) hproper), hall r' hr']
      refine congrArg some (List.map_congr_left fun j hj => (mem_set_of_ne ?_).symm)
      obtain ⟨hx, hx'⟩ := data_inside hproper (List.mem_range.mp hj)
      exact hsound.ne hr hi hr' heq hx hx'
  · have hne : p ≠ r.1 := by
      rintro rfl
      exact hp r.2 hr
    rw [Function.update_of_ne hne]
    exact hnone p hp

/-- Every call does what it does with separate arrays. -/
theorem Shows.call {u : Result} (hs : Shows base lo s a) (hv : s.Valid c) (hc : s.call base c = .ok (u, t)) :
    ∃ a', Arrays.Step a (some (c, u)) a' ∧ Shows base lo t a' := by
  obtain ⟨fs, hsound⟩ := hs.1
  cases c with
  | malloc nbytes ok =>
    obtain ⟨p, h', fs', hx, hr, hk, -⟩ := hsound.malloc hv ok
    rw [State.call, hx] at hc
    cases p with
    | none =>
      cases hc
      exact ⟨a, .noBlock, hs.same hr hk⟩
    | some p =>
      cases hc
      obtain ⟨hnone, hshows⟩ := hs.cons hr hk
      have hstep : Arrays.Step a (some (.malloc _ ok, .addr (some p)))
        (Function.update a _ (some (contents h' (.block p, nbytes)))) := .malloc hnone
      rw [length_contents] at hstep
      exact ⟨_, hstep, hshows⟩
  | free ap nbytes =>
    obtain ⟨h', fs', hx, -, hr, hk⟩ := hsound.free hv
    rw [State.call, hx] at hc
    cases hc
    have hstep : Arrays.Step a _ (Function.update a (.block ap) none) := .free (hs.2.1 _ hv)
    rw [length_contents] at hstep
    exact ⟨_, hstep, hs.erase hv hr hk⟩
  | sbrk n ok =>
    rw [State.call] at hc
    rcases sbrk_pos (h := s.heap) hv.1 ok with ⟨-, hx⟩ | ⟨hr, hx⟩
    · rw [hx] at hc
      cases hc
      exact ⟨a, .noMemory, hs⟩
    · rw [hx] at hc
      cases hc
      have hlim : s.heap.brk + n < KERNBASE := not_le.mp fun hle => hr (.inr hle)
      obtain ⟨hnone, hshows⟩ := hs.cons (hsound.sbrk hv.1 hlim) fun _ _ _ _ _ => rfl
      have hstep : Arrays.Step a (some (.sbrk _ ok, .addr (some s.heap.brk))) (Function.update a _
        (some (contents { s.heap with brk := s.heap.brk + n } (.own s.heap.brk, n)))) := .sbrk hnone
      rw [length_contents] at hstep
      exact ⟨_, hstep, hshows⟩
  | load p i =>
    obtain ⟨r, hr, rfl, hi⟩ := hv
    cases hc
    have hlen : i < (contents s.heap r).length := length_contents.symm ▸ hi
    have hstep := Arrays.Step.load hlen (hs.2.1 r hr)
    rw [getElem_contents] at hstep
    exact ⟨a, hstep, hs⟩
  | store p i b =>
    obtain ⟨r, hr, rfl, hi⟩ := hv
    cases hc
    exact ⟨_, .store (hs.2.1 r hr) (length_contents.symm ▸ hi), hs.store hr hi⟩

theorem program_simulates (hbase : base + HEADER ≤ lo) (hlo : lo < KERNBASE) :
    Simulates (program base lo) arrays (Shows base lo) where
  init s hs := by
    obtain ⟨hf, hbrk, hheld⟩ := hs
    refine ⟨fun _ => none, fun _ => rfl, ⟨[], .inl ⟨hf, rfl, ?_⟩, hbase, hbrk ▸ hlo, ?_, ?_, ?_, ?_, ?_⟩, ?_,
      fun _ _ => rfl⟩
    all_goals rw [hheld]
    all_goals simp [User.total, hbrk]
  step s a o t hs hstep := by
    obtain ⟨c, -, hc⟩ := hstep
    rw [State.step] at hc
    split at hc
    · rename_i hv
      obtain ⟨⟨u, s'⟩, hcall, hc⟩ := bind_eq_ok.mp hc
      cases hc
      obtain ⟨a', hstep, hshows⟩ := hs.call hv hcall
      exact ⟨a', .single hstep, hshows⟩
    · cases hc

/-- A program that has not called `malloc` yet. -/
def unused : State := ⟨⟨fun _ => 0, none, 4096⟩, []⟩

theorem trace_unused : (program 16 4096).Trace [] unused := .start ⟨rfl, rfl, rfl⟩

/-- Two blocks; the first is given back, and a part of it is used again. -/
def reused : List Call :=
  [.malloc 100 true, .malloc 8 true, .store (.block 36744) 7 42, .free 36760 100, .malloc 16 true,
    .load (.block 36744) 7]

def reusedResults : List Result :=
  [.addr (some 36760), .addr (some 36744), .done, .done, .addr (some 36848), .byte 42]

theorem sound_of_trace {es : List (Call × Result)} (hbase : base + HEADER ≤ lo) (hlo : lo < KERNBASE)
    (h : (program base lo).Trace es s) : ∃ fs, Sound base lo s fs := by
  obtain ⟨a, -, hshows⟩ := (program_simulates hbase hlo).trace h
  exact hshows.1

/-- `malloc` returns, and if it has found nothing, then no free block is large enough and the kernel has
    refused; `free` of a block returns. -/
theorem malloc_returns {es : List (Call × Result)} (hbase : base + HEADER ≤ lo) (hlo : lo < KERNBASE)
    (h : (program base lo).Trace es s) :
    (∀ nbytes ok, nbytes ≤ 2 ^ 31 - 16 → ∃ p h', malloc base s.heap nbytes ok = .ok (p, h') ∧
      (p = none → ∃ fs, Sound base lo s fs ∧ NoRoom s.heap fs nbytes ok)) ∧
    ∀ ap nbytes, (.block ap, nbytes) ∈ s.held → ∃ h', free s.heap ap = .ok h' := by
  obtain ⟨fs, hs⟩ := sound_of_trace hbase hlo h
  refine ⟨fun nbytes ok hn => ?_, fun ap nbytes hr => ?_⟩
  · obtain ⟨p, h', fs', hx, -, -, hnone⟩ := hs.malloc hn ok
    exact ⟨p, h', hx, fun hp => ⟨fs, hs, hnone hp⟩⟩
  · obtain ⟨h', fs', hx, -⟩ := hs.free hr
    exact ⟨h', hx⟩

theorem malloc_returns_reused : ∃ es s, (program 16 4096).Trace es s ∧
    (∃ p h', malloc 16 s.heap 40000 false = .ok (p, h')) ∧ ∃ h', free s.heap 36744 = .ok h' := by
  have htest : runTest (State.step 16) (fun _ s => decide ((.block 36744, 8) ∈ s.held)) [] unused
      reused = true := by decide +kernel
  obtain ⟨es, s, h, hs⟩ := System.Trace.of_runTest trace_unused (fun _ _ _ => trivial) htest
  obtain ⟨hmalloc, hfree⟩ := malloc_returns (by decide) (by decide) h
  obtain ⟨p, h', hx, -⟩ := hmalloc 40000 false (by decide)
  exact ⟨es, s, h, ⟨p, h', hx⟩, hfree 36744 8 (of_decide_eq_true hs)⟩

/-- There is a gap between two free blocks. -/
theorem gaps {e : Nat} (hsorted : (p :: xs).Pairwise fun a b => a + HEADER ≤ b ∧ h.stop a < b)
    (hin : ∀ a ∈ p :: xs, h.stop a ≤ e) : p + HEADER * total h (p :: xs) + xs.length ≤ e := by
  induction xs generalizing p with
  | nil => exact hin p List.mem_cons_self
  | cons q xs ih =>
    obtain ⟨hp, hsorted⟩ := List.pairwise_cons.mp hsorted
    have hrest := ih hsorted fun a ha => hin a (List.mem_cons_of_mem p ha)
    have hpq := (hp q List.mem_cons_self).2
    rw [total_cons, Nat.mul_add, ← Nat.add_assoc, ← Heap.stop, List.length_cons]
    omega

/-- Two blocks that are given back. -/
def returned : List Call :=
  [.malloc 100 true, .malloc 8 true, .free 36760 100, .free 36744 8]

end Xv6.User
