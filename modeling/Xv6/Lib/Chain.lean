import Mathlib

namespace Xv6.Lib

/-!
# Library — intrusive singly linked lists

A `next` field on a type of nodes, read as a function `next : α → Option α`, and a head
pointer `h : Option α`:

* `Seg next h xs e` — following `next` from `h` visits `xs` and arrives at the pointer `e`;
* `Chain next h xs` — the segment that ends at the null pointer.  A chain is finite, hence
  acyclic (`Chain.nodup`), and determined by `next` and `h` (`Chain.unique`);
* `Linked next h x` — `x` is met when following `next` from `h`, also on a cyclic list;
* `walkEnd` / `walkFind` / `walkPrev` / `walkList` — the list loops C programs are made of,
  with a bound on the number of rounds.  The result `none` means that the loop did not end
  within the bound; on a chain no longer than the bound every loop ends and computes the list
  operation of the same purpose.
-/

variable {α : Type*} {next next' : α → Option α}

/-! ### Segments and chains -/

/-- Following `next` from the first pointer visits exactly the listed nodes, in order, and
    arrives at the second pointer. -/
inductive Seg (next : α → Option α) : Option α → List α → Option α → Prop
  | nil (h : Option α) : Seg next h [] h
  | cons (a : α) (xs : List α) (e : Option α) :
      Seg next (next a) xs e → Seg next (some a) (a :: xs) e

/-- A null-terminated list: following `next` from `h` visits `xs` and stops. -/
def Chain (next : α → Option α) (h : Option α) (xs : List α) : Prop := Seg next h xs none

@[simp] theorem seg_nil_iff {h e : Option α} : Seg next h [] e ↔ h = e := by
  constructor
  · intro hs; cases hs; rfl
  · rintro rfl; exact .nil _

@[simp] theorem seg_cons_iff {h e : Option α} {a : α} {xs : List α} :
    Seg next h (a :: xs) e ↔ h = some a ∧ Seg next (next a) xs e := by
  constructor
  · intro hs; cases hs with
    | cons _ _ _ ht => exact ⟨rfl, ht⟩
  · rintro ⟨rfl, ht⟩; exact .cons a xs e ht

/-- Segments compose exactly at a common intermediate pointer. -/
theorem seg_append_iff {h e : Option α} {xs ys : List α} :
    Seg next h (xs ++ ys) e ↔ ∃ m, Seg next h xs m ∧ Seg next m ys e := by
  induction xs generalizing h with
  | nil => simp
  | cons a t ih =>
    rw [List.cons_append, seg_cons_iff, ih]
    simp only [seg_cons_iff]
    constructor
    · rintro ⟨rfl, m, h1, h2⟩; exact ⟨m, ⟨rfl, h1⟩, h2⟩
    · rintro ⟨m, ⟨rfl, h1⟩, h2⟩; exact ⟨rfl, m, h1, h2⟩

/-- A segment only depends on the `next` fields of its own nodes. -/
theorem Seg.congr {h e : Option α} {xs : List α} (hs : Seg next h xs e)
    (heq : ∀ a ∈ xs, next' a = next a) : Seg next' h xs e := by
  induction hs with
  | nil h => exact .nil h
  | cons a t e _ ih =>
    refine .cons a t e ?_
    rw [heq a (by simp)]
    exact ih fun b hb => heq b (by simp [hb])

theorem Chain.congr {h : Option α} {xs : List α} (hc : Chain next h xs)
    (heq : ∀ a ∈ xs, next' a = next a) : Chain next' h xs :=
  Seg.congr hc heq

@[simp] theorem chain_none_iff {xs : List α} : Chain next none xs ↔ xs = [] := by
  cases xs <;> simp [Chain]

@[simp] theorem chain_nil_iff {h : Option α} : Chain next h [] ↔ h = none := by
  simp [Chain]

@[simp] theorem chain_cons_iff {h : Option α} {a : α} {xs : List α} :
    Chain next h (a :: xs) ↔ h = some a ∧ Chain next (next a) xs := by
  simp [Chain]

/-- A non-empty chain starts with the node its head points at. -/
theorem chain_some_iff {a : α} {xs : List α} :
    Chain next (some a) xs ↔ ∃ t, xs = a :: t ∧ Chain next (next a) t := by
  cases xs with
  | nil => simp
  | cons b t =>
    rw [chain_cons_iff]
    constructor
    · rintro ⟨hb, ht⟩; cases hb; exact ⟨t, rfl, ht⟩
    · rintro ⟨t', heq, ht⟩; cases heq; exact ⟨rfl, ht⟩

/-- A chain splits into a segment and the chain behind it. -/
theorem chain_append_iff {h : Option α} {xs ys : List α} :
    Chain next h (xs ++ ys) ↔ ∃ m, Seg next h xs m ∧ Chain next m ys :=
  seg_append_iff

/-- `next` and the head determine the visited nodes. -/
theorem Chain.unique {h : Option α} {xs ys : List α} (hx : Chain next h xs)
    (hy : Chain next h ys) : xs = ys := by
  induction xs generalizing h ys with
  | nil => rw [chain_nil_iff] at hx; subst hx; exact (chain_none_iff.mp hy).symm
  | cons a t ih =>
    rw [chain_cons_iff] at hx
    obtain ⟨rfl, ht⟩ := hx
    obtain ⟨t', rfl, ht'⟩ := chain_some_iff.mp hy
    rw [ih ht ht']

/-- A finite chain visits no node twice: the second visit would restart the same chain. -/
theorem Chain.nodup {h : Option α} {xs : List α} (hc : Chain next h xs) : xs.Nodup := by
  induction xs generalizing h with
  | nil => exact List.nodup_nil
  | cons a t ih =>
    rw [chain_cons_iff] at hc
    refine List.nodup_cons.mpr ⟨fun hmem => ?_, ih hc.2⟩
    obtain ⟨u, v, rfl⟩ := List.append_of_mem hmem
    obtain ⟨m, _, hm⟩ := chain_append_iff.mp hc.2
    rw [chain_cons_iff] at hm
    have hlen := congrArg List.length (hc.2.unique hm.2)
    simp at hlen
    omega

/-- A chain on a finite node type is no longer than the type is large. -/
theorem Chain.length_le [Fintype α] {h : Option α} {xs : List α} (hc : Chain next h xs) :
    xs.length ≤ Fintype.card α :=
  hc.nodup.length_le_card

/-- A node is linked behind the last one. -/
theorem Chain.snoc {h : Option α} {xs : List α} {z a : α} (hc : Chain next h (xs ++ [z]))
    (hz : next' z = some a) (ha : next' a = none) (hsame : ∀ b ∈ xs, next' b = next b) :
    Chain next' h (xs ++ [z] ++ [a]) := by
  obtain ⟨m, hseg, hm⟩ := chain_append_iff.mp hc
  rw [List.append_assoc]
  refine chain_append_iff.mpr ⟨m, hseg.congr hsame, ?_⟩
  rw [List.singleton_append, chain_cons_iff, chain_cons_iff, hz, ha]
  exact ⟨(chain_cons_iff.mp hm).1, rfl, by simp⟩

/-! ### Reaching a node -/

/-- `x` is met when following `next` from the head. -/
inductive Linked (next : α → Option α) : Option α → α → Prop
  | here (a : α) : Linked next (some a) a
  | there (a x : α) : Linked next (next a) x → Linked next (some a) x

/-- What contains the head and is closed under `next` contains every linked node. -/
theorem Linked.closed {h : Option α} {x : α} (hl : Linked next h x) {S : α → Prop}
    (hhead : ∀ a, h = some a → S a) (hnext : ∀ a b, S a → next a = some b → S b) : S x := by
  induction hl with
  | here a => exact hhead a rfl
  | there a x _ ih => exact ih fun b hb => hnext a b (hhead a rfl) hb

/-- Linked nodes lead to linked nodes. -/
theorem Linked.step {h : Option α} {a b : α} (hl : Linked next h a) (hab : next a = some b) :
    Linked next h b := by
  induction hl with
  | here a => exact .there a b (hab ▸ .here b)
  | there c a _ ih => exact .there c b (ih hab)

/-- On a chain, linked is the same as listed. -/
theorem Chain.linked_iff {h : Option α} {xs : List α} (hc : Chain next h xs) {x : α} :
    Linked next h x ↔ x ∈ xs := by
  induction xs generalizing h with
  | nil =>
    rw [chain_nil_iff] at hc
    subst hc
    constructor
    · intro hl; cases hl
    · intro hm; simp at hm
  | cons a t ih =>
    obtain ⟨rfl, ht⟩ := chain_cons_iff.mp hc
    rw [List.mem_cons, ← ih ht]
    constructor
    · intro hl
      cases hl with
      | here => exact .inl rfl
      | there _ _ hl => exact .inr hl
    · rintro (rfl | hl)
      · exact .here x
      · exact .there a x hl

/-- Every node of a chain leads to its last node. -/
theorem Chain.linked_last {h : Option α} {xs : List α} {a c : α} (hc : Chain next h xs)
    (ha : a ∈ xs) (hlast : xs.getLast? = some c) : Linked next (some a) c := by
  obtain ⟨us, vs, rfl⟩ := List.append_of_mem ha
  obtain ⟨m, _, hm⟩ := chain_append_iff.mp hc
  obtain ⟨rfl, _⟩ := chain_cons_iff.mp hm
  refine hm.linked_iff.mpr (List.mem_of_mem_getLast? ?_)
  rwa [List.getLast?_append_of_ne_nil _ (by simp)] at hlast

/-- The first way to a linked node: the nodes before it, without repetition. -/
theorem Linked.first [DecidableEq α] {h : Option α} {x : α} (hl : Linked next h x) :
    ∃ us, Seg next h us (some x) ∧ (us ++ [x]).Nodup := by
  -- cut the list behind `x`; what is left is a chain
  have hcut : ∃ us, Chain (Function.update next x none) h (us ++ [x]) := by
    induction hl with
    | here a => exact ⟨[], by simp⟩
    | there a x _ ih =>
      by_cases hax : a = x
      · subst hax
        exact ⟨[], by simp⟩
      · obtain ⟨us, hc⟩ := ih
        refine ⟨a :: us, ?_⟩
        rw [List.cons_append, chain_cons_iff, Function.update_of_ne hax]
        exact ⟨rfl, hc⟩
  obtain ⟨us, hc⟩ := hcut
  have hnd := hc.nodup
  obtain ⟨m, hs, hm⟩ := chain_append_iff.mp hc
  obtain ⟨rfl, _⟩ := chain_cons_iff.mp hm
  refine ⟨us, hs.congr fun a ha => ?_, hnd⟩
  have hax : a ≠ x := by
    rintro rfl
    rw [List.nodup_append] at hnd
    exact hnd.2.2 a ha a (by simp) rfl
  rw [Function.update_of_ne hax]

/-- Every node of a segment is linked. -/
theorem Seg.linked {h e : Option α} {xs : List α} (hs : Seg next h xs e) {x : α} (hx : x ∈ xs) :
    Linked next h x := by
  induction hs with
  | nil h => simp at hx
  | cons a t e _ ih =>
    rcases List.mem_cons.mp hx with rfl | hx
    · exact .here x
    · exact .there a x (ih hx)

/-- Following a segment to its end and going on from there. -/
theorem Seg.linked_end {h e : Option α} {xs : List α} (hs : Seg next h xs e) {x : α}
    (hx : Linked next e x) : Linked next h x := by
  induction hs with
  | nil h => exact hx
  | cons a t e _ ih => exact .there a x (ih hx)

/-- A linked node is in a given segment or behind its end. -/
theorem Linked.split {h e : Option α} {xs : List α} {x : α} (hl : Linked next h x)
    (hs : Seg next h xs e) : x ∈ xs ∨ Linked next e x := by
  induction hs with
  | nil h => exact .inr hl
  | cons a t e _ ih =>
    cases hl with
    | here => exact .inl (by simp)
    | there _ _ hl =>
      rcases ih hl with hx | hx
      · exact .inl (by simp [hx])
      · exact .inr hx

/-- A node that can be reached again from its own successor starts no finite list. -/
theorem not_chain_of_loop {a : α} (hl : Linked next (next a) a) (xs : List α) :
    ¬ Chain next (some a) xs := by
  intro hc
  have hnd := hc.nodup
  obtain ⟨t, rfl, ht⟩ := chain_some_iff.mp hc
  exact (List.nodup_cons.mp hnd).1 (ht.linked_iff.mp hl)

/-! ### Bounded list loops -/

/-- `while (a->next) a = a->next`: the last node reached from `a`. -/
def walkEnd (next : α → Option α) : Nat → α → Option α
  | 0, _ => none
  | n + 1, a =>
    match next a with
    | none => some a
    | some b => walkEnd next n b

/-- `for (a = h; a; a = a->next) if (p(a)) break`: the first node that satisfies `p`. -/
def walkFind (next : α → Option α) (p : α → Bool) : Nat → Option α → Option (Option α)
  | _, none => some none
  | 0, some _ => none
  | n + 1, some a => if p a then some (some a) else walkFind next p n (next a)

/-- `for (a = h; a; prev = a, a = a->next) if (a == x) break`: whether `x` was found and, if
    so, the value of `prev` at that point. -/
def walkPrev [DecidableEq α] (next : α → Option α) (x : α) :
    Nat → Option α → Option α → Option (Option (Option α))
  | _, _, none => some none
  | 0, _, some _ => none
  | n + 1, prev, some a =>
    if a = x then some (some prev) else walkPrev next x n (some a) (next a)

/-- `for (a = h; a; a = a->next)`: all nodes visited. -/
def walkList (next : α → Option α) : Nat → Option α → Option (List α)
  | _, none => some []
  | 0, some _ => none
  | n + 1, some a => (walkList next n (next a)).map (a :: ·)

theorem walkEnd_eq {n : Nat} {a : α} {xs : List α} (hc : Chain next (some a) xs)
    (hn : xs.length ≤ n) : walkEnd next n a = xs.getLast? := by
  induction n generalizing a xs with
  | zero =>
    obtain ⟨t, rfl, _⟩ := chain_some_iff.mp hc
    simp at hn
  | succ n ih =>
    obtain ⟨t, rfl, ht⟩ := chain_some_iff.mp hc
    cases hnx : next a with
    | none =>
      rw [hnx, chain_none_iff] at ht
      simp [walkEnd, hnx, ht]
    | some b =>
      rw [hnx] at ht
      obtain ⟨u, rfl, _⟩ := chain_some_iff.mp ht
      simp only [List.length_cons] at hn
      rw [walkEnd, hnx, List.getLast?_cons_cons]
      exact ih ht (by simp; omega)

/-- The walk from any node of a chain ends at the last one. -/
theorem walkEnd_of_mem {n : Nat} {a : α} {h : Option α} {xs : List α} (hc : Chain next h xs)
    (ha : a ∈ xs) (hn : xs.length ≤ n) : walkEnd next n a = xs.getLast? := by
  obtain ⟨us, vs, rfl⟩ := List.append_of_mem ha
  obtain ⟨b, _, hb⟩ := chain_append_iff.mp hc
  obtain ⟨rfl, _⟩ := chain_cons_iff.mp hb
  rw [List.length_append] at hn
  rw [walkEnd_eq hb (by omega), List.getLast?_append, List.getLast?_cons]
  rfl

/-- The node found by `walkEnd` is linked and has no successor. -/
theorem walkEnd_some {n : Nat} {a z : α} (hw : walkEnd next n a = some z) :
    Linked next (some a) z ∧ next z = none := by
  induction n generalizing a with
  | zero => simp [walkEnd] at hw
  | succ n ih =>
    rw [walkEnd] at hw
    cases hnx : next a with
    | none =>
      simp only [hnx, Option.some.injEq] at hw
      subst hw
      exact ⟨.here a, hnx⟩
    | some b =>
      rw [hnx] at hw
      obtain ⟨hl, hz⟩ := ih hw
      exact ⟨.there a z (hnx ▸ hl), hz⟩

theorem walkFind_eq {p : α → Bool} {n : Nat} {h : Option α} {xs : List α}
    (hc : Chain next h xs) (hn : xs.length ≤ n) : walkFind next p n h = some (xs.find? p) := by
  induction xs generalizing n h with
  | nil => rw [chain_nil_iff] at hc; subst hc; simp [walkFind]
  | cons a t ih =>
    obtain ⟨rfl, ht⟩ := chain_cons_iff.mp hc
    cases n with
    | zero => simp at hn
    | succ n =>
      rw [walkFind, List.find?_cons]
      by_cases hp : p a
      · simp [hp]
      · simp only [hp, Bool.false_eq_true, if_false]
        exact ih ht (by simpa using hn)

/-- The node found by `walkFind` is linked and satisfies the test. -/
theorem walkFind_some {p : α → Bool} {n : Nat} {h : Option α} {a : α}
    (hw : walkFind next p n h = some (some a)) : Linked next h a ∧ p a = true := by
  induction n generalizing h with
  | zero => cases h <;> simp [walkFind] at hw
  | succ n ih =>
    cases h with
    | none => simp [walkFind] at hw
    | some b =>
      rw [walkFind] at hw
      by_cases hp : p b
      · simp only [hp, if_true, Option.some.injEq] at hw
        subst hw
        exact ⟨.here b, hp⟩
      · simp only [hp, Bool.false_eq_true, if_false] at hw
        obtain ⟨hl, ha⟩ := ih hw
        exact ⟨.there b a hl, ha⟩

/-- A search that ends without a result has seen the whole list. -/
theorem walkFind_none {p : α → Bool} {n : Nat} {h : Option α}
    (hw : walkFind next p n h = some none) : ∃ xs, Chain next h xs ∧ ∀ a ∈ xs, p a = false := by
  induction n generalizing h with
  | zero =>
    cases h with
    | none => exact ⟨[], by simp, by simp⟩
    | some a => simp [walkFind] at hw
  | succ n ih =>
    cases h with
    | none => exact ⟨[], by simp, by simp⟩
    | some a =>
      rw [walkFind] at hw
      by_cases hp : p a
      · simp [hp] at hw
      · simp only [hp, Bool.false_eq_true, if_false] at hw
        obtain ⟨xs, hc, hxs⟩ := ih hw
        refine ⟨a :: xs, by simp [hc], fun b hb => ?_⟩
        rcases List.mem_cons.mp hb with rfl | hb
        · simpa using hp
        · exact hxs b hb

theorem walkPrev_eq_none [DecidableEq α] {x : α} {n : Nat} {h prev : Option α} {xs : List α}
    (hc : Chain next h xs) (hn : xs.length ≤ n) (hx : x ∉ xs) :
    walkPrev next x n prev h = some none := by
  induction xs generalizing n h prev with
  | nil => rw [chain_nil_iff] at hc; subst hc; simp [walkPrev]
  | cons a t ih =>
    obtain ⟨rfl, ht⟩ := chain_cons_iff.mp hc
    cases n with
    | zero => simp at hn
    | succ n =>
      rw [List.mem_cons, not_or] at hx
      rw [walkPrev, if_neg (Ne.symm hx.1)]
      exact ih ht (by simpa using hn) hx.2

/-- The search for a node that is reached ends there, whatever comes behind it. -/
theorem walkPrev_eq_of_seg [DecidableEq α] {x : α} {n : Nat} {h prev : Option α}
    {us : List α} (hs : Seg next h us (some x)) (hx : x ∉ us) (hn : us.length < n) :
    walkPrev next x n prev h = some (some (us.getLast?.or prev)) := by
  induction us generalizing n h prev with
  | nil =>
    rw [seg_nil_iff] at hs
    subst hs
    cases n with
    | zero => simp at hn
    | succ n => simp [walkPrev]
  | cons a t ih =>
    obtain ⟨rfl, ht⟩ := seg_cons_iff.mp hs
    cases n with
    | zero => simp at hn
    | succ n =>
      rw [List.mem_cons, not_or] at hx
      rw [walkPrev, if_neg (Ne.symm hx.1), ih ht hx.2 (by simpa using hn)]
      cases t with
      | nil => simp
      | cons b u => rw [List.getLast?_cons_cons, List.getLast?_cons]; rfl

theorem walkPrev_eq_some [DecidableEq α] {x : α} {n : Nat} {h prev : Option α}
    {us vs : List α} (hc : Chain next h (us ++ x :: vs)) (hn : (us ++ x :: vs).length ≤ n) :
    walkPrev next x n prev h = some (some (us.getLast?.or prev)) := by
  have hnd := hc.nodup
  rw [List.nodup_middle, List.nodup_cons, List.mem_append, not_or] at hnd
  obtain ⟨m, hs, hm⟩ := chain_append_iff.mp hc
  obtain ⟨rfl, _⟩ := chain_cons_iff.mp hm
  refine walkPrev_eq_of_seg hs hnd.1.1 ?_
  simp only [List.length_append, List.length_cons] at hn
  omega

/-- What a successful `walkPrev` knows on any list, cyclic or not. -/
theorem walkPrev_some [DecidableEq α] {x : α} {n : Nat} {h prev r : Option α}
    (hw : walkPrev next x n prev h = some (some r)) :
    Linked next h x ∧
      ((r = prev ∧ h = some x) ∨ ∃ y, r = some y ∧ Linked next h y ∧ next y = some x) := by
  induction n generalizing h prev with
  | zero => cases h <;> simp [walkPrev] at hw
  | succ n ih =>
    cases h with
    | none => simp [walkPrev] at hw
    | some a =>
      rw [walkPrev] at hw
      by_cases hax : a = x
      · subst hax
        simp only [if_true, Option.some.injEq] at hw
        exact ⟨.here a, .inl ⟨hw.symm, rfl⟩⟩
      · rw [if_neg hax] at hw
        obtain ⟨hl, hr⟩ := ih hw
        refine ⟨.there a x hl, .inr ?_⟩
        rcases hr with ⟨rfl, hnx⟩ | ⟨y, rfl, hy, hyx⟩
        · exact ⟨a, rfl, .here a, hnx⟩
        · exact ⟨y, rfl, .there a y hy, hyx⟩

theorem walkList_eq {n : Nat} {h : Option α} {xs : List α} (hc : Chain next h xs)
    (hn : xs.length ≤ n) : walkList next n h = some xs := by
  induction xs generalizing n h with
  | nil => rw [chain_nil_iff] at hc; subst hc; simp [walkList]
  | cons a t ih =>
    obtain ⟨rfl, ht⟩ := chain_cons_iff.mp hc
    cases n with
    | zero => simp at hn
    | succ n =>
      rw [walkList, ih ht (by simpa using hn)]
      rfl

/-- A loop over the whole list ends only on a chain, having visited all of it. -/
theorem walkList_some {n : Nat} {h : Option α} {xs : List α}
    (hw : walkList next n h = some xs) : Chain next h xs := by
  induction n generalizing h xs with
  | zero => cases h <;> simp [walkList] at hw; simp [← hw]
  | succ n ih =>
    cases h with
    | none => simp [walkList] at hw; simp [← hw]
    | some a =>
      rw [walkList, Option.map_eq_some_iff] at hw
      obtain ⟨t, ht, rfl⟩ := hw
      exact chain_cons_iff.mpr ⟨rfl, ih ht⟩

end Xv6.Lib
