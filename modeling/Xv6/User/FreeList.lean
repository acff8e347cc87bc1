import Xv6.Lib.Bytes
import Xv6.Lib.Chain
import Xv6.Lib.Transition

namespace Xv6.User

open Xv6.Lib

/-!
# User memory — the free list and `free` (`umalloc.c`)

The free blocks are in a circular list in the order of their addresses, which begins at `base`, a block
without a unit in the data of the program.  A block begins with a header, and its size is a number of
units of `sizeof(Header)`.  The memory for the blocks begins at `lo`, where the program ends.

* `FreeList` — the circular list: in order, and no two blocks touch each other;
* `place_spec` — where a block belongs;
* `insert_spec`, `free_spec` — `free` puts a block into the list and joins it with its neighbours.
-/

/-- An access outside the memory of the process, a loop that does not end, or a call that a program must
    not make. -/
inductive Stop
  | fault
  | diverges
  | misuse

/-- `sizeof(Header)`. -/
def HEADER : Nat := 8

/-- `KERNBASE`, the end of user memory. -/
def KERNBASE : Nat := 0x80000000

/-- The memory of the process, `freep`, and the end of the memory.  What is in memory that the process
    does not have yet is left open. -/
structure Heap where
  mem : Bytes KERNBASE
  freep : Option Nat
  brk : Nat

/-- `p->s.ptr`. -/
def Heap.ptr (h : Heap) (p : Nat) : Nat := h.mem.le p 4

/-- `p->s.size`. -/
def Heap.size (h : Heap) (p : Nat) : Nat := h.mem.le (p + 4) 4

/-- `p + p->s.size`. -/
def Heap.stop (h : Heap) (p : Nat) : Nat := p + HEADER * h.size p

def Heap.setPtr (h : Heap) (p q : Nat) : Heap := { h with mem := h.mem.setLe p 4 q }

def Heap.setSize (h : Heap) (p n : Nat) : Heap := { h with mem := h.mem.setLe (p + 4) 4 n }

/-- The header `p` is accessed. -/
def Heap.check (h : Heap) (p : Nat) : Except Stop Unit :=
  if p + HEADER ≤ h.brk then .ok () else .error .fault

/-! ### `free` -/

/-- The loop of `free`: where the block `bp` belongs. -/
def place (h : Heap) (bp : Nat) : Nat → Nat → Except Stop Nat
  | 0, _ => .error .diverges
  | n + 1, p => do
    h.check p
    if p < bp ∧ bp < h.ptr p then .ok p
    else if h.ptr p ≤ p ∧ (p < bp ∨ bp < h.ptr p) then .ok p
    else place h bp n (h.ptr p)

/-- The block `bp` is joined with the one above it, or linked to it. -/
def joinUpper (h : Heap) (bp p : Nat) : Except Stop Heap := do
  h.check bp
  if h.stop bp = h.ptr p then do
    h.check (h.ptr p)
    let h := h.setSize bp (h.size bp + h.size (h.ptr p))
    .ok (h.setPtr bp (h.ptr (h.ptr p)))
  else .ok (h.setPtr bp (h.ptr p))

/-- The block `bp` is joined with the one below it, or that one is linked to it. -/
def joinLower (h : Heap) (bp p : Nat) : Heap :=
  if h.stop p = bp then
    let h := h.setSize p (h.size p + h.size bp)
    h.setPtr p (h.ptr bp)
  else h.setPtr p bp

/-- `free(ap)`. -/
def free (h : Heap) (ap : Nat) : Except Stop Heap :=
  match h.freep with
  | none => .error .fault
  | some freep => do
    let bp := ap - HEADER
    let p ← place h bp (2 * (h.brk + 2)) freep
    let h ← joinUpper h bp p
    .ok { joinLower h bp p with freep := some p }

/-! ### Headers -/

variable {base lo bp n p q x y : Nat} {h h' h'' : Heap} {fs fs' xs ys us vs vs' ws as bs : List Nat}

theorem check_ok (hp : p + HEADER ≤ h.brk) : h.check p = .ok () := if_pos hp

theorem stop_zero (hp : h.size p = 0) : h.stop p = p := by
  rw [Heap.stop, hp, Nat.mul_zero, Nat.add_zero]

theorem le_stop : p ≤ h.stop p := Nat.le_add_right ..

theorem header_le_stop (hp : 0 < h.size p) : p + HEADER ≤ h.stop p :=
  Nat.add_le_add_left (Nat.le_mul_of_pos_right HEADER hp) p

theorem ptr_lt : h.ptr p < 2 ^ 32 := Bytes.le_lt h.mem p 4

theorem size_lt : h.size p < 2 ^ 32 := Bytes.le_lt h.mem (p + 4) 4

theorem ptr_setPtr (hp : p + HEADER ≤ KERNBASE) (hq : q < 2 ^ 32) : (h.setPtr p q).ptr p = q := by
  unfold HEADER at hp
  show (h.mem.setLe p 4 q).le p 4 = q
  rw [Bytes.le_setLe_self (by omega)]
  exact Nat.mod_eq_of_lt hq

theorem size_setSize (hp : p + HEADER ≤ KERNBASE) (hn : n < 2 ^ 32) : (h.setSize p n).size p = n := by
  unfold HEADER at hp
  show (h.mem.setLe (p + 4) 4 n).le (p + 4) 4 = n
  rw [Bytes.le_setLe_self (by omega)]
  exact Nat.mod_eq_of_lt hn

theorem size_setPtr : (h.setPtr p q).size p = h.size p := Bytes.le_setLe_of_disjoint (.inr le_rfl)

theorem ptr_setSize : (h.setSize p n).ptr p = h.ptr p := Bytes.le_setLe_of_disjoint (.inl le_rfl)

theorem stop_setPtr : (h.setPtr p q).stop p = h.stop p := by
  rw [Heap.stop, size_setPtr, Heap.stop]

/-- Outside the headers of some blocks the memory is as before. -/
def Keeps (h h' : Heap) (as : List Nat) : Prop :=
  ∀ x, (∀ a ∈ as, x < a ∨ a + HEADER ≤ x) → h'.mem.get x = h.mem.get x

/-- Two headers do not overlap. -/
def Clear (p q : Nat) : Prop := p + HEADER ≤ q ∨ q + HEADER ≤ p

theorem keeps_setPtr : Keeps h (h.setPtr p q) [p] := fun x hx => by
  have hxp := hx p List.mem_cons_self
  unfold HEADER at hxp
  exact Bytes.get_setLe_of_lt (by omega)

theorem keeps_setSize : Keeps h (h.setSize p n) [p] := fun x hx => by
  have hxp := hx p List.mem_cons_self
  unfold HEADER at hxp
  exact Bytes.get_setLe_of_lt (by omega)

theorem Keeps.trans (h₁ : Keeps h h' as) (h₂ : Keeps h' h'' bs) : Keeps h h'' (as ++ bs) := fun x hx => by
  rw [List.forall_mem_append] at hx
  rw [h₂ x hx.2, h₁ x hx.1]

theorem Keeps.mono (hk : Keeps h h' as) (hsub : ∀ a ∈ as, a ∈ bs) : Keeps h h' bs := fun x hx =>
  hk x fun a ha => hx a (hsub a ha)

theorem Keeps.header (hk : Keeps h h' as) (hp : ∀ a ∈ as, Clear p a) :
    h'.ptr p = h.ptr p ∧ h'.size p = h.size p := by
  have hbyte : ∀ i, p ≤ i → i < p + HEADER → h'.mem.get i = h.mem.get i := fun i h1 h2 => by
    refine hk i fun a ha => ?_
    have hpa := hp a ha
    unfold Clear at hpa
    omega
  unfold HEADER at hbyte
  exact ⟨Bytes.le_congr fun i h1 h2 => hbyte i h1 (by omega),
    Bytes.le_congr fun i h1 h2 => hbyte i (by omega) h2⟩

theorem Keeps.headers (hk : Keeps h h' [p]) (hp : ∀ a ∈ fs, Clear a p) :
    ∀ a ∈ fs, h'.ptr a = h.ptr a ∧ h'.size a = h.size a := fun a ha =>
  hk.header (List.forall_mem_singleton.mpr (hp a ha))

/-! ### The free list -/

/-- The free blocks from `base` on: they are in order, none touches the next one, and only `base` has no
    unit. -/
structure FreeList (base lo : Nat) (h : Heap) (fs : List Nat) : Prop where
  ring : Seg (fun a => some (h.ptr a)) (some base) fs (some base)
  nonempty : fs ≠ []
  sorted : fs.Pairwise fun a b => a + HEADER ≤ b ∧ h.stop a < b
  zero : h.size base = 0
  pos : ∀ a ∈ fs, a ≠ base → 0 < h.size a ∧ lo ≤ a
  inside : ∀ a ∈ fs, a + HEADER ≤ h.brk ∧ h.stop a ≤ h.brk
  low : base + HEADER ≤ lo
  limit : h.brk < KERNBASE

/-- The bytes from `x` to `y` are in no free block. -/
def Outside (h : Heap) (fs : List Nat) (x y : Nat) : Prop := ∀ a ∈ fs, h.stop a ≤ x ∨ y ≤ a

theorem FreeList.head (hl : FreeList base lo h fs) : ∃ rest, fs = base :: rest := by
  cases fs with
  | nil => exact absurd rfl hl.nonempty
  | cons a rest =>
    obtain ⟨heq, -⟩ := seg_cons_iff.mp hl.ring
    exact ⟨rest, by rw [Option.some.inj heq]⟩

theorem FreeList.lt (hl : FreeList base lo h fs) (hfs : fs = us ++ p :: vs) (hq : q ∈ vs) :
    p + HEADER ≤ q ∧ h.stop p < q := by
  have hsorted := hl.sorted
  rw [hfs] at hsorted
  exact (List.pairwise_cons.mp (List.pairwise_append.mp hsorted).2.1).1 q hq

theorem FreeList.gt (hl : FreeList base lo h fs) (hfs : fs = us ++ p :: vs) (hq : q ∈ us) :
    q + HEADER ≤ p ∧ h.stop q < p := by
  have hsorted := hl.sorted
  rw [hfs] at hsorted
  exact (List.pairwise_append.mp hsorted).2.2 q hq p List.mem_cons_self

theorem FreeList.base_le (hl : FreeList base lo h fs) (hp : p ∈ fs) : base ≤ p := by
  rcases eq_or_ne p base with rfl | hne
  · exact le_rfl
  · have hpos := (hl.pos p hp hne).2
    have hlow := hl.low
    omega

/-- The pointer of an element leads to the next one, and that of the last one to `base`. -/
theorem FreeList.seg (hl : FreeList base lo h fs) (hfs : fs = us ++ p :: vs) :
    Seg (fun a => some (h.ptr a)) (some (h.ptr p)) vs (some base) := by
  have hring := hl.ring
  rw [hfs] at hring
  obtain ⟨m, -, hm⟩ := seg_append_iff.mp hring
  exact (seg_cons_iff.mp hm).2

theorem FreeList.ptr_last (hl : FreeList base lo h fs) (hfs : fs = us ++ [p]) : h.ptr p = base :=
  Option.some.inj (seg_nil_iff.mp (hl.seg hfs))

theorem FreeList.ptr_next (hl : FreeList base lo h fs) (hfs : fs = us ++ p :: q :: vs) : h.ptr p = q :=
  Option.some.inj (seg_cons_iff.mp (hl.seg hfs)).1

/-! ### The place of a block -/

theorem FreeList.place_succ (hl : FreeList base lo h fs) (hp : p ∈ fs) : place h bp (n + 1) p =
    if p < bp ∧ bp < h.ptr p then .ok p
    else if h.ptr p ≤ p ∧ (p < bp ∨ bp < h.ptr p) then .ok p
    else place h bp n (h.ptr p) := by
  rw [place, check_ok (hl.inside p hp).1, ok_bind]

/-- From an element below `bp`, the loop stops at the last such element. -/
theorem place_up (hl : FreeList base lo h fs) (hfs : fs = us ++ p :: vs) (hne : ∀ a ∈ fs, a ≠ bp)
    (hbase : base < bp) (hp : p < bp) (hn : vs.length < n) :
    ∃ us' p' vs', fs = us' ++ p' :: vs' ∧ p' < bp ∧ (∀ q ∈ vs', bp < q) ∧ place h bp n p = .ok p' := by
  have hmem : p ∈ fs := hfs ▸ List.mem_append_right us List.mem_cons_self
  induction vs generalizing us p n with
  | nil =>
    obtain ⟨n, rfl⟩ := Nat.exists_eq_succ_of_ne_zero (by omega : n ≠ 0)
    have hle := hl.base_le hmem
    refine ⟨us, p, [], hfs, hp, nofun, ?_⟩
    rw [hl.place_succ hmem, hl.ptr_last hfs, if_neg (by omega), if_pos ⟨hle, .inl hp⟩]
  | cons q vs ih =>
    obtain ⟨n, rfl⟩ := Nat.exists_eq_succ_of_ne_zero (by omega : n ≠ 0)
    have hfs' : fs = (us ++ [p]) ++ q :: vs := hfs.trans (List.append_cons ..)
    have hq : q ∈ fs := hfs' ▸ List.mem_append_right _ List.mem_cons_self
    have hpq := le_stop.trans_lt (hl.lt hfs List.mem_cons_self).2
    rw [hl.place_succ hmem, hl.ptr_next hfs]
    rcases Nat.lt_or_gt_of_ne (hne q hq) with hlt | hgt
    · rw [if_neg (by omega), if_neg (by omega)]
      refine ih hfs' hlt ?_ hq
      rw [List.length_cons] at hn
      omega
    · rw [if_pos ⟨hp, hgt⟩]
      refine ⟨us, p, q :: vs, hfs, hp, fun r hr => ?_, rfl⟩
      rcases List.mem_cons.mp hr with rfl | hr
      · exact hgt
      · exact hgt.trans (le_stop.trans_lt (hl.lt hfs' hr).2)

/-- From an element above `bp`, the loop goes on to `base`. -/
theorem place_down (hl : FreeList base lo h fs) (hfs : fs = us ++ p :: vs) (hne : ∀ a ∈ fs, a ≠ bp)
    (hbase : base < bp) (hp : bp < p) (hn : vs.length + fs.length < n) :
    ∃ us' p' vs', fs = us' ++ p' :: vs' ∧ p' < bp ∧ (∀ q ∈ vs', bp < q) ∧ place h bp n p = .ok p' := by
  have hmem : p ∈ fs := hfs ▸ List.mem_append_right us List.mem_cons_self
  induction vs generalizing us p n with
  | nil =>
    obtain ⟨n, rfl⟩ := Nat.exists_eq_succ_of_ne_zero (by omega : n ≠ 0)
    obtain ⟨rest, hrest⟩ := hl.head
    rw [hl.place_succ hmem, hl.ptr_last hfs, if_neg (by omega), if_neg (by omega)]
    refine place_up hl (hrest.trans (List.nil_append _).symm) hne hbase hbase ?_
    rw [hrest, List.length_cons, List.length_nil] at hn
    omega
  | cons q vs ih =>
    obtain ⟨n, rfl⟩ := Nat.exists_eq_succ_of_ne_zero (by omega : n ≠ 0)
    have hfs' : fs = (us ++ [p]) ++ q :: vs := hfs.trans (List.append_cons ..)
    have hpq := le_stop.trans_lt (hl.lt hfs List.mem_cons_self).2
    rw [hl.place_succ hmem, hl.ptr_next hfs, if_neg (by omega), if_neg (by omega)]
    refine ih hfs' (by omega) ?_ (hfs' ▸ List.mem_append_right _ List.mem_cons_self)
    rw [List.length_cons] at hn
    omega

/-- The loop of `free` finds the last block below `bp`, from wherever it starts. -/
theorem place_spec (hl : FreeList base lo h fs) (hp : p ∈ fs) (hne : ∀ a ∈ fs, a ≠ bp) (hbase : base < bp)
    (hn : 2 * fs.length < n) :
    ∃ us' p' vs', fs = us' ++ p' :: vs' ∧ p' < bp ∧ (∀ q ∈ vs', bp < q) ∧ place h bp n p = .ok p' := by
  obtain ⟨us, vs, hfs⟩ := List.append_of_mem hp
  have hlen : vs.length < fs.length := by
    rw [hfs, List.length_append, List.length_cons]
    omega
  rcases Nat.lt_or_gt_of_ne (hne p hp) with hlt | hgt
  · exact place_up hl hfs hne hbase hlt (by omega)
  · exact place_down hl hfs hne hbase hgt (by omega)

/-! ### Joining blocks -/

/-- The sizes of some blocks. -/
def total (h : Heap) (fs : List Nat) : Nat := (fs.map h.size).sum

theorem total_append : total h (xs ++ ys) = total h xs + total h ys := by
  rw [total, List.map_append, List.sum_append]
  rfl

theorem total_cons : total h (p :: ys) = h.size p + total h ys := by
  rw [total, List.map_cons, List.sum_cons]
  rfl

/-- The headers of some blocks are as before. -/
def Same (h h' : Heap) (fs : List Nat) : Prop := ∀ a ∈ fs, h'.ptr a = h.ptr a ∧ h'.size a = h.size a

theorem Same.stop (hs : Same h h' fs) (hp : p ∈ fs) : h'.stop p = h.stop p := by
  rw [Heap.stop, (hs p hp).2, Heap.stop]

theorem Same.ring {e e' : Option Nat} (hs : Same h h' fs)
    (hseg : Seg (fun a => some (h.ptr a)) e fs e') : Seg (fun a => some (h'.ptr a)) e fs e' :=
  hseg.congr fun a ha => by rw [(hs a ha).1]

theorem Same.total (hs : Same h h' fs) : total h' fs = total h fs := by
  rw [User.total, User.total, List.map_congr_left fun a ha => (hs a ha).2]

theorem Same.outside (hs : Same h h' fs) : Outside h' fs x y ↔ Outside h fs x y :=
  forall₂_congr fun _ ha => by rw [hs.stop ha]

theorem Same.sorted (hs : Same h h' fs) (hsorted : fs.Pairwise fun a b => a + HEADER ≤ b ∧ h.stop a < b) :
    fs.Pairwise fun a b => a + HEADER ≤ b ∧ h'.stop a < b :=
  hsorted.imp_of_mem fun {a b} ha _ hab => by rwa [hs.stop ha]

theorem outside_cons : Outside h (p :: fs) x y ↔ (h.stop p ≤ x ∨ y ≤ p) ∧ Outside h fs x y :=
  List.forall_mem_cons

theorem outside_append : Outside h (xs ++ ys) x y ↔ Outside h xs x y ∧ Outside h ys x y :=
  List.forall_mem_append

/-- A block that is in memory and in no free block. -/
structure Block (lo : Nat) (h : Heap) (fs : List Nat) (bp : Nat) : Prop where
  le : lo ≤ bp
  pos : 0 < h.size bp
  inside : h.stop bp ≤ h.brk
  outside : Outside h fs bp (h.stop bp)

theorem Block.clear (hb : Block lo h fs bp) (hl : FreeList base lo h fs) (hp : p ∈ fs) : Clear p bp := by
  have hle := hb.le
  have hlow := hl.low
  have hstop := header_le_stop hb.pos
  unfold Clear
  rcases eq_or_ne p base with rfl | hne
  · omega
  · have hpos := header_le_stop (hl.pos p hp hne).1
    have hout := hb.outside p hp
    omega

theorem Block.ne (hb : Block lo h fs bp) (hl : FreeList base lo h fs) (hp : p ∈ fs) : p ≠ bp := by
  rintro rfl
  have hclear := hb.clear hl hp
  unfold Clear HEADER at hclear
  omega

/-- The list above the block `bp`, with which it is joined if it touches its first block. -/
structure Upper (base : Nat) (h h' : Heap) (bp : Nat) (vs vs' : List Nat) : Prop where
  keeps : Keeps h h' [bp]
  brk : h'.brk = h.brk
  ring : Seg (fun a => some (h'.ptr a)) (some (h'.ptr bp)) vs' (some base)
  sorted : (bp :: vs').Pairwise fun a b => a + HEADER ≤ b ∧ h'.stop a < b
  subset : ∀ a ∈ vs', a ∈ vs
  length : vs'.length ≤ vs.length
  total : total h' (bp :: vs') = total h (bp :: vs)
  size : h.size bp ≤ h'.size bp
  inside : h'.stop bp ≤ h.brk
  outside : ∀ x y, x < y → Outside h (bp :: vs) x y → Outside h' (bp :: vs') x y

/-- Without a block that it touches, `bp` is linked to the rest of the list. -/
theorem upper_link (hl : FreeList base lo h fs) (hb : Block lo h fs bp) (hfs : fs = us ++ p :: vs)
    (hvs : ∀ q ∈ vs, h.stop bp < q) : Upper base h (h.setPtr bp (h.ptr p)) bp vs vs := by
  have hsub : ∀ a ∈ vs, a ∈ fs := fun a ha => hfs ▸ List.mem_append_right us (List.mem_cons_of_mem p ha)
  have hbp : bp + HEADER ≤ KERNBASE :=
    ((header_le_stop hb.pos).trans hb.inside).trans hl.limit.le
  have hsame : Same h (h.setPtr bp (h.ptr p)) vs :=
    keeps_setPtr.headers fun a ha => hb.clear hl (hsub a ha)
  refine ⟨keeps_setPtr, rfl, ?_, ?_, fun _ ha => ha, le_rfl, ?_, size_setPtr.ge, stop_setPtr.le.trans hb.inside, ?_⟩
  · rw [ptr_setPtr hbp ptr_lt]
    exact hsame.ring (hl.seg hfs)
  · have hsorted := hl.sorted
    rw [hfs] at hsorted
    refine List.pairwise_cons.mpr ⟨fun q hq => ?_,
      hsame.sorted (List.pairwise_cons.mp (List.pairwise_append.mp hsorted).2.1).2⟩
    rw [stop_setPtr]
    exact ⟨(header_le_stop hb.pos).trans (hvs q hq).le, hvs q hq⟩
  · rw [total_cons, total_cons, size_setPtr, hsame.total]
  · intro x y _ hout
    rw [outside_cons] at hout ⊢
    rw [stop_setPtr]
    exact ⟨hout.1, hsame.outside.mpr hout.2⟩

/-- `bp` is joined with the block `q` above it. -/
theorem upper_join (hl : FreeList base lo h fs) (hb : Block lo h fs bp) (hfs : fs = us ++ p :: q :: vs)
    (hq : h.stop bp = q) (hh : h' = h.setSize bp (h.size bp + h.size q)) :
    Upper base h (h'.setPtr bp (h'.ptr q)) bp (q :: vs) vs := by
  have hfs' : fs = (us ++ [p]) ++ q :: vs := hfs.trans (List.append_cons ..)
  have hmem : ∀ a ∈ q :: vs, a ∈ fs := fun a ha => hfs' ▸ List.mem_append_right _ ha
  have hqmem : q ∈ fs := hmem q List.mem_cons_self
  have hbp : bp + HEADER ≤ KERNBASE :=
    ((header_le_stop hb.pos).trans hb.inside).trans hl.limit.le
  have hend : bp + HEADER * (h.size bp + h.size q) = h.stop q := by
    rw [Nat.mul_add, ← Nat.add_assoc, ← Heap.stop, hq, ← Heap.stop]
  have hsize : h'.size bp = h.size bp + h.size q := by
    rw [hh]
    refine size_setSize hbp ?_
    have hin := (hl.inside q hqmem).2
    have hlim := hl.limit
    unfold HEADER at hend
    unfold KERNBASE at hlim
    omega
  have hkeeps : Keeps h (h'.setPtr bp (h'.ptr q)) [bp] :=
    (Keeps.trans (hh ▸ keeps_setSize : Keeps h h' [bp]) keeps_setPtr).mono (by simp)
  have hsame : Same h (h'.setPtr bp (h'.ptr q)) vs :=
    hkeeps.headers fun a ha => hb.clear hl (hmem a (List.mem_cons_of_mem q ha))
  have hptr : (h'.setPtr bp (h'.ptr q)).ptr bp = h.ptr q := by
    rw [ptr_setPtr hbp ptr_lt, hh]
    exact (keeps_setSize.headers (fun a ha => hb.clear hl ha) q hqmem).1
  have hstop : (h'.setPtr bp (h'.ptr q)).stop bp = h.stop q := by
    rw [Heap.stop, size_setPtr, hsize, hend]
  have hsorted := hl.sorted
  rw [hfs'] at hsorted
  have hrest := List.pairwise_cons.mp (List.pairwise_append.mp hsorted).2.1
  refine ⟨hkeeps, by rw [hh]; rfl, ?_, ?_, fun _ ha => List.mem_cons_of_mem q ha, Nat.le_succ _, ?_, ?_, ?_, ?_⟩
  · rw [hptr]
    exact hsame.ring (hl.seg hfs')
  · refine List.pairwise_cons.mpr ⟨fun r hr => ?_, hsame.sorted hrest.2⟩
    rw [hstop]
    refine ⟨?_, (hrest.1 r hr).2⟩
    exact ((header_le_stop hb.pos).trans (hq.le.trans le_stop)).trans (hrest.1 r hr).2.le
  · rw [total_cons, total_cons, total_cons, size_setPtr, hsize, hsame.total, Nat.add_assoc]
  · rw [size_setPtr, hsize]
    exact Nat.le_add_right ..
  · rw [hstop]
    exact (hl.inside q hqmem).2
  · intro x y hxy hout
    rw [outside_cons, outside_cons, hq] at hout
    rw [outside_cons, hstop]
    refine ⟨?_, hsame.outside.mpr hout.2.2⟩
    have hqq := hout.2.1
    omega

/-- What `free` does with the upper neighbour of the block. -/
theorem joinUpper_spec (hl : FreeList base lo h fs) (hb : Block lo h fs bp) (hfs : fs = us ++ p :: vs)
    (hvs : ∀ q ∈ vs, bp < q) : ∃ h' vs', joinUpper h bp p = .ok h' ∧ Upper base h h' bp vs vs' := by
  have habove : ∀ q ∈ vs, h.stop bp ≤ q := fun q hq => by
    have hmem : q ∈ fs := hfs ▸ List.mem_append_right us (List.mem_cons_of_mem p hq)
    have hbq := hvs q hq
    have hout := hb.outside q hmem
    have hstop : q ≤ h.stop q := le_stop
    omega
  rw [joinUpper, check_ok ((header_le_stop hb.pos).trans hb.inside), ok_bind]
  split
  · rename_i heq
    cases vs with
    | nil =>
      rw [hl.ptr_last hfs] at heq
      have hstop : bp ≤ h.stop bp := le_stop
      have hle := hb.le
      have hlow := hl.low
      unfold HEADER at hlow
      omega
    | cons q vs =>
      have hmem : q ∈ fs := hfs ▸ List.mem_append_right us (by simp)
      have hp : p ∈ fs := hfs ▸ List.mem_append_right us List.mem_cons_self
      have hptr : (h.setSize bp (h.size bp + h.size q)).ptr p = q :=
        (keeps_setSize.headers (fun a ha => hb.clear hl ha) p hp).1.trans (hl.ptr_next hfs)
      rw [hl.ptr_next hfs] at heq ⊢
      rw [check_ok (hl.inside q hmem).1, ok_bind]
      refine ⟨_, vs, ?_, upper_join hl hb hfs heq rfl⟩
      show Except.ok (Heap.setPtr _ bp (Heap.ptr _ (Heap.ptr _ p))) = _
      rw [hptr]
  · rename_i hne
    refine ⟨_, vs, rfl, upper_link hl hb hfs fun q hq => Nat.lt_of_le_of_ne (habove q hq) fun heq => ?_⟩
    cases vs with
    | nil => cases hq
    | cons r vs =>
      rw [hl.ptr_next hfs] at hne
      rcases List.mem_cons.mp hq with rfl | hq
      · exact hne heq
      · have hr := habove r List.mem_cons_self
        have hrq := le_stop.trans_lt (hl.lt (hfs.trans (List.append_cons ..)) hq).2
        omega

/-- The list from `p` on is replaced. -/
theorem FreeList.replace (hl : FreeList base lo h fs) (hfs : fs = us ++ p :: vs) (hus : Same h h' us)
    (hbrk : h'.brk = h.brk) (hzero : p = base → h'.size base = 0)
    (hring : Seg (fun a => some (h'.ptr a)) (some (h'.ptr p)) ws (some base))
    (hsorted : (p :: ws).Pairwise fun a b => a + HEADER ≤ b ∧ h'.stop a < b)
    (hpos : ∀ a ∈ p :: ws, a ≠ base → 0 < h'.size a ∧ lo ≤ a)
    (hin : ∀ a ∈ p :: ws, a + HEADER ≤ h.brk ∧ h'.stop a ≤ h.brk) :
    FreeList base lo h' (us ++ p :: ws) := by
  have hsub : ∀ a ∈ us, a ∈ fs := fun a ha => hfs ▸ List.mem_append_left _ ha
  obtain ⟨hring₀, hnil, hsorted₀, hzero₀, -, -, hlow, hlim⟩ := id hl
  rw [hfs] at hring₀ hsorted₀
  refine ⟨?_, by simp, ?_, ?_, fun a ha hne => ?_, fun a ha => ?_, hlow, hbrk ▸ hlim⟩
  · obtain ⟨m, hm, hp⟩ := seg_append_iff.mp hring₀
    obtain ⟨rfl, -⟩ := seg_cons_iff.mp hp
    exact seg_append_iff.mpr ⟨some p, hus.ring hm, seg_cons_iff.mpr ⟨rfl, hring⟩⟩
  · obtain ⟨husort, -, hcross⟩ := List.pairwise_append.mp hsorted₀
    refine List.pairwise_append.mpr ⟨hus.sorted husort, hsorted, fun a ha b hb => ?_⟩
    have hap := hcross a ha p List.mem_cons_self
    have hpb : p ≤ b := by
      rcases List.mem_cons.mp hb with rfl | hb
      · exact le_rfl
      · exact (Nat.le_add_right ..).trans ((List.pairwise_cons.mp hsorted).1 b hb).1
    rw [hus.stop ha]
    omega
  · by_cases hp : p = base
    · exact hzero hp
    · obtain ⟨rest, hrest⟩ := hl.head
      cases us with
      | nil => exact absurd (List.cons.inj (hfs.symm.trans hrest)).1 hp
      | cons a us =>
        obtain rfl := (List.cons.inj (hfs.symm.trans hrest)).1
        rw [(hus a List.mem_cons_self).2, hzero₀]
  · rcases List.mem_append.mp ha with ha | ha
    · rw [(hus a ha).2]
      exact hl.pos a (hsub a ha) hne
    · exact hpos a ha hne
  · rw [hbrk]
    rcases List.mem_append.mp ha with ha | ha
    · rw [hus.stop ha]
      exact hl.inside a (hsub a ha)
    · exact hin a ha

/-- The block `bp` is in the list. -/
structure Inserted (base lo : Nat) (h h' : Heap) (bp : Nat) (fs fs' : List Nat) : Prop where
  list : FreeList base lo h' fs'
  keeps : Keeps h h' (bp :: fs)
  brk : h'.brk = h.brk
  total : total h' fs' = total h fs + h.size bp
  large : ∃ a ∈ fs', h.size bp ≤ h'.size a
  length : fs'.length ≤ fs.length + 1
  outside : ∀ x y, x < y → Outside h fs x y → h.stop bp ≤ x ∨ y ≤ bp → Outside h' fs' x y

theorem FreeList.clear_lt (hl : FreeList base lo h fs) (hfs : fs = us ++ p :: vs) (hq : q ∈ vs) : Clear q p :=
  .inr (hl.lt hfs hq).1

theorem FreeList.clear_gt (hl : FreeList base lo h fs) (hfs : fs = us ++ p :: vs) (hq : q ∈ us) : Clear q p :=
  .inl (hl.gt hfs hq).1

/-- The headers above `bp` are those of the list, and they are as before. -/
theorem Upper.same (hu : Upper base h h' bp vs vs') (hl : FreeList base lo h fs) (hb : Block lo h fs bp) :
    Same h h' fs := hu.keeps.headers fun _ ha => hb.clear hl ha

/-- `bp` is linked behind `p`. -/
theorem lower_link (hl : FreeList base lo h fs) (hb : Block lo h fs bp) (hfs : fs = us ++ p :: vs) (hp : p < bp)
    (hu : Upper base h h' bp vs vs') (hgap : h.stop p ≠ bp) :
    Inserted base lo h (h'.setPtr p bp) bp fs (us ++ p :: bp :: vs') := by
  have hmem : p ∈ fs := hfs ▸ List.mem_append_right us List.mem_cons_self
  have hleft : ∀ a ∈ us, a ∈ fs := fun a ha => hfs ▸ List.mem_append_left _ ha
  have hright : ∀ a ∈ vs', a ∈ fs := fun a ha =>
    hfs ▸ List.mem_append_right us (List.mem_cons_of_mem p (hu.subset a ha))
  have hple := hl.inside p hmem
  have hlim := hl.limit
  have hstop : (h'.setPtr p bp).stop p = h.stop p := stop_setPtr.trans ((hu.same hl hb).stop hmem)
  have hkeeps : Keeps h (h'.setPtr p bp) [bp, p] := hu.keeps.trans keeps_setPtr
  have hus : Same h (h'.setPtr p bp) us := fun a ha => hkeeps.header (by
    rw [List.forall_mem_cons, List.forall_mem_singleton]
    exact ⟨hb.clear hl (hleft a ha), hl.clear_gt hfs ha⟩)
  have hws : Same h' (h'.setPtr p bp) (bp :: vs') := keeps_setPtr.headers fun a ha => by
    rcases List.mem_cons.mp ha with rfl | ha
    · exact Or.symm (hb.clear hl hmem)
    · exact hl.clear_lt hfs (hu.subset a ha)
  have hring : Seg (fun a => some ((h'.setPtr p bp).ptr a)) (some ((h'.setPtr p bp).ptr p)) (bp :: vs')
      (some base) := by
    rw [ptr_setPtr (hple.1.trans hlim.le) ?_]
    · exact hws.ring (.cons _ _ _ hu.ring)
    have hble := (le_stop.trans hb.inside).trans_lt hlim
    unfold KERNBASE at hble
    omega
  have hbpos : 0 < h'.size bp := hb.pos.trans_le hu.size
  have hlt : h.stop p < bp := by
    have hout := hb.outside p hmem
    have hstopbp : bp ≤ h.stop bp := le_stop
    omega
  have hin : ∀ a ∈ bp :: vs', a + HEADER ≤ h.brk ∧ (h'.setPtr p bp).stop a ≤ h.brk := fun a ha => by
    rw [hws.stop ha]
    rcases List.mem_cons.mp ha with rfl | ha
    · exact ⟨(header_le_stop hb.pos).trans hb.inside, hu.inside⟩
    · rw [(hu.same hl hb).stop (hright a ha)]
      exact hl.inside a (hright a ha)
  have hpos : ∀ a ∈ p :: bp :: vs', a ≠ base → 0 < (h'.setPtr p bp).size a ∧ lo ≤ a := fun a ha hne => by
    rcases List.mem_cons.mp ha with rfl | ha
    · rw [size_setPtr, ((hu.same hl hb) a hmem).2]
      exact hl.pos a hmem hne
    · rw [(hws a ha).2]
      rcases List.mem_cons.mp ha with rfl | ha
      · exact ⟨hbpos, hb.le⟩
      · rw [((hu.same hl hb) a (hright a ha)).2]
        exact hl.pos a (hright a ha) hne
  have hsorted : ∀ q ∈ bp :: vs', p + HEADER ≤ q ∧ (h'.setPtr p bp).stop p < q := fun q hq => by
    rw [hstop]
    rcases List.mem_cons.mp hq with rfl | hq
    · have hclear := hb.clear hl hmem
      unfold Clear at hclear
      omega
    · exact hl.lt hfs (hu.subset q hq)
  refine ⟨hl.replace hfs hus hu.brk (fun heq => ?_) hring
    (List.pairwise_cons.mpr ⟨hsorted, hws.sorted hu.sorted⟩) hpos
    (List.forall_mem_cons.mpr ⟨hstop ▸ hple, hin⟩), hkeeps.mono ?_, hu.brk, ?_,
    ⟨bp, by simp, ?_⟩, ?_, fun x y hxy hout hbp => ?_⟩
  · rw [← heq, size_setPtr, ((hu.same hl hb) p hmem).2, heq, hl.zero]
  · rw [List.forall_mem_cons, List.forall_mem_singleton]
    exact ⟨List.mem_cons_self, List.mem_cons_of_mem bp hmem⟩
  · have htotal := hu.total
    rw [total_cons, total_cons] at htotal
    rw [hfs, total_append, total_append, total_cons, total_cons, total_cons, hus.total, size_setPtr,
      ((hu.same hl hb) p hmem).2, (hws bp List.mem_cons_self).2,
      (show Same h' (h'.setPtr p bp) vs' from fun a ha => hws a (List.mem_cons_of_mem bp ha)).total]
    omega
  · rw [(hws bp List.mem_cons_self).2]
    exact hu.size
  · have hlen := hu.length
    rw [hfs]
    simp only [List.length_append, List.length_cons]
    omega
  · rw [hfs, outside_append, outside_cons] at hout
    obtain ⟨hout₁, hout₂, hout₃⟩ := hout
    have habove := hu.outside x y hxy (outside_cons.mpr ⟨hbp, hout₃⟩)
    rw [outside_append, outside_cons, hstop]
    exact ⟨hus.outside.mpr hout₁, hout₂, hws.outside.mpr habove⟩

/-- `bp` is joined with the block `p` below it. -/
theorem lower_join (hl : FreeList base lo h fs) (hb : Block lo h fs bp) (hfs : fs = us ++ p :: vs)
    (hu : Upper base h h' bp vs vs') (heq : h.stop p = bp)
    (hh : h'' = h'.setSize p (h'.size p + h'.size bp)) :
    Inserted base lo h (h''.setPtr p (h''.ptr bp)) bp fs (us ++ p :: vs') := by
  have hmem : p ∈ fs := hfs ▸ List.mem_append_right us List.mem_cons_self
  have hleft : ∀ a ∈ us, a ∈ fs := fun a ha => hfs ▸ List.mem_append_left _ ha
  have hright : ∀ a ∈ vs', a ∈ fs := fun a ha =>
    hfs ▸ List.mem_append_right us (List.mem_cons_of_mem p (hu.subset a ha))
  have hple := hl.inside p hmem
  have hlim := hl.limit
  have hbase : p ≠ base := by
    rintro rfl
    rw [stop_zero hl.zero] at heq
    exact hb.ne hl hmem heq
  have hend : p + HEADER * (h'.size p + h'.size bp) = h'.stop bp := by
    rw [((hu.same hl hb) p hmem).2, Nat.mul_add, ← Nat.add_assoc, ← Heap.stop, heq, ← Heap.stop]
  have hsize : h''.size p = h'.size p + h'.size bp := by
    rw [hh]
    refine size_setSize (hple.1.trans hlim.le) ?_
    have hin := hu.inside
    unfold HEADER at hend
    unfold KERNBASE at hlim
    omega
  have hstop : (h''.setPtr p (h''.ptr bp)).stop p = h'.stop bp := by
    rw [Heap.stop, size_setPtr, hsize, hend]
  have hset : Keeps h' (h''.setPtr p (h''.ptr bp)) [p] :=
    (Keeps.trans (hh ▸ keeps_setSize : Keeps h' h'' [p]) keeps_setPtr).mono (by simp)
  have hkeeps : Keeps h (h''.setPtr p (h''.ptr bp)) [bp, p] := hu.keeps.trans hset
  have hptr : (h''.setPtr p (h''.ptr bp)).ptr p = h'.ptr bp := by
    rw [ptr_setPtr (hple.1.trans hlim.le) ptr_lt, hh]
    exact (keeps_setSize.header (List.forall_mem_singleton.mpr (Or.symm (hb.clear hl hmem)))).1
  have hus : Same h (h''.setPtr p (h''.ptr bp)) us := fun a ha => hkeeps.header (by
    rw [List.forall_mem_cons, List.forall_mem_singleton]
    exact ⟨hb.clear hl (hleft a ha), hl.clear_gt hfs ha⟩)
  have hws : Same h' (h''.setPtr p (h''.ptr bp)) vs' :=
    hset.headers fun a ha => hl.clear_lt hfs (hu.subset a ha)
  obtain ⟨hsorted₁, hsorted₂⟩ := List.pairwise_cons.mp hu.sorted
  have hsorted : ∀ q ∈ vs', p + HEADER ≤ q ∧ (h''.setPtr p (h''.ptr bp)).stop p < q := fun q hq => by
    rw [hstop]
    exact ⟨(hl.lt hfs (hu.subset q hq)).1, (hsorted₁ q hq).2⟩
  have hin : ∀ a ∈ vs', a + HEADER ≤ h.brk ∧ (h''.setPtr p (h''.ptr bp)).stop a ≤ h.brk := fun a ha => by
    rw [hws.stop ha, (hu.same hl hb).stop (hright a ha)]
    exact hl.inside a (hright a ha)
  have hpos : ∀ a ∈ p :: vs', a ≠ base → 0 < (h''.setPtr p (h''.ptr bp)).size a ∧ lo ≤ a := fun a ha hne => by
    rcases List.mem_cons.mp ha with rfl | ha
    · rw [size_setPtr, hsize, ((hu.same hl hb) a hmem).2]
      have hp := hl.pos a hmem hne
      omega
    · rw [(hws a ha).2, ((hu.same hl hb) a (hright a ha)).2]
      exact hl.pos a (hright a ha) hne
  have hbrk : (h''.setPtr p (h''.ptr bp)).brk = h.brk := by
    rw [hh]
    exact hu.brk
  refine ⟨hl.replace hfs hus hbrk (fun hp => absurd hp hbase) (hptr ▸ hws.ring hu.ring)
    (List.pairwise_cons.mpr ⟨hsorted, hws.sorted hsorted₂⟩) hpos
    (List.forall_mem_cons.mpr ⟨⟨hple.1, hstop ▸ hu.inside⟩, hin⟩), hkeeps.mono ?_, hbrk, ?_,
    ⟨p, by simp, ?_⟩, ?_, fun x y hxy hout hbp => ?_⟩
  · rw [List.forall_mem_cons, List.forall_mem_singleton]
    exact ⟨List.mem_cons_self, List.mem_cons_of_mem bp hmem⟩
  · have htotal := hu.total
    rw [total_cons, total_cons] at htotal
    rw [hfs, total_append, total_append, total_cons, total_cons, hus.total, size_setPtr, hsize,
      ((hu.same hl hb) p hmem).2, hws.total]
    omega
  · rw [size_setPtr, hsize]
    exact hu.size.trans (Nat.le_add_left ..)
  · have hlen := hu.length
    rw [hfs]
    simp only [List.length_append, List.length_cons]
    omega
  · rw [hfs, outside_append, outside_cons, heq] at hout
    obtain ⟨hout₁, hout₂, hout₃⟩ := hout
    have habove := outside_cons.mp (hu.outside x y hxy (outside_cons.mpr ⟨hbp, hout₃⟩))
    have hbelow := habove.1
    rw [outside_append, outside_cons, hstop]
    exact ⟨hus.outside.mpr hout₁, by omega, hws.outside.mpr habove.2⟩

/-- `bp` is put into the list behind `p`. -/
theorem insert_spec (hl : FreeList base lo h fs) (hb : Block lo h fs bp) (hfs : fs = us ++ p :: vs)
    (hp : p < bp) (hvs : ∀ q ∈ vs, bp < q) :
    ∃ h' fs', joinUpper h bp p = .ok h' ∧ Inserted base lo h (joinLower h' bp p) bp fs fs' ∧ p ∈ fs' := by
  have hmem : p ∈ fs := hfs ▸ List.mem_append_right us List.mem_cons_self
  obtain ⟨h', vs', hx, hu⟩ := joinUpper_spec hl hb hfs hvs
  have hstop := (hu.same hl hb).stop hmem
  refine ⟨h', ?_⟩
  rw [joinLower, hstop]
  split
  · rename_i heq
    exact ⟨us ++ p :: vs', hx, lower_join hl hb hfs hu heq rfl, by simp⟩
  · rename_i hne
    exact ⟨us ++ p :: bp :: vs', hx, lower_link hl hb hfs hp hu hne, by simp⟩

theorem FreeList.setFreep (hl : FreeList base lo h fs) (f : Option Nat) :
    FreeList base lo { h with freep := f } fs :=
  ⟨hl.ring, hl.nonempty, hl.sorted, hl.zero, hl.pos, hl.inside, hl.low, hl.limit⟩

theorem Inserted.setFreep (hi : Inserted base lo h h' bp fs fs') (f : Option Nat) :
    Inserted base lo h { h' with freep := f } bp fs fs' :=
  ⟨hi.list.setFreep f, hi.keeps, hi.brk, hi.total, hi.large, hi.length, hi.outside⟩

/-- Every block takes some space. -/
theorem FreeList.length_le (hl : FreeList base lo h fs) : fs.length ≤ h.brk := by
  have hnodup : fs.Nodup := hl.sorted.imp fun {a b} hab => (le_stop.trans_lt hab.2).ne
  have hsub : fs ⊆ List.range h.brk := fun a ha => by
    have hin := (hl.inside a ha).1
    unfold HEADER at hin
    exact List.mem_range.mpr (by omega)
  have hlen := (List.subperm_of_subset hnodup hsub).length_le
  rwa [List.length_range] at hlen

/-- `free` puts the block into the list. -/
theorem free_spec {f : Nat} (hl : FreeList base lo h fs) (hf : h.freep = some f) (hfm : f ∈ fs)
    (hb : Block lo h fs bp) : ∃ h' fs' p, free h (bp + HEADER) = .ok h' ∧
      Inserted base lo h h' bp fs fs' ∧ p ∈ fs' ∧ h'.freep = some p := by
  have hbase : base < bp := by
    have hlow := hl.low
    have hle := hb.le
    unfold HEADER at hlow
    omega
  have hlen := hl.length_le
  obtain ⟨us, p, vs, hfs, hp, hvs, hplace⟩ :=
    place_spec hl hfm (fun a ha => hb.ne hl ha) hbase (by omega : 2 * fs.length < 2 * (h.brk + 2))
  obtain ⟨h', fs', hx, hi, hmem⟩ := insert_spec hl hb hfs hp hvs
  refine ⟨_, fs', p, ?_, hi.setFreep (some p), hmem, rfl⟩
  rw [free, hf]
  show (do
    let p ← place h (bp + HEADER - HEADER) (2 * (h.brk + 2)) f
    let h ← joinUpper h (bp + HEADER - HEADER) p
    .ok { joinLower h (bp + HEADER - HEADER) p with freep := some p }) = _
  rw [Nat.add_sub_cancel, hplace, ok_bind, hx, ok_bind]

end Xv6.User
