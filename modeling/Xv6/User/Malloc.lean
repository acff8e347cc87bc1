import Xv6.User.FreeList

namespace Xv6.User

open Xv6.Lib

/-!
# User memory — `malloc` (`umalloc.c`)

* `take_spec` — a block, or its upper part, is taken from the list;
* `search_scan` — one round of the loop over the list;
* `morecore_spec` — memory from the kernel becomes a free block;
* `search_spec` — `malloc` finds a block that is large enough if there is one, and else it calls `sbrk`.
-/

/-! ### `malloc` -/

/-- A `uint` as an `int`. -/
def toInt (n : Nat) : Int := if n < 2 ^ 31 then n else n - 2 ^ 32

/-- `sbrk(n)`: the old end of the memory, or nothing; `ok` says if there are pages left. -/
def sbrk (h : Heap) (n : Int) (ok : Bool) : Option Nat × Heap :=
  if 0 < n then
    if ok = false ∨ KERNBASE ≤ h.brk + n then (none, h)
    else (some h.brk, { h with brk := h.brk + n.toNat })
  else
    -- `deallocuvm` does nothing if the new size is above the old one.
    let newsz := min h.brk (((h.brk : Int) + n) % 2 ^ 32).toNat
    if n < 0 ∧ newsz = 0 then (none, h) else (some h.brk, { h with brk := newsz })

/-- `morecore(nu)`. -/
def morecore (h : Heap) (nu : Nat) (ok : Bool) : Except Stop (Option Nat × Heap) :=
  let nu := max nu 4096
  match sbrk h (toInt (nu * HEADER % 2 ^ 32)) ok with
  | (none, h) => .ok (none, h)
  | (some hp, h) => do
    h.check hp
    let h ← free (h.setSize hp nu) (hp + HEADER)
    .ok (h.freep, h)

/-- The number of units for `nbytes` bytes and a header. -/
def units (nbytes : Nat) : Nat := (nbytes + HEADER - 1) % 2 ^ 32 / HEADER + 1

/-- The block `p`, or its upper part, is taken from the list. -/
def take (h : Heap) (nunits prevp p : Nat) : Except Stop (Nat × Heap) :=
  if h.size p = nunits then .ok (p + HEADER, { h.setPtr prevp (h.ptr p) with freep := some prevp })
  else do
    let h := h.setSize p (h.size p - nunits)
    let p := h.stop p
    h.check p
    .ok (p + HEADER, { h.setSize p nunits with freep := some prevp })

/-- The loop of `malloc`. -/
def search (nunits : Nat) (ok : Bool) : Nat → Heap → Nat → Nat → Except Stop (Option Nat × Heap)
  | 0, _, _, _ => .error .diverges
  | n + 1, h, prevp, p => do
    h.check p
    if nunits ≤ h.size p then do
      let (ap, h) ← take h nunits prevp p
      .ok (some ap, h)
    else if h.freep = some p then do
      match ← morecore h nunits ok with
      | (none, h) => .ok (none, h)
      | (some p, h) => do
        h.check p
        search nunits ok n h p (h.ptr p)
    else search nunits ok n h p (h.ptr p)

/-- `malloc(nbytes)`; `ok` says if there are pages left for `sbrk`. -/
def malloc (base : Nat) (h : Heap) (nbytes : Nat) (ok : Bool) : Except Stop (Option Nat × Heap) :=
  match h.freep with
  | none =>
    let h := { (h.setPtr base base).setSize base 0 with freep := some base }
    search (units nbytes) ok (3 * (h.brk + 2)) h base (h.ptr base)
  | some prevp => do
    h.check prevp
    search (units nbytes) ok (3 * (h.brk + 2)) h prevp (h.ptr prevp)

variable {base lo n nunits p q : Nat} {h h' : Heap} {fs fs' xs us vs : List Nat}

/-! ### Taking a block -/

/-- The block `b` of `nunits` units was free and is not any more. -/
structure Taken (base lo : Nat) (h h' : Heap) (nunits b : Nat) (fs fs' : List Nat) : Prop where
  list : FreeList base lo h' fs'
  keeps : Keeps h h' (b :: fs)
  brk : h'.brk = h.brk
  size : h'.size b = nunits
  total : total h' fs' + nunits = total h fs
  block : Block lo h' fs' b
  apart : ∀ x y, Outside h fs x y → b + HEADER * nunits ≤ x ∨ y ≤ b
  outside : ∀ x y, Outside h fs x y → Outside h' fs' x y

theorem Taken.setFreep {b : Nat} (ht : Taken base lo h h' nunits b fs fs') (f : Option Nat) :
    Taken base lo h { h' with freep := f } nunits b fs fs' :=
  ⟨ht.list.setFreep f, ht.keeps, ht.brk, ht.size, ht.total, ⟨ht.block.le, ht.block.pos, ht.block.inside,
    ht.block.outside⟩, ht.apart, ht.outside⟩

/-- The whole block `p` is taken. -/
theorem take_all (hl : FreeList base lo h fs) (hfs : fs = us ++ q :: p :: vs) (hp : 0 < h.size p) :
    Taken base lo h (h.setPtr q (h.ptr p)) (h.size p) p fs (us ++ q :: vs) := by
  have hfs' : fs = (us ++ [q]) ++ p :: vs := hfs.trans (List.append_cons ..)
  have hq : q ∈ fs := hfs ▸ List.mem_append_right us List.mem_cons_self
  have hpm : p ∈ fs := hfs' ▸ List.mem_append_right _ List.mem_cons_self
  have hpb : p ≠ base := fun heq => absurd hl.zero (heq ▸ hp).ne'
  have hin : ∀ a ∈ q :: vs, a ∈ fs := fun a ha => hfs ▸ List.mem_append_right us (by
    rcases List.mem_cons.mp ha with rfl | ha
    · exact List.mem_cons_self
    · exact List.mem_cons_of_mem q (List.mem_cons_of_mem p ha))
  have hus : Same h (h.setPtr q (h.ptr p)) us := keeps_setPtr.headers fun a ha => hl.clear_gt hfs ha
  have hvs : Same h (h.setPtr q (h.ptr p)) vs :=
    keeps_setPtr.headers fun a ha => hl.clear_lt hfs (List.mem_cons_of_mem p ha)
  have hsame : ∀ a ∈ q :: vs, (h.setPtr q (h.ptr p)).size a = h.size a := List.forall_mem_cons.mpr
    ⟨size_setPtr, fun a ha => (hvs a ha).2⟩
  have hsizep : (h.setPtr q (h.ptr p)).size p = h.size p :=
    (keeps_setPtr.header (List.forall_mem_singleton.mpr (hl.clear_lt hfs List.mem_cons_self))).2
  have hstopp : (h.setPtr q (h.ptr p)).stop p = h.stop p := by rw [Heap.stop, hsizep, Heap.stop]
  have hsorted := hl.sorted
  rw [hfs'] at hsorted
  have hlist : FreeList base lo (h.setPtr q (h.ptr p)) (us ++ q :: vs) := by
    refine hl.replace hfs hus rfl (fun heq => by rw [← heq, size_setPtr, heq, hl.zero]) ?_
      (List.pairwise_cons.mpr ⟨fun a ha => ?_, ?_⟩) (fun a ha hne => ?_) (fun a ha => ?_)
    · rw [ptr_setPtr ((hl.inside q hq).1.trans hl.limit.le) ptr_lt]
      exact hvs.ring (hl.seg hfs')
    · rw [stop_setPtr]
      exact hl.lt hfs (List.mem_cons_of_mem p ha)
    · exact hvs.sorted (List.pairwise_cons.mp (List.pairwise_append.mp hsorted).2.1).2
    · rw [hsame a ha]
      exact hl.pos a (hin a ha) hne
    · rw [Heap.stop, hsame a ha]
      exact hl.inside a (hin a ha)
  have hall : ∀ x y, Outside h fs x y ↔ Outside (h.setPtr q (h.ptr p)) (us ++ q :: vs) x y ∧
      (h.stop p ≤ x ∨ y ≤ p) := fun x y => by
    rw [hfs, outside_append, outside_append, outside_cons, outside_cons, outside_cons, hus.outside,
      hvs.outside, stop_setPtr]
    exact ⟨fun ho => ⟨⟨ho.1, ho.2.1, ho.2.2.2⟩, ho.2.2.1⟩, fun ho => ⟨ho.1.1, ho.1.2.1, ho.2, ho.1.2.2⟩⟩
  refine ⟨hlist, keeps_setPtr.mono (List.forall_mem_singleton.mpr (List.mem_cons_of_mem p hq)), rfl, hsizep, ?_,
    ⟨(hl.pos p hpm hpb).2, hp.trans_eq hsizep.symm, hstopp.le.trans (hl.inside p hpm).2, fun a ha => ?_⟩,
    fun x y hout => ((hall x y).mp hout).2, fun x y hout => ((hall x y).mp hout).1⟩
  · rw [hfs, total_append, total_append, total_cons, total_cons, total_cons, hus.total, hvs.total, size_setPtr]
    omega
  · rw [hstopp]
    rcases List.mem_append.mp ha with ha | ha
    · rw [hus.stop ha]
      exact .inl (hl.gt hfs' (List.mem_append_left _ ha)).2.le
    · rcases List.mem_cons.mp ha with rfl | ha
      · rw [stop_setPtr]
        exact .inl (hl.lt hfs List.mem_cons_self).2.le
      · exact .inr (hl.lt hfs' ha).2.le

/-- The upper part of the block `p` is taken. -/
theorem take_upper (hl : FreeList base lo h fs) (hfs : fs = us ++ p :: vs) (hn : 0 < nunits)
    (hlt : nunits < h.size p) (hh : h' = h.setSize p (h.size p - nunits)) :
    h'.stop p + HEADER ≤ h.brk ∧
      Taken base lo h (h'.setSize (h'.stop p) nunits) nunits (h'.stop p) fs fs := by
  have hp : p ∈ fs := hfs ▸ List.mem_append_right us List.mem_cons_self
  have hpb : p ≠ base := fun heq => absurd hl.zero (heq ▸ (hn.trans hlt)).ne'
  have hin := hl.inside p hp
  have hlim := hl.limit.le
  have hlow := (hl.pos p hp hpb).2
  have hsizep : h'.size p = h.size p - nunits := by
    rw [hh, size_setSize (hin.1.trans hlim) ((Nat.sub_le ..).trans_lt size_lt)]
  have hb : p + HEADER ≤ h'.stop p := header_le_stop (hsizep ▸ Nat.sub_pos_of_lt hlt)
  have hend : h'.stop p + HEADER * nunits = h.stop p := by
    rw [Heap.stop, hsizep, Nat.add_assoc, ← Nat.mul_add, Nat.sub_add_cancel hlt.le, Heap.stop]
  have hlen : h'.stop p + HEADER ≤ h.stop p :=
    hend ▸ Nat.add_le_add_left (Nat.le_mul_of_pos_right HEADER hn) _
  generalize hbe : h'.stop p = b at hb hend hlen ⊢
  have hkeeps : Keeps h (h'.setSize b nunits) [p, b] :=
    Keeps.trans (hh ▸ keeps_setSize : Keeps h h' [p]) keeps_setSize
  have hus : Same h (h'.setSize b nunits) us := fun a ha => hkeeps.header (by
    have hap := hl.gt hfs ha
    rw [List.forall_mem_cons, List.forall_mem_singleton]
    unfold Clear
    omega)
  have hvs : Same h (h'.setSize b nunits) vs := fun a ha => hkeeps.header (by
    have hap := hl.lt hfs ha
    rw [List.forall_mem_cons, List.forall_mem_singleton]
    unfold Clear
    omega)
  have hself : (h'.setSize b nunits).ptr p = h'.ptr p ∧ (h'.setSize b nunits).size p = h'.size p :=
    keeps_setSize.header (List.forall_mem_singleton.mpr (.inl hb))
  have hptr : (h'.setSize b nunits).ptr p = h.ptr p := by rw [hself.1, hh, ptr_setSize]
  have hstop : (h'.setSize b nunits).stop p = b := by rw [Heap.stop, hself.2, ← hbe, Heap.stop]
  have hsizeb : (h'.setSize b nunits).size b = nunits :=
    size_setSize ((hlen.trans hin.2).trans hlim) (hlt.trans size_lt)
  have hstopb : (h'.setSize b nunits).stop b = h.stop p := by rw [Heap.stop, hsizeb, hend]
  have hbrk : (h'.setSize b nunits).brk = h.brk := by
    rw [hh]
    rfl
  have hsorted := hl.sorted
  rw [hfs] at hsorted
  have hsorted := List.pairwise_cons.mp (List.pairwise_append.mp hsorted).2.1
  have hvsin : ∀ a ∈ vs, a ∈ fs := fun a ha => hfs ▸ List.mem_append_right us (List.mem_cons_of_mem p ha)
  have hlist : FreeList base lo (h'.setSize b nunits) (us ++ p :: vs) := by
    refine hl.replace hfs hus hbrk (fun heq => absurd heq hpb) ?_
      (List.pairwise_cons.mpr ⟨fun a ha => ?_, hvs.sorted hsorted.2⟩) (List.forall_mem_cons.mpr
      ⟨fun _ => ⟨?_, hlow⟩, fun a ha hne => ?_⟩) (List.forall_mem_cons.mpr ⟨⟨hin.1, ?_⟩, fun a ha => ?_⟩)
    · rw [hptr]
      exact hvs.ring (hl.seg hfs)
    · rw [hstop]
      exact ⟨(hsorted.1 a ha).1, ((Nat.le_add_right ..).trans hlen).trans_lt (hsorted.1 a ha).2⟩
    · rw [hself.2, hsizep]
      exact Nat.sub_pos_of_lt hlt
    · rw [(hvs a ha).2]
      exact hl.pos a (hvsin a ha) hne
    · rw [hstop]
      exact ((Nat.le_add_right ..).trans hlen).trans hin.2
    · rw [hvs.stop ha]
      exact hl.inside a (hvsin a ha)
  refine ⟨hlen.trans hin.2, hfs ▸ hlist, hkeeps.mono (List.forall_mem_cons.mpr
    ⟨List.mem_cons_of_mem b hp, List.forall_mem_singleton.mpr List.mem_cons_self⟩), hbrk, hsizeb, ?_,
    ⟨by omega, hn.trans_eq hsizeb.symm, (hstopb.le.trans hin.2).trans_eq hbrk.symm, fun a ha => ?_⟩,
    fun x y hout => ?_, fun x y hout => ?_⟩
  · rw [hfs, total_append, total_append, total_cons, total_cons, hus.total, hvs.total, hself.2, hsizep]
    omega
  · rw [hstopb]
    rw [hfs] at ha
    rcases List.mem_append.mp ha with ha | ha
    · have hap := hl.gt hfs ha
      rw [hus.stop ha]
      omega
    · rcases List.mem_cons.mp ha with rfl | ha
      · exact .inl hstop.le
      · exact .inr (hl.lt hfs ha).2.le
  · have hout := hout p hp
    omega
  · rw [hfs, outside_append, outside_cons] at hout ⊢
    rw [hus.outside, hvs.outside, hstop]
    exact ⟨hout.1, by omega, hout.2.2⟩

/-- What `malloc` does with a block that is large enough. -/
theorem take_spec (hl : FreeList base lo h fs) (hfs : fs = us ++ q :: p :: vs) (hn : 0 < nunits)
    (hle : nunits ≤ h.size p) : ∃ b h' fs', take h nunits q p = .ok (b + HEADER, h') ∧
      Taken base lo h h' nunits b fs fs' ∧ q ∈ fs' ∧ h'.freep = some q := by
  rw [take]
  split
  · rename_i heq
    refine ⟨p, _, us ++ q :: vs, rfl, Taken.setFreep ?_ (some q), by simp, rfl⟩
    rw [← heq]
    exact take_all hl hfs (heq ▸ hn)
  · rename_i hne
    obtain ⟨hin, ht⟩ := take_upper hl (hfs.trans (List.append_cons ..)) hn
      (Nat.lt_of_le_of_ne hle (Ne.symm hne)) rfl
    refine ⟨_, _, fs, ?_, ht.setFreep (some q), hfs ▸ by simp, rfl⟩
    exact bind_of_ok (check_ok hin) _

/-! ### Searching the list -/

/-- Going round the list from an element, all others are met, and then the element again. -/
theorem FreeList.cycle (hl : FreeList base lo h fs) (hp : p ∈ fs) :
    ∃ xs, Seg (fun a => some (h.ptr a)) (some (h.ptr p)) (xs ++ [p]) (some (h.ptr p)) ∧
      (∀ a ∈ fs, a ∈ xs ++ [p]) ∧ (∀ a ∈ xs, a ∈ fs ∧ a ≠ p) ∧ xs.length < fs.length := by
  obtain ⟨us, vs, hfs⟩ := List.append_of_mem hp
  have hring := hl.ring
  rw [hfs] at hring
  obtain ⟨m, hm, hrest⟩ := seg_append_iff.mp hring
  obtain ⟨rfl, -⟩ := seg_cons_iff.mp hrest
  refine ⟨vs ++ us, ?_, fun a ha => ?_, fun a ha => ?_, ?_⟩
  · rw [List.append_assoc]
    exact seg_append_iff.mpr ⟨_, hl.seg hfs, seg_append_iff.mpr ⟨_, hm, .cons _ _ _ (.nil _)⟩⟩
  · rw [hfs] at ha
    simp only [List.mem_append, List.mem_cons] at ha ⊢
    tauto
  · rw [hfs, List.mem_append]
    rcases List.mem_append.mp ha with ha | ha
    · exact ⟨.inr (List.mem_cons_of_mem p ha), (le_stop.trans_lt (hl.lt hfs ha).2).ne'⟩
    · exact ⟨.inl ha, (le_stop.trans_lt (hl.gt hfs ha).2).ne⟩
  · rw [hfs]
    simp only [List.length_append, List.length_cons]
    omega

/-- An element other than `base` comes behind the element that leads to it. -/
theorem FreeList.pred (hl : FreeList base lo h fs) (hq : q ∈ fs) (hqp : h.ptr q = p) (hp : p ≠ base) :
    ∃ us vs, fs = us ++ q :: p :: vs := by
  obtain ⟨us, ws, hfs⟩ := List.append_of_mem hq
  cases ws with
  | nil => exact absurd (hqp.symm.trans (hl.ptr_last hfs)) hp
  | cons r ws =>
    obtain rfl : r = p := (hl.ptr_next hfs).symm.trans hqp
    exact ⟨us, ws, hfs⟩

/-- `malloc` has found a block in the list `fs` of `h`. -/
def Found (base lo nunits : Nat) (h : Heap) (fs : List Nat) (r : Except Stop (Option Nat × Heap)) : Prop :=
  ∃ b h' fs' f, r = .ok (some (b + HEADER), h') ∧ Taken base lo h h' nunits b fs fs' ∧ f ∈ fs' ∧
    h'.freep = some f

theorem search_here {m : Nat} {ok : Bool} (hl : FreeList base lo h fs) (hq : q ∈ fs) (hqp : h.ptr q = p) (hn : 0 < nunits)
    (hp : p ∈ fs) (hle : nunits ≤ h.size p) : Found base lo nunits h fs (search nunits ok (m + 1) h q p) := by
  have hpb : p ≠ base := fun heq => absurd hl.zero (heq ▸ (hn.trans_le hle)).ne'
  obtain ⟨us, vs, hfs⟩ := hl.pred hq hqp hpb
  obtain ⟨b, h', fs', hx, ht, hmem, hfreep⟩ := take_spec hl hfs hn hle
  refine ⟨b, h', fs', q, ?_, ht, hmem, hfreep⟩
  rw [search, check_ok (hl.inside p hp).1, ok_bind, if_pos hle, hx, ok_bind]

/-- The loop of `malloc` up to `freep`: it finds a block, or there is none and `morecore` is called. -/
theorem search_scan {f : Nat} {e : Option Nat} (hl : FreeList base lo h fs) (hf : h.freep = some f)
    (hfm : f ∈ fs) (hnu : 0 < nunits) (hseg : Seg (fun a => some (h.ptr a)) (some p) (xs ++ [f]) e)
    (hq : q ∈ fs) (hqp : h.ptr q = p) (hxs : ∀ a ∈ xs, a ∈ fs ∧ a ≠ f) (hn : xs.length < n) (ok : Bool) :
    Found base lo nunits h fs (search nunits ok n h q p) ∨
      (∀ a ∈ xs ++ [f], h.size a < nunits) ∧
      (∀ h', morecore h nunits ok = .ok (none, h') → search nunits ok n h q p = .ok (none, h')) ∧
      ∀ f' h', morecore h nunits ok = .ok (some f', h') → h'.check f' = .ok () →
        search nunits ok n h q p = search nunits ok (n - xs.length - 1) h' f' (h'.ptr f') := by
  obtain ⟨n, rfl⟩ := Nat.exists_eq_succ_of_ne_zero (by omega : n ≠ 0)
  induction xs generalizing q p n with
  | nil =>
    obtain ⟨hp, -⟩ := seg_cons_iff.mp hseg
    obtain rfl := Option.some.inj hp
    by_cases hle : nunits ≤ h.size p
    · exact .inl (search_here hl hq hqp hnu hfm hle)
    · refine .inr ⟨List.forall_mem_singleton.mpr (not_le.mp hle), fun h' hx => ?_, fun f' h' hx hc => ?_⟩
      · rw [search, check_ok (hl.inside p hfm).1, ok_bind, if_neg hle, if_pos hf, hx]
        rfl
      · rw [search, check_ok (hl.inside p hfm).1, ok_bind, if_neg hle, if_pos hf, hx]
        show (do h'.check f'; search nunits ok n h' f' (h'.ptr f')) = _
        rw [hc, ok_bind]
        rfl
  | cons a xs ih =>
    obtain ⟨hp, hseg⟩ := seg_cons_iff.mp hseg
    obtain rfl := Option.some.inj hp
    obtain ⟨hmem, hne⟩ := hxs p List.mem_cons_self
    rw [List.length_cons] at hn
    by_cases hle : nunits ≤ h.size p
    · exact .inl (search_here hl hq hqp hnu hmem hle)
    · have hstep : search nunits ok (n + 1) h q p = search nunits ok n h p (h.ptr p) := by
        rw [search, check_ok (hl.inside p hmem).1, ok_bind, if_neg hle,
          if_neg (fun heq => hne (Option.some.inj (heq.symm.trans hf)))]
      obtain ⟨n, rfl⟩ := Nat.exists_eq_succ_of_ne_zero (by omega : n ≠ 0)
      rw [hstep]
      rcases ih hseg hmem rfl (fun b hb => hxs b (List.mem_cons_of_mem p hb)) n (by omega)
        with hfound | ⟨hsmall, hnone, hsome⟩
      · exact .inl hfound
      · refine .inr ⟨?_, hnone, fun f' h' hx hc => ?_⟩
        · rw [List.cons_append]
          exact List.forall_mem_cons.mpr ⟨not_le.mp hle, hsmall⟩
        · rw [hsome f' h' hx hc, List.length_cons]
          congr 1
          omega

/-! ### More memory -/

/-- The memory has grown by a free block of `nu` units. -/
structure Grown (base lo : Nat) (h h' : Heap) (nu : Nat) (fs fs' : List Nat) : Prop where
  list : FreeList base lo h' fs'
  keeps : Keeps h h' (h.brk :: fs)
  brk : h'.brk = h.brk + HEADER * nu
  total : total h' fs' = total h fs + nu
  large : ∃ a ∈ fs', nu ≤ h'.size a
  length : fs'.length ≤ fs.length + 1
  outside : ∀ x y, x < y → y ≤ h.brk → Outside h fs x y → Outside h' fs' x y

/-- The units that `morecore` asks for. -/
def coreUnits (nunits : Nat) : Nat := max nunits 4096

/-- There is no room for so many bytes, or no page is left. -/
def Refused (h : Heap) (n : Nat) (ok : Bool) : Prop := ok = false ∨ KERNBASE ≤ h.brk + n

theorem sbrk_pos (hn : 0 < n) (ok : Bool) : Refused h n ok ∧ sbrk h n ok = (none, h) ∨
    ¬ Refused h n ok ∧ sbrk h n ok = (some h.brk, { h with brk := h.brk + n }) := by
  unfold Refused
  rw [sbrk, if_pos (by omega), Int.toNat_natCast]
  by_cases hr : ok = false ∨ KERNBASE ≤ h.brk + n
  · exact .inl ⟨hr, if_pos (hr.imp_right fun hle => by omega)⟩
  · exact .inr ⟨hr, if_neg fun hx => hr (hx.imp_right fun hle => by omega)⟩

/-- So many units are a positive number of bytes for `sbrk`. -/
theorem toInt_units (hlim : HEADER * n < 2 ^ 31) : toInt (n * HEADER % 2 ^ 32) = (HEADER * n : Nat) := by
  have hmod : n * HEADER % 2 ^ 32 = HEADER * n := by
    rw [Nat.mul_comm]
    exact Nat.mod_eq_of_lt (hlim.trans (by decide))
  rw [hmod, toInt, if_pos hlim]

theorem FreeList.congr (hl : FreeList base lo h fs) (hs : Same h h' fs) (hbrk : h'.brk = h.brk) :
    FreeList base lo h' fs := by
  obtain ⟨rest, hrest⟩ := hl.head
  have hbase : base ∈ fs := hrest ▸ List.mem_cons_self
  refine ⟨hs.ring hl.ring, hl.nonempty, hs.sorted hl.sorted, ?_, fun a ha hne => ?_, fun a ha => ?_,
    hl.low, hbrk ▸ hl.limit⟩
  · rw [(hs base hbase).2, hl.zero]
  · rw [(hs a ha).2]
    exact hl.pos a ha hne
  · rw [hs.stop ha, hbrk]
    exact hl.inside a ha

theorem FreeList.setBrk {m : Nat} (hl : FreeList base lo h fs) (hle : h.brk ≤ m) (hlim : m < KERNBASE) :
    FreeList base lo { h with brk := m } fs :=
  ⟨hl.ring, hl.nonempty, hl.sorted, hl.zero, hl.pos,
    fun a ha => ⟨(hl.inside a ha).1.trans hle, (hl.inside a ha).2.trans hle⟩, hl.low, hlim⟩

/-- The free list in a larger memory with the header of a new block behind it. -/
theorem FreeList.extend {m : Nat} (hl : FreeList base lo h fs) (hlim : h.brk + m < KERNBASE)
    (hh : h' = Heap.setSize { h with brk := h.brk + m } h.brk n) :
    FreeList base lo h' fs ∧ Same h h' fs := by
  have hkeeps : Keeps h h' [h.brk] := fun x hx => by
    rw [hh]
    exact keeps_setSize x hx
  have hsame : Same h h' fs := hkeeps.headers fun a ha => .inl (hl.inside a ha).1
  have hl' : FreeList base lo { h with brk := h.brk + m } fs := hl.setBrk (Nat.le_add_right ..) hlim
  exact ⟨hl'.congr hsame (by rw [hh]; rfl), hsame⟩

/-- The new memory is put into the list as one block. -/
theorem morecore_spec {f : Nat} (hl : FreeList base lo h fs) (hf : h.freep = some f) (hfm : f ∈ fs)
    (hlo : lo ≤ h.brk) (hn : HEADER * nunits < 2 ^ 31) (ok : Bool) :
    (morecore h nunits ok = .ok (none, h) ∧ Refused h (HEADER * coreUnits nunits) ok) ∨
      ∃ h' fs' f', morecore h nunits ok = .ok (some f', h') ∧ Grown base lo h h' (coreUnits nunits) fs fs' ∧
        f' ∈ fs' ∧ h'.freep = some f' := by
  have hnu : 0 < coreUnits nunits ∧ HEADER * coreUnits nunits < 2 ^ 31 := by
    unfold HEADER at hn ⊢
    unfold coreUnits
    omega
  have hunits : max nunits 4096 = coreUnits nunits := rfl
  rw [morecore, hunits]
  generalize coreUnits nunits = nu at hnu ⊢
  rw [toInt_units hnu.2]
  rcases sbrk_pos (h := h) (Nat.mul_pos (by decide) hnu.1 : 0 < HEADER * nu) ok with ⟨hr, hx⟩ | ⟨hr, hx⟩
  · left
    rw [hx]
    exact ⟨rfl, hr⟩
  · right
    have hlim : h.brk + HEADER * nu < KERNBASE := not_le.mp fun hle => hr (.inr hle)
    have hroom : h.brk + HEADER ≤ h.brk + HEADER * nu :=
      Nat.add_le_add_left (Nat.le_mul_of_pos_right HEADER hnu.1) _
    rw [hx]
    generalize hh : Heap.setSize { h with brk := h.brk + HEADER * nu } h.brk nu = h₁
    obtain ⟨hl₁, hsame⟩ := hl.extend hlim hh.symm
    have hbrk : h₁.brk = h.brk + HEADER * nu := by rw [← hh]; rfl
    have hsize : h₁.size h.brk = nu := by
      rw [← hh]
      refine size_setSize (hroom.trans hlim.le) ?_
      have hle : nu ≤ HEADER * nu := Nat.le_mul_of_pos_left nu (by decide)
      omega
    have hstop : h₁.stop h.brk = h.brk + HEADER * nu := by rw [Heap.stop, hsize]
    have hb : Block lo h₁ fs h.brk := ⟨hlo, hsize ▸ hnu.1, by rw [hstop, hbrk], fun a ha => by
      rw [hsame.stop ha]
      exact .inl (hl.inside a ha).2⟩
    have hf₁ : h₁.freep = some f := by rw [← hh]; exact hf
    obtain ⟨h', fs', f', hfree, hi, hmem, hfreep⟩ := free_spec hl₁ hf₁ hfm hb
    refine ⟨h', fs', f', ?_, ⟨hi.list, ?_, hi.brk.trans hbrk, ?_, ?_, hi.length, ?_⟩, hmem, hfreep⟩
    · show (do
        Heap.check { h with brk := h.brk + HEADER * nu } h.brk
        let h ← free (Heap.setSize { h with brk := h.brk + HEADER * nu } h.brk nu) (h.brk + HEADER)
        .ok (h.freep, h)) = _
      rw [check_ok hroom, ok_bind, hh, hfree, ok_bind, hfreep]
    · intro x hx
      rw [hi.keeps x hx, ← hh]
      exact keeps_setSize x (List.forall_mem_singleton.mpr (hx h.brk List.mem_cons_self))
    · rw [hi.total, hsame.total, hsize]
    · rw [← hsize]
      exact hi.large
    · intro x y hxy hy hout
      exact hi.outside x y hxy (hsame.outside.mpr hout) (.inr hy)

/-- `malloc` takes a block that is large enough if there is one, and else from new memory, which it gets
    unless the kernel refuses. -/
theorem search_spec {f : Nat} (hl : FreeList base lo h fs) (hf : h.freep = some f) (hfm : f ∈ fs)
    (hlo : lo ≤ h.brk) (hnu : 0 < nunits) (hlim : HEADER * nunits < 2 ^ 31) (hn : 3 * (h.brk + 2) ≤ n)
    (ok : Bool) : Found base lo nunits h fs (search nunits ok n h f (h.ptr f)) ∨
      (∀ a ∈ fs, h.size a < nunits) ∧
      (search nunits ok n h f (h.ptr f) = .ok (none, h) ∧ Refused h (HEADER * coreUnits nunits) ok ∨
        ∃ h' fs' f', Grown base lo h h' (coreUnits nunits) fs fs' ∧ f' ∈ fs' ∧ h'.freep = some f' ∧
          Found base lo nunits h' fs' (search nunits ok n h f (h.ptr f))) := by
  obtain ⟨xs, hseg, hall, hxs, hlen⟩ := hl.cycle hfm
  have hlen' := hl.length_le
  rcases search_scan (n := n) hl hf hfm hnu hseg hfm rfl hxs (by omega) ok
    with hfound | ⟨hsmall, hnone, hsome⟩
  · exact .inl hfound
  · refine .inr ⟨fun a ha => hsmall a (hall a ha), ?_⟩
    rcases morecore_spec hl hf hfm hlo hlim ok with ⟨hx, hr⟩ | ⟨h', fs', f', hx, hg, hfm', hf'⟩
    · exact .inl ⟨hnone h hx, hr⟩
    · refine .inr ⟨h', fs', f', hg, hfm', hf', ?_⟩
      rw [hsome f' h' hx (check_ok (hg.list.inside f' hfm').1)]
      -- The new block is large enough, so the second round finds a block.
      obtain ⟨ys, hseg', hall', hys, hlen₁⟩ := hg.list.cycle hfm'
      have hlen₂ := hg.length
      rcases search_scan (n := n - xs.length - 1) hg.list hf' hfm' hnu hseg' hfm' rfl hys (by omega) ok
        with hfound | ⟨hsmall', -, -⟩
      · exact hfound
      · obtain ⟨a, ha, hle⟩ := hg.large
        have hlt := hsmall' a (hall' a ha)
        unfold coreUnits at hle
        omega

end Xv6.User
