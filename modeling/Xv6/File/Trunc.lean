import Xv6.File.Dinode
import Xv6.File.Entries
import Xv6.File.Map

namespace Xv6.File

open Xv6.Lib
open Xv6.Fs (Block BSIZE Stop)

/-!
# Files — `itrunc`

`itrunc` gives back the direct blocks, and the indirect block with the blocks in it.

* `Freeable` — a list of blocks that can be freed one after the other;
* `wp_truncDirect`, `wp_truncIndirect` — the blocks that are freed;
* `truncated` — the cells of the block tree that `itrunc` visits;
* `itrunc_frees` — these are all cells of the tree if and only if there is no double and no triple
  indirect block.
-/

variable {S : Nat → Prop} {sb : Superblock} {data data' : Nat → Block} {t t' : Mem} {ip : Ip}
  {held : List Nat} {b i x slot : Nat} {L L' is js : List Nat} {E : Stop → Mem × Flat Block → Prop}

/-! ### Freeing blocks -/

/-- The blocks are different, on the disk, and marked. -/
structure Freeable (sb : Superblock) (data : Nat → Block) (L : List Nat) : Prop where
  nodup : L.Nodup
  lt : ∀ x ∈ L, x < sb.size
  used : ∀ x ∈ L, used sb data x = true

theorem used_foldl_release :
    used sb (L.foldl (release sb) data) x = (decide (x ∉ L) && used sb data x) := by
  induction L generalizing data with
  | nil => simp
  | cons b L ih =>
    rw [List.foldl_cons, ih, used_release, ← Bool.and_assoc, ← Bool.decide_and]
    congr 2
    rw [List.mem_cons, not_or, and_comm]

/-- The data area stays as it is. -/
theorem foldl_release_data (h : ∀ x ∈ L, x < sb.size) (hx : sb.dataStart ≤ x) :
    L.foldl (release sb) data x = data x := by
  induction L generalizing data with
  | nil => rfl
  | cons b L ih =>
    have hne : x ≠ bblock sb b := fun heq => by
      have := (bblock_lt (h b List.mem_cons_self)).2
      omega
    rw [List.foldl_cons, ih fun y hy => h y (List.mem_cons_of_mem _ hy), release,
      Function.update_of_ne hne]

theorem Freeable.left (h : Freeable sb data (L ++ L')) : Freeable sb data L :=
  ⟨(List.nodup_append.mp h.nodup).1, fun x hx => h.lt x (List.mem_append_left _ hx),
    fun x hx => h.used x (List.mem_append_left _ hx)⟩

theorem Freeable.right (h : Freeable sb data (L ++ L')) :
    Freeable sb (L.foldl (release sb) data) L' := by
  refine ⟨(List.nodup_append.mp h.nodup).2.1, fun x hx => h.lt x (List.mem_append_right _ hx),
    fun x hx => ?_⟩
  have hnot : x ∉ L := fun hmem => (List.nodup_append.mp h.nodup).2.2 x hmem x hx rfl
  rw [used_foldl_release, h.used x (List.mem_append_right _ hx), decide_eq_true hnot]
  rfl

/-- The blocks that a list of block numbers names. -/
def nonzero (bs : List Nat) : List Nat := bs.filter fun b => b ≠ 0

theorem nonzero_cons_zero (h : b = 0) : nonzero (b :: L) = nonzero L :=
  List.filter_cons_of_neg (by simp [h])

theorem nonzero_cons (h : b ≠ 0) : nonzero (b :: L) = b :: nonzero L :=
  List.filter_cons_of_pos (by simp [h])

theorem nonzero_append : nonzero (L ++ L') = nonzero L ++ nonzero L' := List.filter_append ..

theorem mem_nonzero : x ∈ nonzero L ↔ x ∈ L ∧ x ≠ 0 := by simp [nonzero]

theorem inode_withAddrs (a : Bytes ADDRSIZE) :
    (t.withAddrs ip a).inode ip = { t.inode ip with addrs := a } := Function.update_self ..

section Programs

variable [DecidablePred S]

/-- The loop over the direct blocks. -/
theorem wp_truncDirect (hl : Layout S t.sb) (his : is.Nodup) (hslots : ∀ i ∈ is, i < NDIRECT + 3)
    (hfree : Freeable t.sb data (nonzero (is.map (t.inode ip).addr)))
    (hheld : ∀ x ∈ held, t.sb.dataStart ≤ x) :
    wp ((truncDirect ip is).run (array S)) (fun _ s => ∃ a, s = (t.withAddrs ip a,
        ⟨(nonzero (is.map (t.inode ip).addr)).foldl (release t.sb) data, held⟩) ∧
      ∀ slot, (Inode.addr { t.inode ip with addrs := a } slot) =
        if slot ∈ is then 0 else (t.inode ip).addr slot) E (t, ⟨data, held⟩) := by
  induction is generalizing t data with
  | nil => exact ⟨(t.inode ip).addrs, by rw [withAddrs_self]; rfl, fun slot => rfl⟩
  | cons i is ih =>
    obtain ⟨hi, hnodup⟩ := List.nodup_cons.mp his
    have hslots' : ∀ j ∈ is, j < NDIRECT + 3 := fun j hj => hslots j (List.mem_cons_of_mem _ hj)
    rw [truncDirect, wp_run_bind, wp_run_inodeOf]
    by_cases h0 : (t.inode ip).addr i = 0
    · rw [if_neg (not_not.mpr h0), List.map_cons, nonzero_cons_zero h0]
      rw [List.map_cons, nonzero_cons_zero h0] at hfree
      refine wp_mono (ih hl hnodup hslots' hfree hheld) ?_ fun _ _ he => he
      rintro _ _ ⟨a, rfl, ha⟩
      refine ⟨a, rfl, fun slot => (ha slot).trans ?_⟩
      by_cases hslot : slot = i
      · subst hslot
        rw [if_neg hi, if_pos List.mem_cons_self, h0]
      · simp only [List.mem_cons, hslot, false_or]
    · rw [List.map_cons, nonzero_cons h0] at hfree
      rw [if_pos h0, List.map_cons, nonzero_cons h0, wp_run_bind]
      refine wp_bfree hl (hfree.lt _ List.mem_cons_self) hheld (hfree.used _ List.mem_cons_self) ?_
      rw [wp_run_bind, wp_run_setInode]
      -- The rest sees the other entries of `addrs` as before.
      obtain ⟨t₁, ht₁⟩ : ∃ t₁, t₁ = t.withAddrs ip ((t.inode ip).setAddr i 0).addrs := ⟨_, rfl⟩
      have hinode : t₁.inode ip = (t.inode ip).setAddr i 0 := by
        rw [ht₁]
        exact Function.update_self ..
      have hmap : is.map (t₁.inode ip).addr = is.map (t.inode ip).addr := by
        refine List.map_congr_left fun j hj => ?_
        rw [hinode]
        exact addr_setAddr_other _ fun h => hi (h ▸ hj)
      have hfree₁ : Freeable t₁.sb (release t.sb data ((t.inode ip).addr i))
          (nonzero (is.map (t₁.inode ip).addr)) := by
        rw [hmap, ht₁]
        exact Freeable.right (L := [(t.inode ip).addr i]) hfree
      have hl₁ : Layout S t₁.sb := by rw [ht₁]; exact hl
      have hheld₁ : ∀ x ∈ held, t₁.sb.dataStart ≤ x := by rw [ht₁]; exact hheld
      have hrest := ih hl₁ hnodup hslots' hfree₁ hheld₁
      rw [hmap, hinode] at hrest
      subst ht₁
      refine wp_mono hrest ?_ fun _ _ he => he
      rintro _ _ ⟨a, rfl, ha⟩
      refine ⟨a, by rw [withAddrs_twice]; rfl, fun slot => (ha slot).trans ?_⟩
      by_cases hslot : slot = i
      · subst hslot
        rw [if_neg hi, if_pos List.mem_cons_self]
        exact addr_setAddr_self _ (hslots slot List.mem_cons_self) (by decide)
      · simp only [List.mem_cons, hslot, false_or]
        rw [addr_setAddr_other _ hslot]

/-- The loop over the entries of the indirect block. -/
theorem wp_truncEntries {d : Block} (hl : Layout S t.sb)
    (hfree : Freeable t.sb data (nonzero (js.map (entry d)))) (hheld : ∀ x ∈ held, t.sb.dataStart ≤ x) :
    wp ((truncEntries d js).run (array S)) (fun _ s => s =
      (t, ⟨(nonzero (js.map (entry d))).foldl (release t.sb) data, held⟩)) E (t, ⟨data, held⟩) := by
  induction js generalizing data with
  | nil => rfl
  | cons j js ih =>
    rw [truncEntries]
    by_cases h0 : entry d j = 0
    · rw [if_neg (not_not.mpr h0), List.map_cons, nonzero_cons_zero h0]
      rw [List.map_cons, nonzero_cons_zero h0] at hfree
      exact ih hfree
    · rw [List.map_cons, nonzero_cons h0] at hfree
      rw [if_pos h0, List.map_cons, nonzero_cons h0, wp_run_bind]
      refine wp_bfree hl (hfree.lt _ List.mem_cons_self) hheld (hfree.used _ List.mem_cons_self) ?_
      exact ih (Freeable.right (L := [entry d j]) hfree)

/-- The blocks behind the indirect block, and the indirect block. -/
def indirectBlocks (data : Nat → Block) (b : Nat) : List Nat :=
  if b = 0 then [] else nonzero ((List.range NINDIRECT).map (entry (data b))) ++ [b]

theorem wp_truncIndirect (hl : Layout S t.sb) (hlow : ∀ x ∈ held, t.sb.dataStart ≤ x)
    (hfree : Freeable t.sb data (indirectBlocks data ((t.inode ip).addr NDIRECT)))
    (hb : (t.inode ip).addr NDIRECT ≠ 0 → t.sb.dataStart ≤ (t.inode ip).addr NDIRECT ∧
      (t.inode ip).addr NDIRECT ∉ held) :
    wp ((truncIndirect ip).run (array S)) (fun _ s => ∃ a, s = (t.withAddrs ip a,
        ⟨(indirectBlocks data ((t.inode ip).addr NDIRECT)).foldl (release t.sb) data, held⟩) ∧
      ∀ slot, (Inode.addr { t.inode ip with addrs := a } slot) =
        if slot = NDIRECT then 0 else (t.inode ip).addr slot) E (t, ⟨data, held⟩) := by
  rw [truncIndirect, wp_run_bind, wp_run_inodeOf]
  dsimp only
  by_cases h0 : (t.inode ip).addr NDIRECT = 0
  · rw [if_neg (not_not.mpr h0), wp_run_pure, indirectBlocks, if_pos h0]
    refine ⟨(t.inode ip).addrs, by rw [withAddrs_self]; rfl, fun slot => ?_⟩
    split
    · rename_i hslot
      rw [hslot]
      exact h0
    · rfl
  obtain ⟨hdata, hnot⟩ := hb h0
  rw [if_pos h0]
  obtain ⟨b, hb⟩ : ∃ b, b = (t.inode ip).addr NDIRECT := ⟨_, rfl⟩
  rw [← hb] at h0 hdata hnot hfree ⊢
  rw [indirectBlocks, if_neg h0] at hfree ⊢
  have hlt := hfree.lt b (List.mem_append_right _ List.mem_cons_self)
  have hlow' : ∀ x ∈ b :: held, t.sb.dataStart ≤ x := fun x hx => by
    rcases List.mem_cons.mp hx with rfl | hx
    · exact hdata
    · exact hlow x hx
  have hinodes := hl.le
  have hbmap := t.sb.bmapstart_lt
  rw [wp_run_bind]
  refine (Flat.wp_bread (hl.offers b (by omega) (.inr hlt)) hnot).mpr ?_
  rw [wp_run_bind]
  refine wp_mono (wp_truncEntries hl hfree.left hlow') ?_ fun _ _ he => he
  rintro _ _ rfl
  rw [wp_run_bind]
  refine (Flat.wp_brelse hnot).mpr ?_
  rw [wp_run_bind]
  have hlast := hfree.right
  refine wp_bfree hl hlt hlow (hlast.used b List.mem_cons_self) ?_
  rw [wp_run_setInode]
  refine ⟨((t.inode ip).setAddr NDIRECT 0).addrs, by rw [List.foldl_append]; rfl, fun slot => ?_⟩
  split
  · rename_i hslot
    rw [hslot]
    exact addr_setAddr_self (t.inode ip) (by decide) (by decide)
  · rename_i hslot
    exact addr_setAddr_other (t.inode ip) hslot

end Programs

/-! ### The block tree -/

/-- The cells that `itrunc` visits. -/
def truncated (inum : Nat) : List Cell :=
  (List.range NDIRECT).map (fun i => ((inum, i), [])) ++
    ((List.range NINDIRECT).map (fun j => ((inum, NDIRECT), [j])) ++ [((inum, NDIRECT), [])])

/-- The blocks that `itrunc` frees. -/
def truncatedBlocks (data : Nat → Block) (q : Inode) : List Nat :=
  nonzero ((List.range NDIRECT).map q.addr) ++ indirectBlocks data (q.addr NDIRECT)

/-- The blocks in the tree of an inode. -/
def owned (t : Mem) (data : Nat → Block) (inum : Nat) : Set Nat :=
  fun x => x ≠ 0 ∧ ∃ c, IsCell t data c ∧ c.1.1 = inum ∧ pointer t data c = x

/-- Different cells of a well-formed file system hold blocks that can be freed. -/
theorem WellFormed.freeable (hwf : WellFormed t data) {cs : List Cell} (hnodup : cs.Nodup)
    (hcs : ∀ c ∈ cs, IsCell t data c) : Freeable t.sb data (nonzero (cs.map (pointer t data))) := by
  have hblock : ∀ x ∈ nonzero (cs.map (pointer t data)), x < t.sb.size ∧ used t.sb data x = true := by
    intro x hx
    obtain ⟨hmem, hne⟩ := mem_nonzero.mp hx
    obtain ⟨c, hc, rfl⟩ := List.mem_map.mp hmem
    exact (hwf.block c (hcs c hc) hne).2
  refine ⟨?_, fun x hx => (hblock x hx).1, fun x hx => (hblock x hx).2⟩
  rw [nonzero, List.filter_map]
  refine List.Nodup.map_on (fun c hc c' hc' heq => ?_) (hnodup.filter _)
  rw [List.mem_filter, Function.comp, decide_eq_true_eq] at hc hc'
  exact hwf.forest c c' (hcs c hc.1) (hcs c' hc'.1) heq hc.2

theorem nodup_truncated (inum : Nat) : (truncated inum).Nodup := by
  have hpair : ∀ i j : Nat, ((inum, i), ([] : List Nat)) = ((inum, j), []) → i = j := fun i j h => by
    simpa using h
  have hpath : ∀ i j : Nat, ((inum, NDIRECT), [i]) = ((inum, NDIRECT), [j]) → i = j := fun i j h => by
    simpa using h
  refine List.nodup_append.mpr ⟨List.nodup_range.map fun i j => hpair i j,
    List.nodup_append.mpr ⟨List.nodup_range.map fun i j => hpath i j, List.nodup_singleton _, ?_⟩, ?_⟩
  · intro c hc c' hc' heq
    obtain ⟨j, -, rfl⟩ := List.mem_map.mp hc
    rw [List.mem_singleton.mp hc'] at heq
    simp at heq
  · intro c hc c' hc' heq
    obtain ⟨j, hj, rfl⟩ := List.mem_map.mp hc
    rw [List.mem_range] at hj
    rcases List.mem_append.mp hc' with hc' | hc'
    · obtain ⟨j', -, rfl⟩ := List.mem_map.mp hc'
      simp at heq
    · rw [List.mem_singleton.mp hc'] at heq
      have hslot : j = NDIRECT := by simpa using heq
      omega

section Tree

variable (hv : Valid t ip)
include hv

theorem pointer_direct (i : Nat) :
    pointer t data (((t.inode ip).inum, i), []) = (t.inode ip).addr i := by
  rw [pointer, value_nil, root, hv.current]

theorem pointer_indirect (j : Nat) : pointer t data (((t.inode ip).inum, NDIRECT), [j]) =
    if (t.inode ip).addr NDIRECT = 0 then 0 else entry (data ((t.inode ip).addr NDIRECT)) j := by
  show (if root t data _ = 0 then 0 else entry (data (root t data _)) j) = _
  rw [root, hv.current]

/-- The blocks that `itrunc` frees are in the cells that it visits. -/
theorem truncatedBlocks_eq :
    truncatedBlocks data (t.inode ip) = nonzero ((truncated (t.inode ip).inum).map (pointer t data)) := by
  rw [truncatedBlocks, truncated, List.map_append, List.map_append, List.map_map, List.map_map,
    nonzero_append, nonzero_append]
  congr 1
  · congr 1
    exact List.map_congr_left fun i _ => (pointer_direct hv i).symm
  · have hentry : (List.range NINDIRECT).map (pointer t data ∘ fun j => (((t.inode ip).inum, NDIRECT), [j])) =
        (List.range NINDIRECT).map fun j => if (t.inode ip).addr NDIRECT = 0 then 0
          else entry (data ((t.inode ip).addr NDIRECT)) j :=
      List.map_congr_left fun j _ => pointer_indirect hv j
    rw [hentry, indirectBlocks]
    by_cases h0 : (t.inode ip).addr NDIRECT = 0
    · simp [h0, pointer_direct hv, nonzero]
    · simp [h0, pointer_direct hv, nonzero]

theorem isCell_truncated (htype : (t.inode ip).type = T_FILE ∨ (t.inode ip).type = T_DIR) {c : Cell}
    (hc : c ∈ truncated (t.inode ip).inum) : IsCell t data c := by
  have hcurrent : (t.current data (t.inode ip).inum).type = T_FILE ∨
      (t.current data (t.inode ip).inum).type = T_DIR := by rwa [hv.current]
  rcases List.mem_append.mp hc with hc | hc
  · obtain ⟨i, hi, rfl⟩ := List.mem_map.mp hc
    rw [List.mem_range] at hi
    exact ⟨hcurrent, hv.lt, Nat.lt_add_right 3 hi, Nat.zero_le _, nofun⟩
  · rcases List.mem_append.mp hc with hc | hc
    · obtain ⟨j, hj, rfl⟩ := List.mem_map.mp hc
      refine ⟨hcurrent, hv.lt, Nat.lt_add_of_pos_right (by decide), Nat.le_refl 1, fun i hi => ?_⟩
      rw [List.mem_singleton.mp hi]
      exact List.mem_range.mp hj
    · rw [List.mem_singleton.mp hc]
      exact ⟨hcurrent, hv.lt, Nat.lt_add_of_pos_right (by decide), Nat.zero_le _, nofun⟩

/-- Without a double and a triple indirect block, the whole tree is visited. -/
theorem owned_iff (h₁ : (t.inode ip).addr (NDIRECT + 1) = 0) (h₂ : (t.inode ip).addr (NDIRECT + 2) = 0)
    (htype : (t.inode ip).type = T_FILE ∨ (t.inode ip).type = T_DIR) :
    x ∈ owned t data (t.inode ip).inum ↔ x ∈ truncatedBlocks data (t.inode ip) := by
  rw [truncatedBlocks_eq hv, mem_nonzero, List.mem_map]
  constructor
  · rintro ⟨hne, ⟨⟨inum, slot⟩, is⟩, hc, rfl, rfl⟩
    refine ⟨⟨_, ?_, rfl⟩, hne⟩
    obtain ⟨-, -, hslot, hdepth, hpath⟩ := hc
    dsimp only at hslot hdepth hpath hne ⊢
    by_cases hdirect : slot < NDIRECT
    · have hnil : is = [] := List.length_eq_zero_iff.mp (by rw [height] at hdepth; omega)
      subst hnil
      exact List.mem_append_left _ (List.mem_map.mpr ⟨slot, List.mem_range.mpr hdirect, rfl⟩)
    by_cases hind : slot = NDIRECT
    · subst hind
      refine List.mem_append_right _ (List.mem_append.mpr ?_)
      rcases is with _ | ⟨j, _ | ⟨l, is⟩⟩
      · exact .inr (List.mem_singleton.mpr rfl)
      · exact .inl (List.mem_map.mpr ⟨j, List.mem_range.mpr (hpath j List.mem_cons_self), rfl⟩)
      · exact absurd hdepth (by rw [height]; simp)
    -- The other cells hold nothing.
    have hroot : root t data ((t.inode ip).inum, slot) = 0 := by
      rw [root, hv.current]
      have hcases : slot = NDIRECT + 1 ∨ slot = NDIRECT + 2 := by omega
      rcases hcases with rfl | rfl
      · exact h₁
      · exact h₂
    exact absurd (by rw [pointer, value, hroot, follow_zero]) hne
  · rintro ⟨⟨c, hc, rfl⟩, hne⟩
    refine ⟨hne, c, isCell_truncated hv htype hc, ?_, rfl⟩
    rcases List.mem_append.mp hc with hc | hc
    · obtain ⟨i, -, rfl⟩ := List.mem_map.mp hc
      rfl
    · rcases List.mem_append.mp hc with hc | hc
      · obtain ⟨j, -, rfl⟩ := List.mem_map.mp hc
        rfl
      · rw [List.mem_singleton.mp hc]

end Tree

/-! ### `itrunc` -/

/-- `itrunc` returns, has cleared the marks of all blocks in the tree of the inode and no others, and
    the inode is empty. -/
structure GivesBack (S : Nat → Prop) [DecidablePred S] (t : Mem) (data : Nat → Block) (ip : Ip) :
    Prop where
  returns : wp ((itrunc ip).run (array S)) (fun _ s =>
    (∀ x, used t.sb s.2.data x = true ↔
      used t.sb data x = true ∧ x ∉ owned t data (t.inode ip).inum) ∧
    (∀ slot < NDIRECT + 3, (s.1.inode ip).addr slot = 0) ∧ (s.1.inode ip).size = 0)
    (fun _ _ => False) (t, ⟨data, []⟩)

theorem ensures_bfree : (bfree b).Ensures (fun _ t' => t' = t) t := by
  refine ensures_bind.mpr (ensures_bind.mpr fun d => ensures_ite (fun _ => trivial) fun _ => ?_)
  exact ensures_bind.mpr rfl

/-- `itrunc` does not look at the double and the triple indirect block. -/
theorem ensures_itrunc_addr (hslot : NDIRECT < slot) :
    (itrunc ip).Ensures (fun _ t' => (t'.inode ip).addr slot = (t.inode ip).addr slot) t := by
  have hset : ∀ (t : Mem) i, i ≤ NDIRECT → ((t.setEntry ip ((t.inode ip).setAddr i 0)).inode ip).addr slot =
      (t.inode ip).addr slot := fun t i hi => by
    rw [setEntry_self]
    exact addr_setAddr_other _ (by omega)
  have hdirect : ∀ (is : List Nat) (t : Mem), (∀ i ∈ is, i < NDIRECT) → (truncDirect ip is).Ensures
      (fun _ t' => (t'.inode ip).addr slot = (t.inode ip).addr slot) t := by
    intro is
    induction is with
    | nil => exact fun _ _ => rfl
    | cons i is ih =>
      intro t his
      have his' : ∀ j ∈ is, j < NDIRECT := fun j hj => his j (List.mem_cons_of_mem _ hj)
      rw [truncDirect, ensures_bind, ensures_inodeOf]
      refine ensures_ite (fun _ => ?_) fun _ => ih t his'
      rw [ensures_bind]
      refine ensures_mono ensures_bfree ?_
      rintro _ t₁ rfl
      rw [ensures_bind, ensures_setInode]
      exact ensures_mono (ih _ his') fun _ t₂ h => h.trans (hset t₁ i (his i List.mem_cons_self).le)
  have hentries : ∀ (d : Block) (js : List Nat) (t : Mem), (truncEntries d js).Ensures
      (fun _ t' => t' = t) t := by
    intro d js
    induction js with
    | nil => exact fun _ => rfl
    | cons j js ih =>
      intro t
      refine ensures_ite (fun _ => ?_) fun _ => ih t
      rw [ensures_bind]
      refine ensures_mono ensures_bfree ?_
      rintro _ t₁ rfl
      exact ih t₁
  have hindirect : ∀ t : Mem, (truncIndirect ip).Ensures
      (fun _ t' => (t'.inode ip).addr slot = (t.inode ip).addr slot) t := by
    intro t
    rw [truncIndirect, ensures_bind, ensures_inodeOf]
    refine ensures_ite (fun _ => ?_) fun _ => rfl
    refine ensures_bind.mpr (ensures_bread fun d => ensures_bind.mpr (ensures_mono (hentries d _ t) ?_))
    rintro _ t₁ rfl
    refine ensures_bind.mpr (ensures_brelse (ensures_bind.mpr (ensures_mono ensures_bfree ?_)))
    rintro _ t₂ rfl
    exact hset _ NDIRECT (Nat.le_refl _)
  rw [itrunc, ensures_bind]
  refine ensures_mono (hdirect _ t fun i hi => List.mem_range.mp hi) fun _ t₁ h₁ => ?_
  rw [ensures_bind]
  refine ensures_mono (hindirect t₁) fun _ t₂ h₂ => ?_
  rw [ensures_bind, ensures_setInode]
  refine ensures_iupdate ?_
  rw [setEntry_self]
  exact h₂.trans h₁

variable [DecidablePred S]

/-- `iupdate` changes only a block of inodes. -/
theorem wp_iupdate_block (hl : Layout S t.sb) (hlt : (t.inode ip).inum < t.sb.ninodes) :
    wp ((iupdate ip).run (array S)) (fun _ s => ∃ d, s =
      (t, ⟨Function.update data (iblock t.sb (t.inode ip).inum) d, []⟩)) E (t, ⟨data, []⟩) := by
  rw [iupdate, wp_run_bind, wp_run_get, wp_run_bind]
  refine (Flat.wp_bread (offers_iblock hl hlt) List.not_mem_nil).mpr ?_
  rw [wp_run_bind]
  refine (Flat.wp_store List.mem_cons_self).mpr ?_
  exact (Flat.wp_brelse List.not_mem_nil).mpr ⟨_, rfl⟩

/-- `itrunc` frees the blocks of the cells that it visits. -/
theorem wp_itrunc (hl : Layout S t.sb) (hv : Valid t ip) (hwf : WellFormed t data)
    (htype : (t.inode ip).type = T_FILE ∨ (t.inode ip).type = T_DIR) :
    wp ((itrunc ip).run (array S)) (fun _ s =>
      (∀ x, used t.sb s.2.data x =
        (decide (x ∉ truncatedBlocks data (t.inode ip)) && used t.sb data x)) ∧
      (∀ slot, (s.1.inode ip).addr slot = if slot ≤ NDIRECT then 0 else (t.inode ip).addr slot) ∧
      (s.1.inode ip).size = 0) E (t, ⟨data, []⟩) := by
  have hfree : Freeable t.sb data (truncatedBlocks data (t.inode ip)) := by
    rw [truncatedBlocks_eq hv]
    exact hwf.freeable (nodup_truncated _) fun c hc => isCell_truncated hv htype hc
  rw [itrunc, wp_run_bind]
  have hslots : ∀ i ∈ List.range NDIRECT, i < NDIRECT + 3 := fun i hi =>
    Nat.lt_add_right 3 (List.mem_range.mp hi)
  refine wp_mono (wp_truncDirect hl List.nodup_range hslots hfree.left nofun) ?_ fun _ _ he => he
  rintro _ _ ⟨a, rfl, ha⟩
  obtain ⟨L₁, hL₁⟩ : ∃ L₁, L₁ = nonzero ((List.range NDIRECT).map (t.inode ip).addr) := ⟨_, rfl⟩
  rw [truncatedBlocks, ← hL₁] at hfree ⊢
  -- The indirect block is as before.
  have hentry : (t.withAddrs ip a).inode ip = { t.inode ip with addrs := a } := inode_withAddrs a
  have haddr : ((t.withAddrs ip a).inode ip).addr NDIRECT = (t.inode ip).addr NDIRECT := by
    rw [hentry, ha, if_neg (by simp)]
  have hblock : (t.inode ip).addr NDIRECT ≠ 0 → t.sb.dataStart ≤ (t.inode ip).addr NDIRECT := by
    intro h0
    have hcell : IsCell t data (((t.inode ip).inum, NDIRECT), []) :=
      isCell_truncated hv htype (List.mem_append_right _ (List.mem_append_right _ List.mem_cons_self))
    have hpointer : pointer t data (((t.inode ip).inum, NDIRECT), []) = (t.inode ip).addr NDIRECT :=
      pointer_direct hv NDIRECT
    rw [← hpointer] at h0 ⊢
    exact (hwf.block _ hcell h0).1
  have hindirect : indirectBlocks (L₁.foldl (release t.sb) data) ((t.inode ip).addr NDIRECT) =
      indirectBlocks data ((t.inode ip).addr NDIRECT) := by
    unfold indirectBlocks
    by_cases h0 : (t.inode ip).addr NDIRECT = 0
    · rw [if_pos h0, if_pos h0]
    · rw [if_neg h0, if_neg h0, foldl_release_data (fun x hx => hfree.left.lt x hx) (hblock h0)]
  have hright := hfree.right
  rw [← hindirect, ← haddr] at hright
  rw [wp_run_bind]
  refine wp_mono (wp_truncIndirect hl nofun hright fun h0 => ⟨?_, List.not_mem_nil⟩) ?_
    fun _ _ he => he
  · rw [haddr] at h0 ⊢
    exact hblock h0
  rintro _ _ ⟨a₂, rfl, ha₂⟩
  rw [haddr, hindirect, withAddrs_twice]
  rw [wp_run_bind, wp_run_setInode]
  obtain ⟨data₂, hdata₂⟩ : ∃ data₂, data₂ = (indirectBlocks data ((t.inode ip).addr NDIRECT)).foldl
    (release (t.withAddrs ip a).sb) (L₁.foldl (release t.sb) data) := ⟨_, rfl⟩
  rw [← hdata₂]
  have hsize : ((t.withAddrs ip a₂).setEntry ip { (t.withAddrs ip a₂).inode ip with size := 0 }).inode ip =
      { t.inode ip with addrs := a₂, size := 0 } := by
    rw [setEntry_self, inode_withAddrs]
  refine wp_mono (wp_iupdate_block
    (t := (t.withAddrs ip a₂).setEntry ip { (t.withAddrs ip a₂).inode ip with size := 0 }) hl
    (by rw [hsize]; exact hv.lt)) ?_ fun _ _ he => he
  rintro _ _ ⟨d, rfl⟩
  refine ⟨fun x => ?_, fun slot => ?_, ?_⟩
  · have hne : bblock t.sb x ≠ iblock t.sb (t.inode ip).inum := fun heq => by
      have hlt := iblock_lt hl hv.lt
      have hge : t.sb.bmapstart ≤ bblock t.sb x := Nat.le_add_left ..
      omega
    have hsame : used t.sb (Function.update data₂ (iblock t.sb (t.inode ip).inum) d) x =
        used t.sb data₂ x := used_congr (Function.update_of_ne hne _ _)
    dsimp only
    rw [hsize]
    refine hsame.trans ?_
    rw [hdata₂, withAddrs_sb, ← List.foldl_append]
    exact used_foldl_release
  · dsimp only
    rw [hsize]
    refine (ha₂ slot).trans ?_
    rw [hentry]
    by_cases hslot : slot = NDIRECT
    · rw [if_pos hslot, if_pos hslot.le]
    · rw [if_neg hslot]
      refine (ha slot).trans ?_
      by_cases hlt : slot < NDIRECT
      · rw [if_pos (List.mem_range.mpr hlt), if_pos hlt.le]
      · rw [if_neg fun h => hlt (List.mem_range.mp h), if_neg (by omega)]
  · dsimp only
    rw [hsize]

theorem GivesBack.addr_zero {s : Mem × Flat Block} (h : GivesBack S t data ip)
    (hrun : (itrunc ip).run (array S) (t, ⟨data, []⟩) = .ok () s) :
    ∀ slot < NDIRECT + 3, (s.1.inode ip).addr slot = 0 := (wp_ok h.returns hrun).2.1

/-- `itrunc` gives back all blocks of an inode if and only if it has neither a double nor a triple
    indirect block. -/
theorem itrunc_frees (hl : Layout S t.sb) (hv : Valid t ip) (hwf : WellFormed t data)
    (htype : (t.inode ip).type = T_FILE ∨ (t.inode ip).type = T_DIR) :
    GivesBack S t data ip ↔
      (t.inode ip).addr (NDIRECT + 1) = 0 ∧ (t.inode ip).addr (NDIRECT + 2) = 0 := by
  constructor
  · intro hgives
    have hkept : ∀ slot, NDIRECT < slot → slot < NDIRECT + 3 → (t.inode ip).addr slot = 0 := by
      intro slot hslot hlt
      obtain ⟨_, s, hrun, -⟩ := wp_returns hgives.returns
      have hsame := wp_ok ((ensures_itrunc_addr hslot).run (array S) ⟨data, []⟩) hrun
      exact hsame.symm.trans (hgives.addr_zero hrun slot hlt)
    exact ⟨hkept _ (by simp) (by simp), hkept _ (by simp) (by simp)⟩
  · rintro ⟨h₁, h₂⟩
    refine ⟨wp_mono (wp_itrunc hl hv hwf htype) ?_ fun _ _ he => he⟩
    rintro _ s ⟨hused, haddr, hsize⟩
    refine ⟨fun x => ?_, fun slot hslot => ?_, hsize⟩
    · rw [hused, Bool.and_eq_true, decide_eq_true_eq, owned_iff hv h₁ h₂ htype, and_comm]
    · rw [haddr]
      by_cases hle : slot ≤ NDIRECT
      · exact if_pos hle
      · rw [if_neg hle]
        have hcases : slot = NDIRECT + 1 ∨ slot = NDIRECT + 2 := by omega
        rcases hcases with rfl | rfl
        · exact h₁
        · exact h₂

/-! ### A file of 139 blocks -/

/-- A file whose last block is behind the double indirect block 143: ten direct blocks from block 4 on,
    the indirect block 14 with the blocks 15 to 142, and block 145 behind the blocks 143 and 144. -/
def longFile : Inode where
  inum := 1
  ref := 1
  valid := true
  type := T_FILE
  nlink := 1
  size := 139 * BSIZE
  addrs := fun i =>
    if i.val % 4 ≠ 0 then 0 else if i.val < 44 then UInt8.ofNat (4 + i.val / 4)
    else if i.val = 44 then 143 else 0

/-- The inode cache with the file. -/
def longMem : Mem := { newFile with inode := fun ip => if ip = 0 then longFile else {} }

/-- The disk with the file. -/
def longDisk (b : Nat) : Block :=
  if b = 2 then writeDinode (fun _ => 0) longFile
  else if b = 3 then fun i => if i.val < 18 then 255 else if i.val = 18 then 3 else 0
  else if b = 14 then fun i => if i.val % 4 = 0 then UInt8.ofNat (15 + i.val / 4) else 0
  else if b = 143 then fun i => if i.val = 0 then 144 else 0
  else if b = 144 then fun i => if i.val = 0 then 145 else 0
  else fun _ => 0

theorem longMem_valid : Valid longMem 0 := ⟨by decide +kernel, rfl, by decide⟩

/-- The block numbers of the file. -/
theorem longFile_addr : ∀ slot < 13, longFile.addr slot = if slot < 11 then 4 + slot else
    if slot = 11 then 143 else 0 := by decide +kernel

theorem longDisk_entries : ∀ j < 128, entry (longDisk 14) j = 15 + j ∧
    entry (longDisk 143) j = (if j = 0 then 144 else 0) ∧
    entry (longDisk 144) j = (if j = 0 then 145 else 0) := by decide +kernel

/-- The cell that holds a block of the file. -/
def longCell (b : Nat) : Cell :=
  if b < 15 then ((1, b - 4), [])
  else if b < 143 then ((1, 10), [b - 15])
  else if b = 143 then ((1, 11), [])
  else if b = 144 then ((1, 11), [0])
  else ((1, 11), [0, 0])

theorem longMem_pointer {c : Cell} (hc : IsCell longMem longDisk c)
    (hne : pointer longMem longDisk c ≠ 0) : c = longCell (pointer longMem longDisk c) ∧
      4 ≤ pointer longMem longDisk c ∧ pointer longMem longDisk c ≤ 145 := by
  obtain ⟨⟨inum, slot⟩, is⟩ := c
  obtain ⟨-, hlt, hslot, hdepth, hpath⟩ := hc
  have hother : ∀ inum < 4, inum ≠ 1 → ∀ slot < 13, (longMem.current longDisk inum).addr slot = 0 := by
    decide +kernel
  have hroot : root longMem longDisk (inum, slot) ≠ 0 := fun h0 => hne (by
    rw [pointer, value, h0, follow_zero])
  have hinum : inum = 1 := by
    by_contra hinum
    exact hroot (hother inum hlt hinum slot hslot)
  subst hinum
  have haddr : root longMem longDisk (1, slot) = _ :=
    (congrArg (Inode.addr · slot) longMem_valid.current).trans (longFile_addr slot hslot)
  dsimp only at hdepth hpath
  rw [pointer, value, haddr] at hne ⊢
  rw [haddr] at hroot
  have hentries := longDisk_entries
  by_cases h₁ : slot < 10
  · have hnil : is = [] := List.length_eq_zero_iff.mp (by rw [height, NDIRECT] at hdepth; omega)
    subst hnil
    rw [if_pos (by omega), follow_nil, longCell, if_pos (by omega)]
    refine ⟨?_, by omega, by omega⟩
    rw [Nat.add_sub_cancel_left]
  by_cases h₂ : slot = 10
  · subst h₂
    rcases is with _ | ⟨j, _ | ⟨l, is⟩⟩
    · exact ⟨rfl, by decide, by decide⟩
    · have hj : j < 128 := hpath j List.mem_cons_self
      have hfollow : follow (entries longDisk) 14 [j] = 15 + j := (hentries j hj).1
      rw [if_pos (by decide), hfollow, longCell, if_neg (by omega), if_pos (by omega)]
      refine ⟨?_, by omega, by omega⟩
      rw [Nat.add_sub_cancel_left]
    · exact absurd hdepth (by simp [height, NDIRECT])
  by_cases h₃ : slot = 11
  · subst h₃
    rcases is with _ | ⟨j, _ | ⟨l, _ | ⟨l', is⟩⟩⟩
    · exact ⟨rfl, by decide, by decide⟩
    · have hj : j < 128 := hpath j List.mem_cons_self
      have hfollow : follow (entries longDisk) 143 [j] = if j = 0 then 144 else 0 := (hentries j hj).2.1
      rw [if_neg (by decide), if_pos rfl, hfollow] at hne ⊢
      by_cases hj0 : j = 0
      · subst hj0
        exact ⟨rfl, by decide, by decide⟩
      · rw [if_neg hj0] at hne
        exact absurd rfl hne
    · have hj : j < 128 := hpath j List.mem_cons_self
      have hl : l < 128 := hpath l (List.mem_cons_of_mem _ List.mem_cons_self)
      have hfollow : follow (entries longDisk) 143 [j, l] =
          follow (entries longDisk) (if j = 0 then 144 else 0) [l] := by
        rw [follow_cons (by decide), ← (hentries j hj).2.1]
        rfl
      rw [if_neg (by decide), if_pos rfl, hfollow] at hne ⊢
      by_cases hj0 : j = 0
      · have hlast : follow (entries longDisk) 144 [l] = if l = 0 then 145 else 0 := (hentries l hl).2.2
        rw [if_pos hj0, hlast] at hne ⊢
        by_cases hl0 : l = 0
        · subst hj0 hl0
          exact ⟨rfl, by decide, by decide⟩
        · rw [if_neg hl0] at hne
          exact absurd rfl hne
      · rw [if_neg hj0, follow_zero] at hne
        exact absurd rfl hne
    · exact absurd hdepth (by simp [height, NDIRECT])
  · rw [if_neg (by omega), if_neg h₃] at hroot
    exact absurd rfl hroot

theorem longMem_wellFormed : WellFormed longMem longDisk where
  metaUsed := by
    have hused : ∀ b < 4, used longMem.sb longDisk b = true := by decide +kernel
    exact fun b _ hb => hused b hb
  forest c c' hc hc' heq hne := by
    have hsame : pointer longMem longDisk c = pointer longMem longDisk c' := heq
    rw [(longMem_pointer hc hne).1, hsame, ← (longMem_pointer hc' (hsame ▸ hne)).1]
  block c hc hne := by
    obtain ⟨-, hlow, hhigh⟩ := longMem_pointer hc hne
    have hused : ∀ b < 146, used longMem.sb longDisk b = true := by decide +kernel
    exact ⟨hlow, Nat.lt_of_le_of_lt hhigh (by decide), hused _ (by omega)⟩

/-- After `itrunc` of the file the blocks 143 to 145 are lost: they are marked, and the inode still has
    the number of the double indirect block. -/
theorem itrunc_loses : ¬ GivesBack (fun _ => True) longMem longDisk 0 ∧
    ∃ s, (itrunc 0).run (array fun _ => True) (longMem, ⟨longDisk, []⟩) = .ok () s ∧
      (∀ b, 143 ≤ b → b < 146 → used longMem.sb s.2.data b = true) ∧ (s.1.inode 0).addr 11 = 143 := by
  have hlayout : Layout (fun _ => True) longMem.sb := newFile_layout
  obtain ⟨_, s, hrun, hused, haddr, -⟩ := wp_returns
    (wp_itrunc hlayout longMem_valid longMem_wellFormed (.inl rfl))
  have hslot : (s.1.inode 0).addr 11 = 143 := by
    have hfile : (longMem.inode 0).addr 11 = 143 := by decide +kernel
    rw [haddr, if_neg (by decide), hfile]
  refine ⟨fun hgives => ?_, s, hrun, fun b h₁ h₂ => ?_, hslot⟩
  · have hzero := hgives.addr_zero hrun 11 (by decide)
    exact absurd (hslot.symm.trans hzero) (by decide)
  · have hlost : ∀ b < 146, 143 ≤ b → b ∉ truncatedBlocks longDisk longFile := by decide +kernel
    have hmarked : ∀ b < 146, used longMem.sb longDisk b = true := by decide +kernel
    rw [hused, hmarked b h₂, Bool.and_true, decide_eq_true_eq]
    exact hlost b h₂ h₁

theorem itrunc_frees_empty : GivesBack (fun _ => True) newFile newDisk 0 :=
  (itrunc_frees newFile_layout newFile_valid newFile_wellFormed (.inl rfl)).mpr
    ⟨by decide +kernel, by decide +kernel⟩

end Xv6.File
