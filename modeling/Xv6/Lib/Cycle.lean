import Xv6.Lib.Chain

namespace Xv6.Lib

/-!
# Library — going round a list

A list is gone through in cyclic order, each time from the element behind the one at which the last
search has ended.

* `Behind` — the list in the order of a search that starts behind an element;
* `Chain.isChain_behind` — a linked list is followed in this order, if one goes back to the first
  element at the end;
* `Behind.perm_filter` — searches one after the other find all elements that pass the test before
  they find one again.
-/

variable {α : Type*} {xs ys as bs us vs : List α} {a b t z : α} {p : α → Bool}

/-- `ys` is the list `xs` from the element behind `a` on, with `a` last. -/
def Behind (xs : List α) (a : α) (ys : List α) : Prop :=
  ∃ us vs, xs = us ++ a :: vs ∧ ys = vs ++ us ++ [a]

theorem exists_behind (h : a ∈ xs) : ∃ ys, Behind xs a ys := by
  obtain ⟨us, vs, rfl⟩ := List.append_of_mem h
  exact ⟨_, us, vs, rfl, rfl⟩

theorem Behind.perm (h : Behind xs a ys) : ys.Perm xs := by
  obtain ⟨us, vs, rfl, rfl⟩ := h
  have hswap : (vs ++ us ++ [a]).Perm (us ++ vs ++ [a]) :=
    List.perm_append_comm.append_right [a]
  refine hswap.trans ?_
  rw [List.append_assoc]
  exact (List.perm_append_singleton a vs).append_left us

/-- The search goes on behind an element that it has found. -/
theorem Behind.move (h : Behind xs a (as ++ t :: bs)) : Behind xs t (bs ++ as ++ [t]) := by
  obtain ⟨us, vs, rfl, heq⟩ := h
  rcases List.eq_nil_or_concat bs with rfl | ⟨bs, x, rfl⟩
  · -- The search has come back to `a`.
    obtain ⟨rfl, hta⟩ := List.append_inj' heq rfl
    obtain rfl := List.singleton_inj.mp hta
    exact ⟨us, vs, rfl, by simp⟩
  · rw [List.concat_eq_append, ← List.cons_append, ← List.append_assoc] at heq
    obtain ⟨hfront, hxa⟩ := List.append_inj' heq rfl
    obtain rfl := List.singleton_inj.mp hxa
    rcases List.append_eq_append_iff.mp hfront with ⟨cs, rfl, htail⟩ | ⟨cs, rfl, htail⟩
    · cases cs with
      | nil =>
        rw [List.nil_append] at htail
        subst htail
        exact ⟨[], bs ++ x :: as, by simp, by simp⟩
      | cons c cs =>
        obtain ⟨rfl, rfl⟩ := List.cons.inj htail
        exact ⟨us ++ x :: as, cs, by simp, by simp⟩
    · subst htail
      exact ⟨cs, bs ++ x :: vs, by simp, by simp⟩

/-- The elements that pass the test come in cyclic order. -/
theorem Behind.filter (h : Behind xs a ys) (ht : ys.find? p = some t) :
    (ys.filter p).head? = some t ∧ ∃ zs, Behind xs t zs ∧ zs.filter p = (ys.filter p).rotate 1 := by
  obtain ⟨hpt, as, bs, rfl, has⟩ := List.find?_eq_some_iff_append.mp ht
  have hnil : as.filter p = [] := by
    rw [List.filter_eq_nil_iff]
    intro b hb
    simpa using has b hb
  have hfilter : (as ++ t :: bs).filter p = t :: bs.filter p := by
    rw [List.filter_append, hnil, List.nil_append, List.filter_cons_of_pos hpt]
  refine ⟨by rw [hfilter]; rfl, _, h.move, ?_⟩
  rw [hfilter, List.rotate_cons_succ, List.rotate_zero, List.filter_append, List.filter_append, hnil,
    List.append_nil, List.filter_cons_of_pos hpt, List.filter_nil]

/-- The searches, each from behind the element that the one before has found, find all elements that
    pass the test before they find one again. -/
theorem perm_searches {c : Nat → α} (h0 : c 0 ∈ xs)
    (hstep : ∀ i ys, Behind xs (c i) ys → ys.find? p = some (c (i + 1))) (i : Nat) :
    ((List.range (xs.filter p).length).map fun j => c (i + j + 1)).Perm (xs.filter p) := by
  obtain ⟨ys, hys⟩ := exists_behind h0
  have hperm : (ys.filter p).Perm (xs.filter p) := hys.perm.filter p
  -- The order of the next searches moves on by one each time.
  have horder : ∀ i, ∃ zs, Behind xs (c i) zs ∧ zs.filter p = (ys.filter p).rotate i := by
    intro i
    induction i with
    | zero => exact ⟨ys, hys, (List.rotate_zero _).symm⟩
    | succ i ih =>
      obtain ⟨zs, hzs, hrotate⟩ := ih
      obtain ⟨-, zs', hzs', hrotate'⟩ := hzs.filter (hstep i zs hzs)
      exact ⟨zs', hzs', by rw [hrotate', hrotate, List.rotate_rotate]⟩
  have hfind : ∀ i, ((ys.filter p).rotate i).head? = some (c (i + 1)) := by
    intro i
    obtain ⟨zs, hzs, hrotate⟩ := horder i
    rw [← hrotate]
    exact (hzs.filter (hstep i zs hzs)).1
  have hlist : ((List.range (xs.filter p).length).map fun j => c (i + j + 1)) =
      (ys.filter p).rotate i := by
    apply List.ext_getElem
    · rw [List.length_map, List.length_range, List.length_rotate, hperm.length_eq]
    · intro j hj hj'
      have hat := hfind (i + j)
      rw [← List.rotate_rotate, List.head?_rotate hj', List.getElem?_eq_getElem hj'] at hat
      rw [List.getElem_map, List.getElem_range]
      exact (Option.some.inj hat).symm
  rw [hlist]
  exact (List.rotate_perm _ _).trans hperm

/-! ### Linked lists -/

section Linked

variable {next : α → Option α} {h : Option α} {m : α}

/-- A linked list that ends, and then `ys`, is followed from `a` on. -/
theorem Chain.isChain_append (hc : Chain next (next a) vs)
    (hys : ∀ z, next z = none → List.IsChain (fun a b => (next a).getD m = b) (z :: ys)) :
    List.IsChain (fun a b => (next a).getD m = b) (a :: (vs ++ ys)) := by
  induction vs generalizing a with
  | nil => exact hys a (chain_nil_iff.mp hc)
  | cons v vs ih =>
    obtain ⟨hv, hrest⟩ := chain_cons_iff.mp hc
    rw [List.cons_append, List.isChain_cons_cons]
    exact ⟨by rw [hv]; rfl, ih hrest⟩

theorem Seg.isChain_append (hs : Seg next (some b) us (some t)) (ha : (next a).getD m = b) :
    List.IsChain (fun a b => (next a).getD m = b) (a :: (us ++ [t])) := by
  induction us generalizing a b with
  | nil =>
    rw [seg_nil_iff] at hs
    cases hs
    exact List.isChain_cons_cons.mpr ⟨ha, List.IsChain.singleton _⟩
  | cons u us ih =>
    rw [seg_cons_iff] at hs
    obtain ⟨hu, hrest⟩ := hs
    obtain rfl := Option.some.inj hu
    rw [List.cons_append, List.isChain_cons_cons]
    refine ⟨ha, ?_⟩
    cases hn : next b with
    | none =>
      rw [hn] at hrest
      cases us with
      | nil =>
        rw [seg_nil_iff] at hrest
        cases hrest
      | cons v vs =>
        rw [seg_cons_iff] at hrest
        cases hrest.1
    | some d =>
      rw [hn] at hrest
      exact ih hrest (by rw [hn]; rfl)

/-- Following a linked list, and going back to its first element at its end. -/
theorem Chain.isChain_behind (hc : Chain next (some m) xs) (hys : Behind xs a ys) :
    List.IsChain (fun a b => (next a).getD m = b) (a :: ys) := by
  obtain ⟨us, vs, rfl, rfl⟩ := hys
  obtain ⟨e, hseg, hrest⟩ := chain_append_iff.mp hc
  obtain ⟨rfl, hvs⟩ := chain_cons_iff.mp hrest
  rw [List.append_assoc]
  exact hvs.isChain_append fun z hz => hseg.isChain_append (by rw [hz]; rfl)

end Linked

end Xv6.Lib
