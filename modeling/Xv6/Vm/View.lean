import Xv6.Vm.Access

namespace Xv6.Vm

open Xv6.Thread (Stop PGSIZE KERNBASE)
open Xv6.Lib
open scoped List

/-!
# Memory — what the operations of `vm.c` do to the memory that a program sees

A program sees neither page tables nor physical pages, only the bytes of its own pages.

* `view` — an address space as its program sees it;
* `Clears`, `allocLoop_view`, `copyLoop_view` — growing, shrinking and copying, in these terms;
* `copyout_view` — `copyout` writes byte by byte until it meets a page that is not for the user.

Everything rests on `entry_inj`: no page is mapped twice, so that a write to one page is not seen in
another one.
-/

variable {m m' m₁ : Mem} {d d' d₁ src : Dir} {a b n lo hi : Nat} {p : Page} {e e' : Pte}

/-- A page of user memory: is it for the user, and its bytes. -/
structure UserPage where
  user : Bool
  data : Nat → UInt8

/-- The memory of a program, page by page. -/
abbrev View := Nat → Option UserPage

/-- An address space as its program sees it. -/
def view (m : Mem) (d : Dir) : View := fun a =>
  if a < USERPAGES then (d.entry a).map fun e => ⟨e.user, m.data e.page⟩ else none

/-- The pages from `lo` to `hi` are not mapped. -/
def View.drop (v : View) (lo hi : Nat) : View := fun b => if lo ≤ b ∧ b < hi then none else v b

/-- The pages from `lo` to `hi` are new. -/
def View.zeros (v : View) (lo hi : Nat) : View := fun b =>
  if lo ≤ b ∧ b < hi then some ⟨true, fun _ => 0⟩ else v b

/-- The pages below `n`. -/
def View.below (v : View) (n : Nat) : View := fun b => if b < n then v b else none

/-- The page `a` is taken from the user. -/
def View.hide (v : View) (a : Nat) : View :=
  Function.update v a ((v a).map fun x => { x with user := false })

/-- Some bytes of a page, from `off` on. -/
def writeAt (f : Nat → UInt8) (off : Nat) (buf : List UInt8) : Nat → UInt8 := fun i =>
  if off ≤ i ∧ i < off + buf.length then buf.getD (i - off) 0 else f i

/-- Some bytes are written one after the other, until a page is not for the user; `false` if there is
    such a page. -/
def View.put (v : View) (va : Nat) : List UInt8 → Bool × View
  | [] => (true, v)
  | b :: buf =>
    match v (va / PGSIZE) with
    | some ⟨true, f⟩ =>
      View.put (Function.update v (va / PGSIZE) (some ⟨true, writeAt f (va % PGSIZE) [b]⟩)) (va + 1) buf
    | _ => (false, v)

/-- The byte that a program reads, if the page is for the user. -/
def View.get (v : View) (va : Nat) : Option UInt8 :=
  match v (va / PGSIZE) with
  | some ⟨true, f⟩ => some (f (va % PGSIZE))
  | _ => none

/-! ### Views -/

theorem view_user (ha : a < USERPAGES) :
    view m d a = (d.entry a).map fun e => ⟨e.user, m.data e.page⟩ := if_pos ha

theorem view_kernel (ha : ¬ a < USERPAGES) : view m d a = none := if_neg ha

theorem view_congr (hentry : ∀ a < USERPAGES, d'.entry a = d.entry a)
    (hdata : ∀ p ∈ d.pages, m'.data p = m.data p) : view m' d' = view m d := by
  funext a
  by_cases ha : a < USERPAGES
  · rw [view_user ha, view_user ha, hentry a ha]
    cases he : d.entry a with
    | none => rfl
    | some e => simp only [Option.map_some, hdata e.page (entry_mem_pages ha he)]
  · rw [view_kernel ha, view_kernel ha]

/-- One entry is assigned to, and no other page is written. -/
theorem view_update (ha : a < USERPAGES) {x : Option Pte} (hentry : d'.entry = Function.update d.entry a x)
    (hdata : ∀ b, b ≠ a → b < USERPAGES → ∀ e, d.entry b = some e → m'.data e.page = m.data e.page) :
    view m' d' = Function.update (view m d) a (x.map fun e => ⟨e.user, m'.data e.page⟩) := by
  funext b
  by_cases hb : b = a
  · rw [hb, view_user ha, hentry, Function.update_self, Function.update_self]
  · rw [Function.update_of_ne hb]
    by_cases hlt : b < USERPAGES
    · rw [view_user hlt, view_user hlt, hentry, Function.update_of_ne hb]
      cases he : d.entry b with
      | none => rfl
      | some e => simp only [Option.map_some, hdata b hb hlt e he]
    · rw [view_kernel hlt, view_kernel hlt]

/-- No page is mapped twice. -/
theorem entry_inj (hnodup : d.pages.Nodup) (ha : a < USERPAGES) (hb : b < USERPAGES)
    (hea : d.entry a = some e) (heb : d.entry b = some e') (hpage : e.page = e'.page) : a = b := by
  by_contra hne
  have hw := Dir.entry_eq_some.mp hea
  have hset := pages_setPte_none ha hw
  have hrest : (d.setPte a none).entry b = some e' := by
    rw [entry_setPte ha (by rw [hw]; nofun), Function.update_of_ne (Ne.symm hne), heb]
  have hmem := entry_mem_pages hb hrest
  have hnodup' := hset.nodup_iff.mp hnodup
  exact (List.nodup_cons.mp hnodup').1 (hpage ▸ hmem)

/-- A change elsewhere is not seen. -/
theorem Conserves.view_other (h : Conserves m d m' d') (hd : ∀ p ∈ d₁.pages, p ∉ m.free ++ d.pages) :
    view m' d₁ = view m d₁ :=
  view_congr (fun _ _ => rfl) fun p hp => h.data p (hd p hp)

/-! ### Shrinking -/

/-- No page of the free list and of the address space is there twice. -/
def Distinct (m : Mem) (d : Dir) : Prop := (m.free ++ d.pages).Nodup

theorem Conserves.distinct (h : Conserves m d m' d') (hd : Distinct m d) : Distinct m' d' :=
  h.pages.nodup_iff.mpr hd

theorem Distinct.pages (h : Distinct m d) : d.pages.Nodup := (List.nodup_append'.mp h).2.1

/-- The pages with a property are no longer mapped, and all others are as before. -/
structure Clears (s t : Mem × Dir) (P : Nat → Prop) : Prop where
  conserves : Conserves s.1 s.2 t.1 t.2
  gone : ∀ b, P b → view t.1 t.2 b = none
  kept : ∀ b, ¬ P b → view t.1 t.2 b = view s.1 s.2 b

theorem Clears.of_freePage {s t : Mem × Dir} (hd : Distinct s.1 s.2) (ha : a < USERPAGES)
    (h : freePage s a = .ok t) : Clears s t (· = a) := by
  obtain ⟨hcons, hentry⟩ := freePage_spec ha h
  have hdata : ∀ b, b ≠ a → b < USERPAGES → ∀ e, s.2.entry b = some e →
      t.1.data e.page = s.1.data e.page := by
    intro b hba hb e he
    unfold freePage at h
    split at h
    · rename_i e' hw
      split at h
      · cases h
      · cases h
        have hne : e.page ≠ e'.page := fun hpage =>
          hba (entry_inj hd.pages hb ha he (Dir.entry_eq_some.mpr hw) hpage)
        show (Function.update s.1.data e'.page _) e.page = _
        rw [Function.update_of_ne hne]
    · cases h
      rfl
  have hview := view_update ha hentry hdata
  refine ⟨hcons, fun b hb => ?_, fun b hb => ?_⟩
  · rw [hview, hb, Function.update_self, Option.map_none]
  · rw [hview, Function.update_of_ne hb]

/-- A loop clears what the passes through it clear. -/
theorem Clears.foldlM {α : Type*} {f : Mem × Dir → α → Except Stop (Mem × Dir)} {P : α → Nat → Prop}
    {xs : List α} {s t : Mem × Dir} (hd : Distinct s.1 s.2)
    (hf : ∀ s, ∀ x ∈ xs, ∀ t, Distinct s.1 s.2 → f s x = .ok t → Clears s t (P x))
    (h : xs.foldlM f s = .ok t) : Clears s t fun b => ∃ x ∈ xs, P x b := by
  induction xs generalizing s with
  | nil =>
    cases h
    exact ⟨.refl, fun b ⟨x, hx, _⟩ => absurd hx List.not_mem_nil, fun _ _ => rfl⟩
  | cons x xs ih =>
    rw [List.foldlM_cons] at h
    obtain ⟨u, hu, h⟩ := bind_eq_ok.mp h
    have hfirst := hf s x List.mem_cons_self u hd hu
    have hrest := ih (hfirst.conserves.distinct hd)
      (fun s y hy => hf s y (List.mem_cons_of_mem x hy)) h
    refine ⟨hfirst.conserves.trans hrest.conserves, fun b hb => ?_, fun b hb => ?_⟩
    · by_cases hlater : ∃ y ∈ xs, P y b
      · exact hrest.gone b hlater
      · obtain ⟨y, hy, hPy⟩ := hb
        rcases List.mem_cons.mp hy with rfl | hy
        · rw [hrest.kept b hlater, hfirst.gone b hPy]
        · exact absurd ⟨y, hy, hPy⟩ hlater
    · rw [hrest.kept b fun ⟨y, hy, hPy⟩ => hb ⟨y, List.mem_cons_of_mem x hy, hPy⟩,
        hfirst.kept b fun hPx => hb ⟨x, List.mem_cons_self, hPx⟩]

/-- The property matters only for the pages that the program sees. -/
theorem Clears.congr {s t : Mem × Dir} {P Q : Nat → Prop} (h : Clears s t P)
    (hPQ : ∀ b < USERPAGES, view s.1 s.2 b ≠ none → (P b ↔ Q b)) : Clears s t Q := by
  have hsame : ∀ b, ¬ (b < USERPAGES ∧ view s.1 s.2 b ≠ none) →
      view t.1 t.2 b = none ∧ view s.1 s.2 b = none := by
    intro b hb
    by_cases hlt : b < USERPAGES
    · have hnone : view s.1 s.2 b = none := by
        by_contra hne
        exact hb ⟨hlt, hne⟩
      by_cases hP : P b
      · exact ⟨h.gone b hP, hnone⟩
      · exact ⟨(h.kept b hP).trans hnone, hnone⟩
    · exact ⟨view_kernel hlt, view_kernel hlt⟩
  refine ⟨h.conserves, fun b hb => ?_, fun b hb => ?_⟩
  · by_cases hin : b < USERPAGES ∧ view s.1 s.2 b ≠ none
    · exact h.gone b ((hPQ b hin.1 hin.2).mpr hb)
    · exact (hsame b hin).1
  · by_cases hin : b < USERPAGES ∧ view s.1 s.2 b ≠ none
    · exact h.kept b fun hP => hb ((hPQ b hin.1 hin.2).mp hP)
    · rw [(hsame b hin).1, (hsame b hin).2]

theorem Clears.view_eq {s t : Mem × Dir} (h : Clears s t fun b => lo ≤ b ∧ b < hi) :
    view t.1 t.2 = (view s.1 s.2).drop lo hi := by
  funext b
  unfold View.drop
  split
  · exact h.gone b ‹_›
  · exact h.kept b ‹_›

/-- The pages of one page table. -/
theorem Clears.of_freeTable {i : Nat} (hhi : hi ≤ USERPAGES) {s t : Mem × Dir}
    (hd : Distinct s.1 s.2) (h : freeTable lo hi s i = .ok t) :
    Clears s t fun b => lo ≤ b ∧ b < hi ∧ b / NPTENTRIES = i := by
  unfold freeTable at h
  split at h
  · rename_i ht
    cases h
    refine ⟨.refl, fun b hb => ?_, fun _ _ => rfl⟩
    have hlt : b < USERPAGES := hb.2.1.trans_le hhi
    rw [view_user hlt, Dir.entry, Dir.walk_user hlt, hb.2.2, ht]
    rfl
  · have hmem : ∀ b, b ∈ List.range' (max lo (i * NPTENTRIES))
        (min hi ((i + 1) * NPTENTRIES) - max lo (i * NPTENTRIES)) ↔
        lo ≤ b ∧ b < hi ∧ b / NPTENTRIES = i := by
      intro b
      rw [List.mem_range'_1]
      simp only [NPTENTRIES]
      omega
    have hclear := Clears.foldlM (f := freePage) (P := fun x b => b = x) hd (fun s b hb t hs =>
      Clears.of_freePage hs (((hmem b).mp hb).2.1.trans_le hhi)) h
    refine hclear.congr fun b _ _ => ?_
    rw [exists_eq_right', hmem]

/-- The pages above the new size. -/
theorem Clears.of_deallocuvm {oldsz newsz : Nat} (hd : Distinct m d) (hold : oldsz ≤ KERNBASE)
    (h : deallocuvm m d oldsz newsz = .ok (m', d')) :
    Clears (m, d) (m', d') fun b => pagesUp newsz ≤ b ∧ b < pagesUp oldsz := by
  unfold deallocuvm at h
  split at h
  · rename_i hle
    cases h
    have hup : pagesUp oldsz ≤ pagesUp newsz := Nat.div_le_div_right (by omega)
    exact ⟨.refl, fun b hb => absurd (hb.2.trans_le (hup.trans hb.1)) (lt_irrefl b), fun _ _ => rfl⟩
  · have hclear := Clears.foldlM (f := freeTable (pagesUp newsz) (pagesUp oldsz)) (s := (m, d)) hd
      (fun s i _ t hs => Clears.of_freeTable (pagesUp_le hold) hs) h
    refine hclear.congr fun b _ _ => ⟨fun ⟨i, _, hlo, hhi, _⟩ => ⟨hlo, hhi⟩, fun ⟨hlo, hhi⟩ => ?_⟩
    refine ⟨b / NPTENTRIES, List.mem_range'_1.mpr ?_, hlo, hhi, rfl⟩
    simp only [NPTENTRIES]
    omega

/-! ### Growing -/

theorem walkAlloc_data (h : walkAlloc m d a = some (m', d')) (hp : p ∉ m.free) :
    m'.data p = m.data p := by
  unfold walkAlloc at h
  split at h
  · cases h
    rfl
  · cases hfree : m.free with
    | nil => simp [kalloc, hfree] at h
    | cons q free =>
      simp only [kalloc, hfree, Option.some.injEq, Prod.mk.injEq] at h
      obtain ⟨rfl, rfl⟩ := h
      rw [hfree, List.mem_cons, not_or] at hp
      exact Function.update_of_ne hp.1 _ _

/-- `mappages` writes only to a free page, in which it makes a page table. -/
theorem mappages_data (h : mappages m d a e = .ok (some (m', d'))) (hp : p ∉ m.free) :
    m'.data p = m.data p := by
  unfold mappages at h
  split at h
  · cases h
  · rename_i hw
    split at h
    · cases h
    · cases h
      exact walkAlloc_data hw hp

/-- The memory in which the first free page has been taken and written. -/
def taken (m : Mem) (free : List Page) (p : Page) (f : Nat → UInt8) : Mem :=
  ⟨free, Function.update m.data p f⟩

section Taken

variable {free : List Page} {f : Nat → UInt8} {u : Bool}

theorem Distinct.taken (hd : Distinct m d) (hfree : m.free = p :: free) :
    p ∉ free ++ d.pages ∧ (free ++ d.pages).Nodup := by
  unfold Distinct at hd
  rw [hfree] at hd
  exact List.nodup_cons.mp hd

theorem taken_other {q : Page} (h : q ≠ p) : (taken m free p f).data q = m.data q :=
  Function.update_of_ne h _ _

theorem taken_self : (taken m free p f).data p = f := Function.update_self ..

/-- The page that has been taken is mapped. -/
theorem mappages_taken (hd : Distinct m d) (hfree : m.free = p :: free) (ha : a < USERPAGES)
    (h : mappages (taken m free p f) d a ⟨p, u⟩ = .ok (some (m', d'))) :
    Conserves m d m' d' ∧ view m d a = none ∧
      view m' d' = Function.update (view m d) a (some ⟨u, f⟩) := by
  obtain ⟨hpages, hdata, hnone, hentry⟩ := mappages_spec ha h
  obtain ⟨hp, hnodup⟩ := hd.taken hfree
  have hsame : ∀ q, q ∉ m.free → m'.data q = m.data q := fun q hq => by
    rw [hfree, List.mem_cons, not_or] at hq
    rw [mappages_data h hq.2, taken_other hq.1]
  have hown : ∀ q ∈ d.pages, m'.data q = m.data q := fun q hq =>
    hsame q fun hmem => (List.nodup_append'.mp hd).2.2 hmem hq
  refine ⟨⟨?_, fun q hq => hsame q fun hmem => hq (List.mem_append_left _ hmem)⟩, ?_, ?_⟩
  · rw [hfree]
    exact hpages
  · rw [view_user ha, hnone, Option.map_none]
  · rw [view_update ha hentry fun b _ hb e he => hown e.page (entry_mem_pages hb he), Option.map_some,
      mappages_data h fun hmem => hp (List.mem_append_left _ hmem)]
    rw [taken_self]

/-- The page that has been taken is given back, behind some other operation. -/
theorem conserves_taken (hfree : m.free = p :: free) (h : Conserves (taken m free p f) d m' d') :
    Conserves m d (kfree m' p) d' := by
  refine ⟨?_, fun q hq => ?_⟩
  · rw [hfree]
    exact h.pages.cons p
  · rw [hfree, List.cons_append, List.mem_cons, not_or] at hq
    show (Function.update m'.data p _) q = _
    rw [Function.update_of_ne hq.1, h.data q hq.2, taken_other hq.1]

theorem view_taken (hp : p ∉ d.pages) : view (kfree m p) d = view m d :=
  view_congr (fun _ _ => rfl) fun q hq => Function.update_of_ne (fun hqp : q = p => hp (hqp ▸ hq)) _ _

end Taken

theorem View.zeros_cons (v : View) (a n : Nat) :
    View.zeros (Function.update v a (some ⟨true, fun _ => 0⟩)) (a + 1) (a + 1 + n) =
      v.zeros a (a + (n + 1)) := by
  funext b
  unfold View.zeros
  by_cases hb : b = a
  · rw [if_neg (by omega), if_pos (by omega), hb, Function.update_self]
  · rw [Function.update_of_ne hb]
    exact if_congr (by omega) rfl rfl

theorem View.drop_update (v : View) {x : Option UserPage} (hlo : lo ≤ a) (hhi : a < hi) :
    View.drop (Function.update v a x) lo hi = v.drop lo hi := by
  funext b
  unfold View.drop
  by_cases hb : b = a
  · rw [if_pos (by omega), if_pos (by omega)]
  · rw [Function.update_of_ne hb]

/-- The loop of `allocuvm` makes new pages, or it drops what it should have made. -/
theorem allocLoop_view {oldsz newsz r : Nat} (hd : Distinct m d) (hnew : newsz ≤ KERNBASE)
    (hlo : pagesUp oldsz ≤ a) (hn : a + n = pagesUp newsz)
    (h : allocLoop oldsz newsz n a m d = .ok (r, m', d')) :
    r = newsz ∧ view m' d' = (view m d).zeros a (a + n) ∨
    r = 0 ∧ view m' d' = (view m d).drop (pagesUp oldsz) (pagesUp newsz) := by
  have hup := pagesUp_le hnew
  induction n generalizing a m d with
  | zero =>
    cases h
    refine .inl ⟨rfl, funext fun b => ?_⟩
    exact (if_neg (by omega)).symm
  | succ n ih =>
    unfold allocLoop at h
    cases hfree : m.free with
    | nil =>
      simp only [kalloc, hfree] at h
      obtain ⟨⟨m₁, d₁⟩, hde, h⟩ := bind_eq_ok.mp h
      cases h
      exact .inr ⟨rfl, (Clears.of_deallocuvm hd hnew hde).view_eq⟩
    | cons p free =>
      simp only [kalloc, hfree] at h
      obtain ⟨x, hmap, h⟩ := bind_eq_ok.mp h
      obtain ⟨hp, hnodup⟩ := hd.taken hfree
      cases x with
      | none =>
        obtain ⟨⟨m₁, d₁⟩, hde, h⟩ := bind_eq_ok.mp h
        cases h
        have hclear := Clears.of_deallocuvm (m := taken m free p fun _ => 0) hnodup hnew hde
        have hp₁ : p ∉ d₁.pages := fun hmem =>
          hp (hclear.conserves.pages.mem_iff.mp (List.mem_append_right _ hmem))
        refine .inr ⟨rfl, ?_⟩
        rw [view_taken hp₁, hclear.view_eq]
        refine congrArg (View.drop · _ _) (view_congr (fun _ _ => rfl) fun q hq => ?_)
        exact taken_other fun hqp => hp (List.mem_append_right _ (hqp ▸ hq))
      | some x =>
        obtain ⟨m₁, d₁⟩ := x
        obtain ⟨hcons, -, hview⟩ := mappages_taken hd hfree (by omega) hmap
        rcases ih (hcons.distinct hd) (by omega) (by omega) h with ⟨hr, hv⟩ | ⟨hr, hv⟩
        · exact .inl ⟨hr, by rw [hv, hview, View.zeros_cons]⟩
        · exact .inr ⟨hr, by rw [hv, hview, View.drop_update _ hlo (by omega)]⟩

/-- `allocuvm` makes new pages up to the new size, finds nothing to do, or drops what it should have
    made. -/
theorem allocuvm_view {oldsz newsz r : Nat} (hd : Distinct m d)
    (h : allocuvm m d oldsz newsz = .ok (r, m', d')) :
    r = 0 ∧ KERNBASE ≤ newsz ∧ view m' d' = view m d ∨
    r = max oldsz newsz ∧ newsz < KERNBASE ∧
      view m' d' = (view m d).zeros (pagesUp oldsz) (pagesUp newsz) ∨
    r = 0 ∧ newsz < KERNBASE ∧ view m' d' = (view m d).drop (pagesUp oldsz) (pagesUp newsz) := by
  unfold allocuvm at h
  split at h
  · cases h
    exact .inl ⟨rfl, ‹_›, rfl⟩
  · split at h
    · rename_i hlt
      cases h
      have hup : pagesUp newsz ≤ pagesUp oldsz := Nat.div_le_div_right (by omega)
      refine .inr (.inl ⟨by omega, by omega, funext fun b => ?_⟩)
      exact (if_neg (by omega)).symm
    · have hup : pagesUp oldsz ≤ pagesUp newsz := Nat.div_le_div_right (by omega)
      have hloop := allocLoop_view hd (by omega) le_rfl (Nat.add_sub_cancel' hup) h
      rw [Nat.add_sub_cancel' hup] at hloop
      exact .inr (hloop.imp (fun ⟨hr, hv⟩ => ⟨by omega, by omega, hv⟩) fun ⟨hr, hv⟩ => ⟨hr, by omega, hv⟩)

/-! ### Copying -/

/-- The loop of `copyuvm` copies the pages, with the same access for the user. -/
theorem copyLoop_view {ok : Bool} (hd : Distinct m d)
    (hsrc : ∀ b < USERPAGES, ∀ e, src.entry b = some e → e.page ∉ m.free ++ d.pages)
    (hn : a + n ≤ USERPAGES) (h : copyLoop src n a m d = .ok (ok, m', d')) :
    Conserves m d m' d' ∧ (ok = true →
      (∀ b, a ≤ b → b < a + n → view m src b ≠ none) ∧
      ∀ b, view m' d' b = if a ≤ b ∧ b < a + n then view m src b else view m d b) := by
  induction n generalizing a m d with
  | zero =>
    cases h
    refine ⟨.refl, fun _ => ⟨fun b hlo hhi => by omega, fun b => ?_⟩⟩
    exact (if_neg (by omega)).symm
  | succ n ih =>
    rw [copyLoop] at h
    split at h
    · cases h
    · cases h
    · rename_i pte hw
      have hpte := Dir.entry_eq_some.mpr hw
      have hsrcview : view m src a = some ⟨pte.user, m.data pte.page⟩ := by
        rw [view_user (by omega), hpte, Option.map_some]
      cases hfree : m.free with
      | nil =>
        simp only [kalloc, hfree] at h
        cases h
        exact ⟨.refl, fun ht => by cases ht⟩
      | cons p free =>
        simp only [kalloc, hfree] at h
        obtain ⟨x, hmap, h⟩ := bind_eq_ok.mp h
        cases x with
        | none =>
          cases h
          exact ⟨conserves_taken (f := m.data pte.page) hfree .refl, fun ht => by cases ht⟩
        | some x =>
          obtain ⟨m₁, d₁⟩ := x
          obtain ⟨hcons, -, hview⟩ := mappages_taken (f := m.data pte.page) hd hfree (by omega) hmap
          -- The pages that are still to be copied have not been touched.
          have hsame : view m₁ src = view m src := by
            funext b
            by_cases hb : b < USERPAGES
            · rw [view_user hb, view_user hb]
              cases he : src.entry b with
              | none => rfl
              | some e => rw [Option.map_some, Option.map_some, hcons.data e.page (hsrc b hb e he)]
            · rw [view_kernel hb, view_kernel hb]
          obtain ⟨hrest, hok⟩ := ih (hcons.distinct hd)
            (fun b hb e he hmem => hsrc b hb e he (hcons.pages.mem_iff.mp hmem)) (by omega) h
          refine ⟨hcons.trans hrest, fun ht => ?_⟩
          obtain ⟨hmapped, hview'⟩ := hok ht
          rw [hsame] at hmapped hview'
          refine ⟨fun b hlo hhi => ?_, fun b => ?_⟩
          · by_cases hb : b = a
            · rw [hb, hsrcview]
              exact Option.some_ne_none _
            · exact hmapped b (by omega) (by omega)
          · rw [hview', hview]
            by_cases hb : b = a
            · rw [hb, if_neg (by omega), if_pos (by omega), hsrcview, Function.update_self]
            · rw [Function.update_of_ne hb]
              exact if_congr (by omega) rfl rfl

/-- A new address space with a property, or all that was taken has been given back. -/
def Made (m m' : Mem) (x : Option (Page × Dir)) (P : Dir → Prop) : Prop :=
  match x with
  | none => m'.free ~ m.free ∧ ∀ p, p ∉ m.free → m'.data p = m.data p
  | some (page, d) => Built m m' page d ∧ P d

/-- `setupkvm` makes an address space without pages. -/
theorem setupkvm_view {x : Option (Page × Dir)} (h : setupkvm m = .ok (x, m')) :
    Made m m' x fun d => view m' d = fun _ => none := by
  have hspec := setupkvm_spec h
  cases x with
  | none => exact hspec
  | some x =>
    refine ⟨hspec.1, funext fun b => ?_⟩
    by_cases hb : b < USERPAGES
    · rw [view_user hb, hspec.2 b hb, Option.map_none]
    · exact view_kernel hb

/-- `copyuvm` makes an address space with the same pages below `sz`. -/
theorem copyuvm_view {sz : Nat} {x : Option (Page × Dir)} (hfree : m.free.Nodup)
    (hsrc : ∀ p ∈ src.pages, p ∉ m.free) (hsz : sz ≤ KERNBASE)
    (h : copyuvm m src sz = .ok (x, m')) :
    Made m m' x fun d => (∀ b < pagesUp sz, view m src b ≠ none) ∧
      view m' d = (view m src).below (pagesUp sz) := by
  unfold copyuvm at h
  obtain ⟨⟨y, m₁⟩, hsetup, h⟩ := bind_eq_ok.mp h
  have hspec := setupkvm_view hsetup
  cases y with
  | none =>
    cases h
    exact hspec
  | some y =>
    obtain ⟨page, d₁⟩ := y
    obtain ⟨hbuilt, hnone⟩ := hspec
    obtain ⟨⟨ok, m₂, d₂⟩, hloop, h⟩ := bind_eq_ok.mp h
    have hnodup : (page :: (m₁.free ++ d₁.pages)).Nodup :=
      (List.perm_middle.symm.trans hbuilt.pages).nodup_iff.mpr hfree
    have hin : ∀ q, q ∈ m₁.free ++ d₁.pages → q ∈ m.free := fun q hq =>
      hbuilt.pages.mem_iff.mp (List.perm_middle.mem_iff.mpr (List.mem_cons_of_mem _ hq))
    have hsame : view m₁ src = view m src :=
      view_congr (fun _ _ => rfl) fun q hq => hbuilt.data q (hsrc q hq)
    obtain ⟨hcons, hok⟩ := copyLoop_view (List.nodup_cons.mp hnodup).2
      (fun b hb e he hmem => hsrc e.page (entry_mem_pages hb he) (hin _ hmem))
      (by rw [Nat.zero_add]; exact pagesUp_le hsz) hloop
    cases ok with
    | false =>
      obtain ⟨m₃, hf, h⟩ := bind_eq_ok.mp h
      cases h
      exact (hbuilt.conserves hcons).freevm hf
    | true =>
      cases h
      obtain ⟨hmapped, hview⟩ := hok rfl
      rw [hsame] at hmapped hview
      rw [Nat.zero_add] at hmapped hview
      refine ⟨hbuilt.conserves hcons, fun b hb => hmapped b (Nat.zero_le b) hb, funext fun b => ?_⟩
      rw [hview b, View.below]
      by_cases hb : b < pagesUp sz
      · rw [if_pos ⟨Nat.zero_le b, hb⟩, if_pos hb]
      · rw [if_neg (fun h => hb h.2), if_neg hb, hnone]

/-! ### Bytes -/

theorem writeAt_nil (f : Nat → UInt8) (off : Nat) : writeAt f off [] = f := by
  funext i
  rw [writeAt, if_neg]
  rw [List.length_nil]
  omega

theorem writeAt_cons (f : Nat → UInt8) (off : Nat) (x : UInt8) (buf : List UInt8) :
    writeAt (writeAt f off [x]) (off + 1) buf = writeAt f off (x :: buf) := by
  funext i
  simp only [writeAt, List.length_cons, List.length_nil]
  rcases lt_trichotomy i off with hlt | rfl | hgt
  · rw [if_neg (by omega), if_neg (by omega), if_neg (by omega)]
  · rw [if_neg (by omega), if_pos (by omega), if_pos (by omega), Nat.sub_self]
    rfl
  · have hsub : i - off = i - (off + 1) + 1 := by omega
    simp only [hsub, List.getD_cons_succ]
    by_cases hin : off + 1 ≤ i ∧ i < off + 1 + buf.length
    · rw [if_pos hin, if_pos (by omega)]
    · rw [if_neg hin, if_neg (by omega), if_neg (by omega)]

/-- Bytes that stay within one page. -/
theorem put_page {v : View} {va : Nat} {buf : List UInt8} {f : Nat → UInt8}
    (hv : v (va / PGSIZE) = some ⟨true, f⟩) (hlen : va % PGSIZE + buf.length ≤ PGSIZE) :
    v.put va buf =
      (true, Function.update v (va / PGSIZE) (some ⟨true, writeAt f (va % PGSIZE) buf⟩)) := by
  induction buf generalizing v va f with
  | nil => rw [View.put, writeAt_nil, ← hv, Function.update_eq_self]
  | cons b buf ih =>
    rw [View.put, hv]
    cases buf with
    | nil => rfl
    | cons c buf =>
      rw [List.length_cons, List.length_cons] at hlen
      have hdiv : (va + 1) / PGSIZE = va / PGSIZE := by
        simp only [PGSIZE] at *
        omega
      have hmod : (va + 1) % PGSIZE = va % PGSIZE + 1 := by
        simp only [PGSIZE] at *
        omega
      have hself : Function.update v (va / PGSIZE) (some ⟨true, writeAt f (va % PGSIZE) [b]⟩)
          ((va + 1) / PGSIZE) = some ⟨true, writeAt f (va % PGSIZE) [b]⟩ := by
        rw [hdiv, Function.update_self]
      have hrest := ih hself (by rw [hmod, List.length_cons]; omega)
      rw [hdiv, hmod, Function.update_idem, writeAt_cons] at hrest
      exact hrest

theorem put_append (v : View) (va : Nat) (xs ys : List UInt8) :
    v.put va (xs ++ ys) =
      if (v.put va xs).1 then (v.put va xs).2.put (va + xs.length) ys else v.put va xs := by
  induction xs generalizing v va with
  | nil => rfl
  | cons x xs ih =>
    rw [List.cons_append, View.put, View.put]
    split
    · rw [ih, List.length_cons, Nat.add_assoc, Nat.add_comm 1]
    · rfl

/-- One byte is written. -/
theorem get_set {v : View} {va : Nat} {x : UInt8} {f : Nat → UInt8}
    (hv : v (va / PGSIZE) = some ⟨true, f⟩) (i : Nat) :
    View.get (Function.update v (va / PGSIZE) (some ⟨true, writeAt f (va % PGSIZE) [x]⟩)) i =
      if i = va then some x else v.get i := by
  rw [View.get]
  by_cases hdiv : i / PGSIZE = va / PGSIZE
  · rw [hdiv, Function.update_self, View.get, hdiv, hv]
    by_cases hi : i = va
    · subst hi
      rw [if_pos rfl]
      simp [writeAt]
    · have hmod : ¬ (va % PGSIZE ≤ i % PGSIZE ∧ i % PGSIZE < va % PGSIZE + [x].length) := by
        simp only [List.length_singleton, PGSIZE] at *
        omega
      rw [if_neg hi]
      simp only [writeAt, if_neg hmod]
  · have hi : i ≠ va := fun h => hdiv (by rw [h])
    rw [Function.update_of_ne hdiv, if_neg hi]
    rfl

/-- What is read behind a write. -/
theorem get_put {v : View} {va : Nat} {buf : List UInt8} (hok : (v.put va buf).1 = true) (i : Nat) :
    (v.put va buf).2.get i = if va ≤ i ∧ i < va + buf.length then buf[i - va]? else v.get i := by
  induction buf generalizing v va with
  | nil =>
    rw [View.put, if_neg]
    rw [List.length_nil]
    omega
  | cons x buf ih =>
    rw [View.put] at hok ⊢
    split at hok
    · rename_i f hf
      rw [ih hok, get_set hf, List.length_cons]
      rcases Nat.lt_trichotomy i va with hlt | rfl | hgt
      · rw [if_neg (by omega), if_neg (by omega), if_neg (by omega)]
      · rw [if_neg (by omega), if_pos rfl, if_pos (by omega), Nat.sub_self, List.getElem?_cons_zero]
      · have hsub : i - va = i - (va + 1) + 1 := by omega
        rw [hsub, List.getElem?_cons_succ, if_neg (by omega : i ≠ va)]
        exact if_congr (by omega) rfl rfl
    · cases hok

/-- What is written to a page that is mapped is seen there, and nowhere else. -/
theorem view_write {off : Nat} {buf : List UInt8} (hd : d.pages.Nodup) (ha : a < USERPAGES)
    (he : d.entry a = some e) :
    view (m.write e.page off buf) d =
      Function.update (view m d) a (some ⟨e.user, writeAt (m.data e.page) off buf⟩) := by
  have hentry : d.entry = Function.update d.entry a (some e) := by
    rw [← he, Function.update_eq_self]
  have hdata : (m.write e.page off buf).data e.page = writeAt (m.data e.page) off buf :=
    Function.update_self ..
  rw [view_update (m := m) ha hentry fun b hba hb e' he' =>
    write_other fun hpage => hba (entry_inj hd hb ha he' he hpage), Option.map_some, hdata]

theorem view_user_page (he : d.entry a = some ⟨p, true⟩) :
    view m d a = some ⟨true, m.data p⟩ := by
  rw [view_user (user_lt he rfl), he, Option.map_some]

/-- A page at which `uva2ka` fails is not for the user. -/
theorem uva2ka_none {va : Nat} (h : uva2ka d va = .ok none) (f : Nat → UInt8) :
    view m d (va / PGSIZE) ≠ some ⟨true, f⟩ := by
  intro hv
  by_cases hlt : va / PGSIZE < USERPAGES
  · rw [view_user hlt, Option.map_eq_some_iff] at hv
    obtain ⟨⟨q, u⟩, he, huser⟩ := hv
    obtain rfl : u = true := congrArg UserPage.user huser
    rw [uva2ka_eq_some.mpr he] at h
    cases h
  · rw [view_kernel hlt] at hv
    cases hv

/-- `copyout` writes the bytes that a program could write itself. -/
theorem copyoutLoop_view {ok : Bool} {va : Nat} {buf : List UInt8} (hd : d.pages.Nodup)
    (h : copyoutLoop d n m va buf = .ok (ok, m')) : (ok, view m' d) = (view m d).put va buf := by
  induction n generalizing m va buf with
  | zero =>
    cases buf <;> cases h
    rfl
  | succ n ih =>
    cases buf with
    | nil =>
      cases h
      rfl
    | cons b buf =>
      rw [copyoutLoop] at h
      obtain ⟨x, hx, h⟩ := bind_eq_ok.mp h
      cases x with
      | none =>
        cases h
        rw [View.put]
        split
        · rename_i f hf
          exact absurd hf (uva2ka_none hx f)
        · rfl
      | some p =>
        have he := uva2ka_eq_some.mp hx
        have hlt := user_lt he rfl
        have hmod : va % PGSIZE < PGSIZE := Nat.mod_lt _ (by decide)
        obtain ⟨k, hk⟩ : ∃ k, k = min (PGSIZE - va % PGSIZE) (b :: buf).length := ⟨_, rfl⟩
        dsimp only at h
        rw [← hk] at h
        have hlen : ((b :: buf).take k).length = k := by rw [List.length_take]; omega
        have hpage : (view m d).put va ((b :: buf).take k) =
            (true, view (m.write p (va % PGSIZE) ((b :: buf).take k)) d) := by
          rw [put_page (view_user_page he) (by omega), ← view_write hd hlt he]
        have hsplit := put_append (view m d) va ((b :: buf).take k) ((b :: buf).drop k)
        rw [List.take_append_drop, hpage, if_pos rfl, hlen] at hsplit
        rw [hsplit, ih h]
        -- Only if there is more to copy, the next address matters.
        by_cases hmore : k < (b :: buf).length
        · have hva : (va - va % PGSIZE + PGSIZE) % 2 ^ 32 = va + k := by
            simp only [USERPAGES, KERNBASE, PGSIZE] at hlt hk hmod ⊢
            omega
          rw [hva]
        · rw [List.drop_of_length_le (Nat.le_of_not_lt hmore), View.put, View.put]

/-- `loaduvm` writes what there is of the segment in the file. -/
theorem loadLoop_view {ok : Bool} {file : List UInt8} {addr off sz i : Nat} (hd : d.pages.Nodup)
    (haddr : addr % PGSIZE = 0) (hi : i % PGSIZE = 0) (hn : i / PGSIZE + n = pagesUp sz)
    (hfile : file.length < 2 ^ 31) (hoff : off < 2 ^ 32)
    (hread : i = 0 ∨ off + min i sz ≤ file.length)
    (huser : ∀ b, addr / PGSIZE ≤ b → b < addr / PGSIZE + pagesUp sz → ∃ p, d.entry b = some ⟨p, true⟩)
    (h : loadLoop file d addr off sz n i m = .ok (ok, m')) :
    Conserves m d m' d ∧ ok = decide (sz = 0 ∨ off + sz ≤ file.length) ∧
      view m' d = ((view m d).put (addr + i) ((file.drop (off + i)).take (sz - i))).2 := by
  induction n generalizing i m with
  | zero =>
    cases h
    have hsz : sz ≤ i := by
      simp only [pagesUp, PGSIZE] at *
      omega
    rw [Nat.sub_eq_zero_of_le hsz, List.take_zero]
    refine ⟨.refl, (decide_eq_true ?_).symm, rfl⟩
    rcases hread with rfl | hread
    · exact .inl (by omega)
    · exact .inr (by omega)
  | succ n ih =>
    have hsz : i < sz := by
      simp only [pagesUp, PGSIZE] at *
      omega
    have hdiv : (addr + i) / PGSIZE = addr / PGSIZE + i / PGSIZE := by
      simp only [PGSIZE] at *
      omega
    have hmod : (addr + i) % PGSIZE = 0 := by
      simp only [PGSIZE] at *
      omega
    obtain ⟨p, he⟩ := huser (addr / PGSIZE + i / PGSIZE) (Nat.le_add_right ..) (by omega)
    rw [← hdiv] at he
    obtain ⟨len, hlen⟩ : ∃ len, len = min (sz - i) PGSIZE := ⟨_, rfl⟩
    unfold loadLoop at h
    rw [Dir.entry_eq_some.mp he] at h
    dsimp only at h
    rw [← hlen] at h
    by_cases hend : file.length < off + i
    · -- The segment starts behind the end of the file.
      have hi0 : i = 0 := by omega
      subst hi0
      have hnone : readi file ((off + 0) % 2 ^ 32) len = none := if_pos (.inl (by omega))
      rw [hnone] at h
      cases h
      rw [List.drop_of_length_le (by omega), List.take_nil]
      exact ⟨.refl, (decide_eq_false (by omega)).symm, rfl⟩
    · have hsome : readi file ((off + i) % 2 ^ 32) len = some ((file.drop (off + i)).take len) := by
        rw [Nat.mod_eq_of_lt (by omega)]
        refine if_neg ?_
        simp only [PGSIZE] at hlen
        omega
      rw [hsome] at h
      dsimp only [Option.map_some, Option.getD_some] at h
      have hbuf : ((file.drop (off + i)).take len).length = min len (file.length - (off + i)) := by
        rw [List.length_take, List.length_drop]
      have hpage : (view m d).put (addr + i) ((file.drop (off + i)).take len) =
          (true, view (m.write p 0 ((file.drop (off + i)).take len)) d) := by
        rw [put_page (view_user_page he) (by omega), hmod, ← view_write hd (user_lt he rfl) he]
      have hwrite : Conserves m d (m.write p 0 ((file.drop (off + i)).take len)) d :=
        write_conserves (entry_mem_pages (user_lt he rfl) he)
      split at h
      · rename_i hfull
        obtain ⟨hcons, hok, hview⟩ := ih (by simp only [PGSIZE] at *; omega)
          (by simp only [PGSIZE] at *; omega) (.inr (by omega)) h
        refine ⟨hwrite.trans hcons, hok, ?_⟩
        have hsplit := put_append (view m d) (addr + i) ((file.drop (off + i)).take len)
          ((file.drop (off + (i + PGSIZE))).take (sz - (i + PGSIZE)))
        rw [hpage, if_pos rfl, hfull] at hsplit
        have hbytes : (file.drop (off + i)).take len ++
            (file.drop (off + (i + PGSIZE))).take (sz - (i + PGSIZE)) =
            (file.drop (off + i)).take (sz - i) := by
          by_cases hlast : sz - i ≤ PGSIZE
          · rw [Nat.sub_eq_zero_of_le (by omega : sz ≤ i + PGSIZE), List.take_zero, List.append_nil, hlen,
              Nat.min_eq_left hlast]
          · have hsum : sz - i = len + (sz - (i + PGSIZE)) := by omega
            rw [hsum, List.take_add, List.drop_drop]
            congr 3
            omega
        rw [hbytes] at hsplit
        rw [hsplit, hview]
        by_cases hlast : sz - i ≤ PGSIZE
        · rw [Nat.sub_eq_zero_of_le (by omega : sz ≤ i + PGSIZE), List.take_zero]
          rfl
        · have hnext : addr + (i + PGSIZE) = addr + i + len := by omega
          rw [hnext]
      · rename_i hshort
        cases h
        refine ⟨hwrite, (decide_eq_false (by omega)).symm, ?_⟩
        have hall : (file.drop (off + i)).take (sz - i) = (file.drop (off + i)).take len := by
          rw [List.take_of_length_le (by rw [List.length_drop]; omega),
            List.take_of_length_le (by rw [List.length_drop]; omega)]
        rw [hall, hpage]

/-- `clearpteu` takes the page from the user. -/
theorem clearpteu_view {uva : Nat} (ha : uva / PGSIZE < USERPAGES) (h : clearpteu d uva = .ok d') :
    view m d' = (view m d).hide (uva / PGSIZE) := by
  obtain ⟨-, hentry⟩ := clearpteu_spec (m := m) ha h
  rw [view_update (m := m) ha hentry fun _ _ _ _ _ => rfl, View.hide, view_user ha]
  cases d.entry (uva / PGSIZE) <;> rfl

end Xv6.Vm
