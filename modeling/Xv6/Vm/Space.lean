import Xv6.Lib.Account
import Xv6.Lib.Transition
import Xv6.Vm.Page

namespace Xv6.Vm

open Xv6.Thread (Stop PGSIZE KERNBASE)
open Xv6.Lib
open scoped List

/-!
# Memory — what the operations of `vm.c` do to an address space

* `Dir.entry` — an address space as a map from pages to entries, and the effect on it;
* `Dir.pages` — all the physical pages of an address space;
* `Conserves` — an operation on an address space loses no page and writes to no foreign one;
* `freevm_pages` — all pages go back to the free list.
-/

variable {m m' m₁ m₂ : Mem} {d d' d₁ d₂ : Dir} {a b n : Nat} {p : Page} {e : Pte}

/-- The entry of a page, if it is present. -/
def Dir.entry (d : Dir) (a : Nat) : Option Pte := (d.walk a).join

theorem Dir.entry_eq_some : d.entry a = some e ↔ d.walk a = some (some e) := by
  unfold Dir.entry
  cases d.walk a with
  | none => simp
  | some x => cases x <;> simp

theorem Dir.walk_user (ha : a < USERPAGES) :
    d.walk a = (d.table (a / NPTENTRIES)).map fun t => t.pte (a % NPTENTRIES) := if_pos ha

/-- The table of a user page is one of the user part. -/
theorem table_lt (ha : a < USERPAGES) : a / NPTENTRIES < USERPAGES / NPTENTRIES := by
  refine Nat.div_lt_div_of_lt_of_dvd ⟨512, by decide⟩ ha

theorem same_page (hdiv : a / NPTENTRIES = b / NPTENTRIES) (hmod : a % NPTENTRIES = b % NPTENTRIES) :
    a = b := by
  rw [← Nat.div_add_mod a NPTENTRIES, ← Nat.div_add_mod b NPTENTRIES, hdiv, hmod]

/-! ### One entry -/

theorem walk_setTable (ha : a < USERPAGES) {i : Nat} {t : Table} :
    (d.setTable i t).walk a =
      if a / NPTENTRIES = i then some (t.pte (a % NPTENTRIES)) else d.walk a := by
  rw [Dir.walk_user ha, Dir.walk_user ha, Dir.setTable]
  split <;> simp [*]

theorem walk_kernel (ha : ¬ a < USERPAGES) : d.walk a = kernelPte a := if_neg ha

/-- An assignment to the entry of a user page that has a page table. -/
theorem walk_setPte (ha : a < USERPAGES) (hw : d.walk a ≠ none) {x : Option Pte} :
    (d.setPte a x).walk = Function.update d.walk a (some x) := by
  rw [Dir.walk_user ha, ne_eq, Option.map_eq_none_iff] at hw
  obtain ⟨t, ht⟩ := Option.ne_none_iff_exists'.mp hw
  rw [Dir.setPte, ht]
  funext b
  by_cases hb : b < USERPAGES
  · rw [walk_setTable hb]
    by_cases hdiv : b / NPTENTRIES = a / NPTENTRIES
    · by_cases hmod : b % NPTENTRIES = a % NPTENTRIES
      · obtain rfl := same_page hdiv hmod
        simp
      · have hba : b ≠ a := fun h => hmod (by rw [h])
        simp [hdiv, hmod, hba, Dir.walk_user hb, ht]
    · have hba : b ≠ a := fun h => hdiv (by rw [h])
      simp [hdiv, hba]
  · have hba : b ≠ a := fun h => hb (h ▸ ha)
    simp [walk_kernel hb, hba]

theorem entry_setPte (ha : a < USERPAGES) (hw : d.walk a ≠ none) {x : Option Pte} :
    (d.setPte a x).entry = Function.update d.entry a x := by
  funext b
  rw [Dir.entry, walk_setPte ha hw]
  by_cases hb : b = a
  · subst hb
    simp
  · simp [Dir.entry, hb]

/-! ### The pages of an address space -/

/-- The page of a page table, and the pages in it. -/
def Table.pages (t : Table) : List Page :=
  t.page :: (List.range NPTENTRIES).flatMap fun j => ((t.pte j).map Pte.page).toList

/-- The physical pages of an address space, without the page of the directory itself. -/
def Dir.pages (d : Dir) : List Page :=
  ((List.range (USERPAGES / NPTENTRIES)).flatMap fun i => ((d.table i).map Table.pages).getD []) ++
    d.kernel

/-- The page of an entry. -/
def pteList (x : Option Pte) : List Page := (x.map Pte.page).toList

/-- What is exchanged for something else under one entry of the directory. -/
theorem pages_setTable {i : Nat} (hi : i < USERPAGES / NPTENTRIES) {t : Table} {xs ys : List Page}
    (h : xs ++ ((d.table i).map Table.pages).getD [] ~ ys ++ t.pages) :
    xs ++ d.pages ~ ys ++ (d.setTable i t).pages := by
  simp only [Dir.pages, ← List.append_assoc]
  refine List.Perm.append_right _ (perm_flatMap_range hi (fun j _ hj => ?_) ?_)
  · simp [Dir.setTable, hj]
  · simpa [Dir.setTable] using h

/-- The entry of a page is exchanged for another one. -/
theorem pages_setPte (ha : a < USERPAGES) {x y : Option Pte} (hw : d.walk a = some y) :
    pteList x ++ d.pages ~ pteList y ++ (d.setPte a x).pages := by
  rw [Dir.walk_user ha, Option.map_eq_some_iff] at hw
  obtain ⟨t, ht, hy⟩ := hw
  rw [Dir.setPte, ht]
  have hmod : a % NPTENTRIES < NPTENTRIES := Nat.mod_lt _ (by decide)
  refine pages_setTable (table_lt ha) ?_
  rw [ht]
  refine (List.perm_middle.trans (List.Perm.cons _ ?_)).trans List.perm_middle.symm
  refine perm_flatMap_range hmod (fun j _ hj => by simp [hj]) ?_
  simp only [Function.update_self, hy]
  exact List.perm_append_comm

theorem pages_setPte_some (ha : a < USERPAGES) (hw : d.walk a = some none) :
    e.page :: d.pages ~ (d.setPte a (some e)).pages := by
  have hset := pages_setPte ha (x := some e) hw
  rwa [pteList, pteList, Option.map_some, Option.map_none, Option.toList_some, Option.toList_none,
    List.singleton_append, List.nil_append] at hset

theorem pages_setPte_none (ha : a < USERPAGES) (hw : d.walk a = some (some e)) :
    d.pages ~ e.page :: (d.setPte a none).pages := by
  have hset := pages_setPte ha (x := none) hw
  rwa [pteList, pteList, Option.map_some, Option.map_none, Option.toList_some, Option.toList_none,
    List.singleton_append, List.nil_append] at hset

/-- An operation on an address space loses no page, and changes only the bytes of free pages and of
    pages of the address space. -/
structure Conserves (m : Mem) (d : Dir) (m' : Mem) (d' : Dir) : Prop where
  pages : m'.free ++ d'.pages ~ m.free ++ d.pages
  data : ∀ p, p ∉ m.free ++ d.pages → m'.data p = m.data p

theorem Conserves.refl : Conserves m d m d := ⟨.refl _, fun _ _ => rfl⟩

theorem Conserves.trans (h : Conserves m d m₁ d₁) (h₁ : Conserves m₁ d₁ m₂ d₂) :
    Conserves m d m₂ d₂ := by
  refine ⟨h₁.pages.trans h.pages, fun p hp => ?_⟩
  rw [h₁.data p fun hp₁ => hp (h.pages.mem_iff.mp hp₁), h.data p hp]

/-- A new page table. -/
theorem walkAlloc_spec (ha : a < USERPAGES) (h : walkAlloc m d a = some (m', d')) :
    Conserves m d m' d' ∧ d'.entry = d.entry ∧ d'.walk a ≠ none := by
  unfold walkAlloc at h
  cases ht : d.table (a / NPTENTRIES) with
  | some t =>
    rw [ht] at h
    cases h
    exact ⟨.refl, rfl, by simp [Dir.walk_user ha, ht]⟩
  | none =>
    rw [ht] at h
    cases hfree : m.free with
    | nil => simp [kalloc, hfree] at h
    | cons p free =>
      simp only [kalloc, hfree, Option.some.injEq, Prod.mk.injEq] at h
      obtain ⟨rfl, rfl⟩ := h
      have hpages : [p] ++ d.pages ~ [] ++ (d.setTable (a / NPTENTRIES) ⟨p, fun _ => none⟩).pages :=
        pages_setTable (table_lt ha) (by simp [ht, Table.pages])
      rw [List.singleton_append, List.nil_append] at hpages
      refine ⟨⟨?_, fun q hq => ?_⟩, ?_, ?_⟩
      · rw [hfree]
        exact (hpages.symm.append_left free).trans List.perm_middle
      · have hqp : q ≠ p := fun hqp => hq (by simp [hfree, hqp])
        simp [Mem.fill, hqp]
      · funext b
        by_cases hb : b < USERPAGES
        · rw [Dir.entry, Dir.entry, walk_setTable hb]
          split
          · rename_i hdiv
            simp [Dir.walk_user hb, hdiv, ht]
          · rfl
        · rw [Dir.entry, Dir.entry, walk_kernel hb, walk_kernel hb]
      · simp [walk_setTable ha]

/-- A page is mapped, if there was no page mapped. -/
theorem mappages_spec (ha : a < USERPAGES) (h : mappages m d a e = .ok (some (m', d'))) :
    m'.free ++ d'.pages ~ e.page :: (m.free ++ d.pages) ∧
    (∀ p, p ∉ m.free ++ d.pages → m'.data p = m.data p) ∧
    d.entry a = none ∧ d'.entry = Function.update d.entry a (some e) := by
  unfold mappages at h
  cases hw : walkAlloc m d a with
  | none =>
    rw [hw] at h
    cases h
  | some r =>
    obtain ⟨m₁, d₁⟩ := r
    obtain ⟨hcons, hentry, htable⟩ := walkAlloc_spec ha hw
    rw [hw] at h
    obtain ⟨x, hx⟩ := Option.ne_none_iff_exists'.mp htable
    cases x with
    | some x => simp [hx] at h
    | none =>
      simp only [hx, Except.ok.injEq, Option.some.injEq, Prod.mk.injEq] at h
      obtain ⟨rfl, rfl⟩ := h
      have hset := pages_setPte_some (e := e) ha hx
      refine ⟨?_, hcons.data, ?_, ?_⟩
      · exact ((hset.symm.append_left _).trans List.perm_middle).trans (hcons.pages.cons _)
      · rw [← hentry, Dir.entry, hx]
        rfl
      · rw [entry_setPte ha htable, hentry]

/-! ### Shrinking -/

/-- One page is given back. -/
theorem freePage_spec {s t : Mem × Dir} (ha : a < USERPAGES) (h : freePage s a = .ok t) :
    Conserves s.1 s.2 t.1 t.2 ∧ t.2.entry = Function.update s.2.entry a none := by
  unfold freePage at h
  split at h
  · rename_i e hw
    split at h
    · cases h
    · cases h
      have hset := pages_setPte_none ha hw
      refine ⟨⟨?_, fun q hq => ?_⟩, entry_setPte ha (by simp [hw])⟩
      · exact (List.perm_middle.symm.trans (hset.symm.append_left s.1.free))
      · have hqp : q ≠ e.page := fun hqp => hq (List.mem_append_right _
          (hset.mem_iff.mpr (by simp [hqp])))
        simp [kfree, Mem.fill, hqp]
  · rename_i hw
    cases h
    refine ⟨.refl, ?_⟩
    have hnone : s.2.entry a = none := by
      cases hx : s.2.entry a with
      | none => rfl
      | some e => exact absurd (Dir.entry_eq_some.mp hx) (hw e)
    rw [← hnone, Function.update_eq_self]

/-- Some of the entries have been cleared, all the others are as before. -/
structure Shrinks (s t : Mem × Dir) : Prop where
  conserves : Conserves s.1 s.2 t.1 t.2
  entry : ∀ b, t.2.entry b = none ∨ t.2.entry b = s.2.entry b

theorem Shrinks.refl {s : Mem × Dir} : Shrinks s s := ⟨.refl, fun _ => .inr rfl⟩

theorem Shrinks.trans {s t u : Mem × Dir} (h : Shrinks s t) (h' : Shrinks t u) : Shrinks s u := by
  refine ⟨h.conserves.trans h'.conserves, fun b => ?_⟩
  rcases h'.entry b with hb | hb
  · exact .inl hb
  · rw [hb]
    exact h.entry b

theorem Shrinks.of_freePage {s t : Mem × Dir} (ha : a < USERPAGES) (h : freePage s a = .ok t) :
    Shrinks s t := by
  obtain ⟨hcons, hentry⟩ := freePage_spec ha h
  refine ⟨hcons, fun b => ?_⟩
  rw [hentry]
  by_cases hb : b = a
  · subst hb
    simp
  · simp [hb]

/-- A loop whose body shrinks the address space shrinks it. -/
theorem Shrinks.foldlM {α : Type*} {f : Mem × Dir → α → Except Stop (Mem × Dir)} {xs : List α}
    {s t : Mem × Dir} (hf : ∀ s, ∀ x ∈ xs, ∀ t, f s x = .ok t → Shrinks s t)
    (h : xs.foldlM f s = .ok t) : Shrinks s t := by
  induction xs generalizing s with
  | nil =>
    cases h
    exact .refl
  | cons x xs ih =>
    rw [List.foldlM_cons] at h
    obtain ⟨u, hu, h⟩ := bind_eq_ok.mp h
    exact (hf s x (by simp) u hu).trans (ih (fun s y hy => hf s y (by simp [hy])) h)

/-- The pages of one page table are given back. -/
theorem freeTable_spec (lo : Nat) {hi i : Nat} (hhi : hi ≤ USERPAGES) {s t : Mem × Dir}
    (h : freeTable lo hi s i = .ok t) :
    Shrinks s t ∧ ∀ b, lo ≤ b → b < hi → b / NPTENTRIES = i → t.2.entry b = none := by
  unfold freeTable at h
  split at h
  · rename_i ht
    cases h
    refine ⟨.refl, fun b _ hb hi => ?_⟩
    rw [Dir.entry, Dir.walk_user (hb.trans_le hhi), hi, ht]
    rfl
  · have hmem : ∀ b ∈ List.range' (max lo (i * NPTENTRIES))
        (min hi ((i + 1) * NPTENTRIES) - max lo (i * NPTENTRIES)), b < USERPAGES := by
      intro b hb
      rw [List.mem_range'_1] at hb
      omega
    refine ⟨Shrinks.foldlM (fun s b hb t => Shrinks.of_freePage (hmem b hb)) h, fun b hlo hb hi => ?_⟩
    have heach := foldlM_each (P := fun s b => s.2.entry b = none)
      (fun s b hb t ht => by simp [(freePage_spec (hmem b hb) ht).2])
      (fun s b hb t c ht hc => by
        rcases (Shrinks.of_freePage (hmem b hb) ht).entry c with hn | hn
        · exact hn
        · rw [hn, hc]) h
    refine heach.1 b (List.mem_range'_1.mpr ?_)
    simp only [NPTENTRIES] at hi ⊢
    omega

theorem pagesUp_le {sz : Nat} (h : sz ≤ KERNBASE) : pagesUp sz ≤ USERPAGES := by
  simp only [pagesUp, USERPAGES, PGSIZE, KERNBASE] at *
  omega

/-- The pages above the new size are given back, and nothing else is changed. -/
theorem deallocuvm_spec {oldsz newsz : Nat} (hold : oldsz ≤ KERNBASE)
    (h : deallocuvm m d oldsz newsz = .ok (m', d')) :
    Shrinks (m, d) (m', d') ∧
    ∀ b, pagesUp newsz ≤ b → b < pagesUp oldsz → d'.entry b = none := by
  unfold deallocuvm at h
  split at h
  · rename_i hle
    cases h
    refine ⟨.refl, fun b hlo hhi => absurd (hhi.trans_le ?_) (not_lt.mpr hlo)⟩
    exact Nat.div_le_div_right (by omega)
  · have hspec := fun s i t => freeTable_spec (pagesUp newsz) (i := i) (s := s) (t := t)
      (pagesUp_le hold)
    refine ⟨Shrinks.foldlM (fun s i _ t ht => (hspec s i t ht).1) h, fun b hlo hhi => ?_⟩
    have heach := foldlM_each (P := fun (s : Mem × Dir) i => ∀ b, pagesUp newsz ≤ b →
        b < pagesUp oldsz → b / NPTENTRIES = i → s.2.entry b = none)
      (fun s i _ t ht => (hspec s i t ht).2)
      (fun s i _ t j ht hj b hlo hhi hb => by
        rcases (hspec s i t ht).1.entry b with hn | hn
        · exact hn
        · rw [hn]
          exact hj b hlo hhi hb) h
    refine heach.1 (b / NPTENTRIES) (List.mem_range'_1.mpr ?_) b hlo hhi rfl
    simp only [NPTENTRIES]
    omega

/-! ### Growing -/

/-- The pages from `lo` to `hi` were not mapped and have been mapped for the user, the other ones are
    as before. -/
structure Grows (d d' : Dir) (lo hi : Nat) : Prop where
  free : ∀ b, lo ≤ b → b < hi → d.entry b = none
  new : ∀ b, lo ≤ b → b < hi → ∃ p, d'.entry b = some ⟨p, true⟩
  old : ∀ b, b < lo ∨ hi ≤ b → d'.entry b = d.entry b

/-- One page more. -/
theorem Grows.cons (h : Grows d₁ d' (a + 1) (a + n + 1)) (hnone : d.entry a = none)
    (hentry : d₁.entry = Function.update d.entry a (some ⟨p, true⟩)) :
    Grows d d' a (a + (n + 1)) := by
  refine ⟨fun b hlo hhi => ?_, fun b hlo hhi => ?_, fun b hb => ?_⟩
  · by_cases hb : b = a
    · rw [hb, hnone]
    · have hfree := h.free b (by omega) (by omega)
      rwa [hentry, Function.update_of_ne hb] at hfree
  · by_cases hb : b = a
    · exact ⟨p, by rw [h.old b (by omega), hentry, hb, Function.update_self]⟩
    · exact h.new b (by omega) (by omega)
  · rw [h.old b (by omega), hentry, Function.update_of_ne (by omega)]

/-- The loop of `allocuvm` maps all pages, or gives back what it has taken. -/
theorem allocLoop_spec {oldsz newsz r : Nat} (hnew : newsz ≤ KERNBASE) (hn : a + n ≤ USERPAGES)
    (h : allocLoop oldsz newsz n a m d = .ok (r, m', d')) :
    Conserves m d m' d' ∧ (r = newsz ∧ Grows d d' a (a + n) ∨ r = 0) := by
  induction n generalizing a m d with
  | zero =>
    cases h
    refine ⟨.refl, .inl ⟨rfl, fun b hlo hhi => ?_, fun b hlo hhi => ?_, fun _ _ => rfl⟩⟩ <;> omega
  | succ n ih =>
    unfold allocLoop at h
    cases hfree : m.free with
    | nil =>
      simp only [kalloc, hfree] at h
      obtain ⟨⟨m₁, d₁⟩, hde, h⟩ := bind_eq_ok.mp h
      cases h
      exact ⟨(deallocuvm_spec hnew hde).1.conserves, .inr rfl⟩
    | cons p free =>
      simp only [kalloc, hfree] at h
      obtain ⟨x, hmap, h⟩ := bind_eq_ok.mp h
      -- The memory without the page that is about to be mapped.
      have hfill : ∀ q, q ∉ m.free ++ d.pages → (Mem.fill { m with free := free } p 0).data q = m.data q := by
        intro q hq
        have hqp : q ≠ p := fun hqp => hq (by simp [hfree, hqp])
        simp [Mem.fill, hqp]
      have hsub : ∀ q, q ∉ m.free ++ d.pages → q ∉ free ++ d.pages := by
        intro q hq hmem
        rw [hfree] at hq
        exact hq (List.mem_cons_of_mem _ hmem)
      cases x with
      | none =>
        obtain ⟨⟨m₁, d₁⟩, hde, h⟩ := bind_eq_ok.mp h
        cases h
        have hcons := (deallocuvm_spec hnew hde).1.conserves
        refine ⟨⟨?_, fun q hq => ?_⟩, .inr rfl⟩
        · rw [hfree]
          exact hcons.pages.cons p
        · have hqp : q ≠ p := fun hqp => hq (by simp [hfree, hqp])
          rw [← hfill q hq, ← hcons.data q (hsub q hq)]
          simp [kfree, Mem.fill, hqp]
      | some x =>
        obtain ⟨m₁, d₁⟩ := x
        obtain ⟨hpages, hdata, hnone, hentry⟩ := mappages_spec (by omega) hmap
        obtain ⟨hcons, hr⟩ := ih (by omega) h
        have hstep : Conserves m d m₁ d₁ := by
          refine ⟨?_, fun q hq => (hdata q (hsub q hq)).trans (hfill q hq)⟩
          rw [hfree]
          exact hpages
        refine ⟨hstep.trans hcons, hr.imp (fun ⟨hr, hgrow⟩ => ⟨hr, ?_⟩) id⟩
        rw [Nat.add_right_comm] at hgrow
        exact hgrow.cons hnone hentry

/-- `allocuvm` fails, finds nothing to do, or maps the pages up to the new size. -/
theorem allocuvm_spec {oldsz newsz r : Nat} (h : allocuvm m d oldsz newsz = .ok (r, m', d')) :
    Conserves m d m' d' ∧ (r = 0 ∨ r = max oldsz newsz ∧ newsz < KERNBASE ∧
      Grows d d' (pagesUp oldsz) (pagesUp r)) := by
  unfold allocuvm at h
  split at h
  · cases h
    exact ⟨.refl, .inl rfl⟩
  · rename_i hlt
    split at h
    · cases h
      refine ⟨.refl, .inr ⟨by omega, by omega, fun b hlo hhi => ?_, fun b hlo hhi => ?_,
        fun _ _ => rfl⟩⟩ <;> omega
    · have hle : pagesUp oldsz ≤ pagesUp newsz := Nat.div_le_div_right (by omega)
      have hup : pagesUp newsz ≤ USERPAGES := pagesUp_le (by omega)
      obtain ⟨hcons, hr⟩ := allocLoop_spec (by omega) (by omega) h
      refine ⟨hcons, hr.symm.imp id fun ⟨hr, hgrow⟩ => ⟨by omega, by omega, ?_⟩⟩
      rwa [Nat.add_sub_cancel' hle, ← hr] at hgrow

/-! ### A whole address space -/

/-- An address space without user pages is made of its page tables. -/
theorem pages_eq_tables (h : ∀ b, b < USERPAGES → d.entry b = none) : d.pages = d.tables := by
  unfold Dir.pages Dir.tables
  rw [List.filterMap_eq_flatMap_toList]
  refine congrArg (· ++ d.kernel) (List.flatMap_congr fun i hi => ?_)
  cases ht : d.table i with
  | none => simp
  | some t =>
    have hempty : ∀ j < NPTENTRIES, t.pte j = none := by
      intro j hj
      have hb : i * NPTENTRIES + j < USERPAGES := by
        have hi := List.mem_range.mp hi
        simp only [NPTENTRIES, USERPAGES, KERNBASE, PGSIZE] at hi hj ⊢
        omega
      have hdiv : (i * NPTENTRIES + j) / NPTENTRIES = i := by
        rw [Nat.add_comm, Nat.add_mul_div_right _ _ (by decide), Nat.div_eq_of_lt hj, Nat.zero_add]
      have hmod : (i * NPTENTRIES + j) % NPTENTRIES = j := by
        rw [Nat.add_comm, Nat.add_mul_mod_self_right, Nat.mod_eq_of_lt hj]
      have := h _ hb
      rw [Dir.entry, Dir.walk_user hb, hdiv, hmod, ht] at this
      simpa using this
    have hflat : (List.range NPTENTRIES).flatMap (fun j => ((t.pte j).map Pte.page).toList) = [] := by
      rw [List.flatMap_eq_nil_iff]
      intro j hj
      rw [hempty j (List.mem_range.mp hj)]
      rfl
    simp [Table.pages, hflat]

theorem foldl_kfree_free {xs : List Page} : (xs.foldl kfree m).free ~ xs ++ m.free := by
  induction xs generalizing m with
  | nil => exact .refl _
  | cons x xs ih => exact ih.trans List.perm_middle

theorem foldl_kfree_data {xs : List Page} (hp : p ∉ xs) : (xs.foldl kfree m).data p = m.data p := by
  induction xs generalizing m with
  | nil => rfl
  | cons x xs ih =>
    rw [List.mem_cons, not_or] at hp
    rw [List.foldl_cons, ih hp.2]
    simp [kfree, Mem.fill, hp.1]

/-- `freevm` gives back the directory and all its pages. -/
theorem freevm_pages {pgdir : Page} (h : freevm m pgdir d = .ok m') :
    m'.free ~ m.free ++ pgdir :: d.pages ∧
    ∀ p, p ∉ m.free ++ pgdir :: d.pages → m'.data p = m.data p := by
  unfold freevm at h
  obtain ⟨⟨m₁, d₁⟩, hde, h⟩ := bind_eq_ok.mp h
  cases h
  obtain ⟨hshrink, hnone⟩ := deallocuvm_spec le_rfl hde
  have htables : d₁.pages = d₁.tables :=
    pages_eq_tables fun b hb => hnone b (Nat.zero_le _) hb
  have hpages := hshrink.conserves.pages
  rw [htables] at hpages
  refine ⟨?_, fun p hp => ?_⟩
  · have hfold : (d₁.tables.foldl kfree m₁).free ~ m₁.free ++ d₁.tables :=
      foldl_kfree_free.trans List.perm_append_comm
    exact ((hfold.trans hpages).cons pgdir).trans List.perm_middle.symm
  · have hp' : p ∉ m.free ++ d.pages := fun hmem => hp (List.perm_middle.mem_iff.mpr
      (List.mem_cons_of_mem _ hmem))
    have hpg : p ≠ pgdir := fun hpg => hp (by simp [hpg])
    have hpt : p ∉ d₁.tables := fun hmem => hp' (hpages.mem_iff.mp (List.mem_append_right _ hmem))
    have hdir : (kfree (d₁.tables.foldl kfree m₁) pgdir).data p = (d₁.tables.foldl kfree m₁).data p := by
      simp [kfree, Mem.fill, hpg]
    rw [hdir, foldl_kfree_data hpt]
    exact hshrink.conserves.data p hp'

/-! ### A new address space -/

/-- The free pages of `m₀` are those of `m`, and those of the address space `d` in the page `pgdir`;
    nothing but these pages has been written. -/
structure Built (m₀ m : Mem) (pgdir : Page) (d : Dir) : Prop where
  pages : m.free ++ pgdir :: d.pages ~ m₀.free
  data : ∀ p, p ∉ m₀.free → m.data p = m₀.data p

theorem Built.conserves {m₀ : Mem} {pgdir : Page} (h : Built m₀ m pgdir d)
    (hc : Conserves m d m' d') : Built m₀ m' pgdir d' := by
  refine ⟨List.perm_middle.trans ((hc.pages.cons pgdir).trans (List.perm_middle.symm.trans h.pages)),
    fun p hp => ?_⟩
  rw [hc.data p fun hmem => hp (h.pages.mem_iff.mp (List.perm_middle.mem_iff.mpr
    (List.mem_cons_of_mem _ hmem))), h.data p hp]

theorem Built.freevm {m₀ : Mem} {pgdir : Page} (h : Built m₀ m pgdir d)
    (hf : freevm m pgdir d = .ok m') :
    m'.free ~ m₀.free ∧ ∀ p, p ∉ m₀.free → m'.data p = m₀.data p := by
  obtain ⟨hpages, hdata⟩ := freevm_pages hf
  exact ⟨hpages.trans h.pages, fun p hp =>
    (hdata p fun hmem => hp (h.pages.mem_iff.mp hmem)).trans (h.data p hp)⟩

theorem mapKernel_spec {ok : Bool} (h : mapKernel n m d = (ok, m', d')) :
    Conserves m d m' d' ∧ d'.table = d.table := by
  induction n generalizing m d with
  | zero =>
    cases h
    exact ⟨.refl, rfl⟩
  | succ n ih =>
    unfold mapKernel at h
    cases hfree : m.free with
    | nil =>
      simp only [kalloc, hfree] at h
      cases h
      exact ⟨.refl, rfl⟩
    | cons p free =>
      simp only [kalloc, hfree] at h
      obtain ⟨hcons, htable⟩ := ih h
      have hstep : Conserves m d (Mem.fill { m with free := free } p 0)
          { d with kernel := d.kernel ++ [p] } := by
        refine ⟨?_, fun q hq => ?_⟩
        · have hpages : Dir.pages { d with kernel := d.kernel ++ [p] } = d.pages ++ [p] :=
            (List.append_assoc ..).symm
          rw [hfree, hpages, ← List.append_assoc]
          exact List.perm_append_singleton p (free ++ d.pages)
        · have hqp : q ≠ p := fun hqp => hq (by simp [hfree, hqp])
          simp [Mem.fill, hqp]
      exact ⟨hstep.trans hcons, htable⟩

/-- `setupkvm` returns a directory without user pages, or it takes no page. -/
theorem setupkvm_spec {x : Option (Page × Dir)} (h : setupkvm m = .ok (x, m')) :
    match x with
    | none => m'.free ~ m.free ∧ ∀ p, p ∉ m.free → m'.data p = m.data p
    | some (pgdir, d) => Built m m' pgdir d ∧ ∀ b, b < USERPAGES → d.entry b = none := by
  unfold setupkvm at h
  cases hfree : m.free with
  | nil =>
    simp only [kalloc, hfree] at h
    cases h
    exact ⟨by rw [hfree], fun _ _ => rfl⟩
  | cons pgdir free =>
    simp only [kalloc, hfree] at h
    -- The empty directory in its page.
    have hempty : Built m (Mem.fill { m with free := free } pgdir 0) pgdir ⟨[], fun _ => none⟩ := by
      have hpages : Dir.pages ⟨[], fun _ => none⟩ = [] := by
        rw [Dir.pages, List.append_nil, List.flatMap_eq_nil_iff]
        exact fun _ _ => rfl
      refine ⟨?_, fun q hq => ?_⟩
      · rw [hpages, hfree]
        exact List.perm_append_singleton pgdir free
      · have hqp : q ≠ pgdir := fun hqp => hq (by simp [hfree, hqp])
        simp [Mem.fill, hqp]
    split at h
    · rename_i hmap
      obtain ⟨hcons, htable⟩ := mapKernel_spec hmap
      cases h
      refine ⟨hempty.conserves hcons, fun b hb => ?_⟩
      rw [Dir.entry, Dir.walk_user hb, htable]
      rfl
    · rename_i hmap
      obtain ⟨hcons, -⟩ := mapKernel_spec hmap
      obtain ⟨m₂, hf, h⟩ := bind_eq_ok.mp h
      cases h
      rw [← hfree]
      exact (hempty.conserves hcons).freevm hf

/-! ### User memory -/

theorem entry_mem_pages (ha : a < USERPAGES) (h : d.entry a = some e) : e.page ∈ d.pages :=
  (pages_setPte_none ha (Dir.entry_eq_some.mp h)).mem_iff.mpr List.mem_cons_self

/-- No page of the kernel part is for the user. -/
theorem user_lt {e : Pte} (h : d.entry a = some e) (hu : e.user = true) : a < USERPAGES := by
  by_contra ha
  rw [Dir.entry_eq_some, walk_kernel ha, kernelPte] at h
  split at h
  · rw [← Option.some.inj (Option.some.inj h)] at hu
    exact Bool.false_ne_true hu
  · split at h
    · exact absurd h (by simp)
    · rw [← Option.some.inj (Option.some.inj h)] at hu
      exact Bool.false_ne_true hu

/-- `clearpteu` takes one page from the user. -/
theorem clearpteu_spec {uva : Nat} (ha : uva / PGSIZE < USERPAGES) (h : clearpteu d uva = .ok d') :
    Conserves m d m d' ∧ d'.entry = Function.update d.entry (uva / PGSIZE)
      ((d.entry (uva / PGSIZE)).map fun e => { e with user := false }) := by
  unfold clearpteu at h
  split at h
  · cases h
  · rename_i x hw
    cases h
    have hset := pages_setPte ha (x := x.map fun e => { e with user := false }) hw
    have hsame : pteList (x.map fun e => { e with user := false }) = pteList x := by
      cases x <;> rfl
    rw [hsame, List.perm_append_left_iff] at hset
    refine ⟨⟨hset.symm.append_left _, fun _ _ => rfl⟩, ?_⟩
    rw [entry_setPte ha (by simp [hw])]
    simp [Dir.entry, hw]

theorem uva2ka_eq_some {va : Nat} : uva2ka d va = .ok (some p) ↔ d.entry (va / PGSIZE) = some ⟨p, true⟩ := by
  rw [Dir.entry_eq_some, uva2ka]
  cases d.walk (va / PGSIZE) with
  | none => simp
  | some x =>
    cases x with
    | none => simp
    | some e =>
      obtain ⟨q, u⟩ := e
      cases u <;> simp

theorem write_conserves {off : Nat} {buf : List UInt8} (h : p ∈ d.pages) :
    Conserves m d (m.write p off buf) d := by
  refine ⟨.refl _, fun q hq => ?_⟩
  have hqp : q ≠ p := fun hqp => hq (List.mem_append_right _ (hqp ▸ h))
  simp [Mem.write, hqp]

/-- `copyout` writes only to pages of the address space. -/
theorem copyoutLoop_conserves {ok : Bool} {va : Nat} {buf : List UInt8}
    (h : copyoutLoop d n m va buf = .ok (ok, m')) : Conserves m d m' d := by
  induction n generalizing m va buf with
  | zero =>
    cases buf <;> cases h
    exact .refl
  | succ n ih =>
    cases buf with
    | nil =>
      cases h
      exact .refl
    | cons b buf =>
      rw [copyoutLoop] at h
      obtain ⟨x, hx, h⟩ := bind_eq_ok.mp h
      cases x with
      | none =>
        cases h
        exact .refl
      | some p =>
        have hp := uva2ka_eq_some.mp hx
        exact (write_conserves (entry_mem_pages (user_lt hp rfl) hp)).trans (ih h)

/-- All pages that a successful `copyout` touches are for the user. -/
theorem copyoutLoop_user {va : Nat} {buf : List UInt8} (h : copyoutLoop d n m va buf = .ok (true, m'))
    (hne : 0 < buf.length) (hlo : va / PGSIZE ≤ b) (hhi : b * PGSIZE < va + buf.length) :
    ∃ p, d.entry b = some ⟨p, true⟩ := by
  induction n generalizing m va buf with
  | zero =>
    cases buf with
    | nil => simp at hne
    | cons _ _ => cases h
  | succ n ih =>
    cases buf with
    | nil => simp at hne
    | cons c buf =>
      rw [copyoutLoop] at h
      obtain ⟨x, hx, h⟩ := bind_eq_ok.mp h
      cases x with
      | none => cases h
      | some p =>
        have hp := uva2ka_eq_some.mp hx
        have hpage := user_lt hp rfl
        by_cases hb : b = va / PGSIZE
        · exact ⟨p, hb ▸ hp⟩
        · have hva : (va - va % PGSIZE + PGSIZE) % 2 ^ 32 = (va / PGSIZE + 1) * PGSIZE := by
            simp only [USERPAGES, KERNBASE, PGSIZE] at hpage ⊢
            omega
          rw [hva] at h
          simp only [List.length_cons, PGSIZE] at hhi hlo hb
          refine ih h ?_ ?_ ?_
          · simp only [List.length_drop, List.length_cons, PGSIZE]
            omega
          · rw [Nat.mul_div_cancel _ (by decide)]
            simp only [PGSIZE]
            omega
          · simp only [List.length_drop, List.length_cons, PGSIZE]
            omega

/-- `copyout` succeeds if all pages that it touches are for the user. -/
theorem copyoutLoop_ok {va : Nat} {buf : List UInt8} (hn : buf.length ≤ n)
    (hu : ∀ b, va / PGSIZE ≤ b → b * PGSIZE < va + buf.length → ∃ p, d.entry b = some ⟨p, true⟩) :
    ∃ m', copyoutLoop d n m va buf = .ok (true, m') := by
  induction n generalizing m va buf with
  | zero =>
    cases buf with
    | nil => exact ⟨m, rfl⟩
    | cons b buf => simp at hn
  | succ n ih =>
    cases buf with
    | nil => exact ⟨m, rfl⟩
    | cons b buf =>
      have hmod := Nat.div_add_mod va PGSIZE
      have hlt : va % PGSIZE < PGSIZE := Nat.mod_lt _ (by decide)
      obtain ⟨p, hp⟩ := hu (va / PGSIZE) le_rfl (by
        rw [Nat.mul_comm]
        simp only [List.length_cons]
        omega)
      have hpage : va / PGSIZE < USERPAGES := user_lt hp rfl
      rw [copyoutLoop, uva2ka_eq_some.mpr hp]
      have hva : (va - va % PGSIZE + PGSIZE) % 2 ^ 32 = (va / PGSIZE + 1) * PGSIZE := by
        simp only [USERPAGES, KERNBASE, PGSIZE] at hpage ⊢
        omega
      refine ih ?_ fun c hlo hhi => hu c ?_ ?_
      · simp only [List.length_drop, List.length_cons] at hn ⊢
        omega
      · rw [hva, Nat.mul_div_cancel _ (by decide)] at hlo
        omega
      · rw [hva] at hlo hhi
        rw [Nat.mul_div_cancel _ (by decide)] at hlo
        simp only [List.length_drop] at hhi
        simp only [List.length_cons, PGSIZE] at hhi hmod hlt ⊢
        omega

end Xv6.Vm
