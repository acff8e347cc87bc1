import Xv6.Vm.Private

namespace Xv6.Vm

open Xv6.Thread (Stop PGSIZE KERNBASE)
open Xv6.Lib

/-!
# Memory — proper use of `vm.c`

The operations of `vm.c` panic when they meet something that they do not expect: a page that is mapped
where they want to map one, or one that is not mapped where they need it.

* `Proper` — a call that meets nothing of that kind, in terms of the maps of `Xv6.Vm.Private`;
* `memory_succeeds` — in every state that is reached a proper call returns, also if there is no page left.
-/

variable {m m' m₁ : Mem} {d d' d₁ src : Dir} {a b n lo hi : Nat} {p q : Page} {e : Pte} {k : Memory}
  {pages : List Page}

/-- No page that belongs to the address space or is free is the page 0, which `kfree` refuses. -/
def NoZero (s : Mem × Dir) : Prop := 0 ∉ s.1.free ++ s.2.pages

theorem Conserves.noZero (h : Conserves m d m' d') (h0 : NoZero (m, d)) : NoZero (m', d') := fun hmem =>
  h0 (h.pages.mem_iff.mp hmem)

/-! ### Shrinking -/

theorem freePage_ok {s : Mem × Dir} (h0 : NoZero s) (ha : a < USERPAGES) :
    ∃ t, freePage s a = .ok t ∧ NoZero t := by
  obtain ⟨t, ht⟩ : ∃ t, freePage s a = .ok t := by
    unfold freePage
    split
    · rename_i e hw
      have hne : e.page ≠ 0 := fun hz => h0 (List.mem_append_right _
        (hz ▸ entry_mem_pages ha (Dir.entry_eq_some.mpr hw)))
      exact ⟨_, if_neg hne⟩
    · exact ⟨s, rfl⟩
  exact ⟨t, ht, (freePage_spec ha ht).1.noZero h0⟩

theorem freeTable_ok {i : Nat} (hhi : hi ≤ USERPAGES) {s : Mem × Dir} (h0 : NoZero s) :
    ∃ t, freeTable lo hi s i = .ok t ∧ NoZero t := by
  unfold freeTable
  split
  · exact ⟨s, rfl, h0⟩
  · refine foldlM_ok_of_mem (I := NoZero) (fun s b hb h0 => freePage_ok h0 ?_) h0
    rw [List.mem_range'_1] at hb
    omega

theorem deallocuvm_ok {oldsz : Nat} (newsz : Nat) (h0 : NoZero (m, d)) (hold : oldsz ≤ KERNBASE) :
    ∃ m' d', deallocuvm m d oldsz newsz = .ok (m', d') ∧ NoZero (m', d') := by
  unfold deallocuvm
  split
  · exact ⟨m, d, rfl, h0⟩
  · have hbody : ∀ s i, NoZero s → ∃ t, freeTable (pagesUp newsz) (pagesUp oldsz) s i = .ok t ∧ NoZero t :=
      fun s i h0 => freeTable_ok (pagesUp_le hold) h0
    obtain ⟨⟨m', d'⟩, ht, h0'⟩ := foldlM_ok hbody _ h0
    exact ⟨m', d', ht, h0'⟩

theorem freevm_ok (h0 : NoZero (m, d)) (pgdir : Page) : ∃ m', freevm m pgdir d = .ok m' := by
  obtain ⟨m', d', hde, -⟩ := deallocuvm_ok 0 h0 le_rfl
  rw [freevm, hde]
  exact ⟨_, rfl⟩

/-! ### Growing -/

theorem Built.noZero {m₀ : Mem} {pgdir : Page} (h : Built m₀ m pgdir d) (h0 : 0 ∉ m₀.free) :
    NoZero (m, d) := fun hmem =>
  h0 (h.pages.mem_iff.mp (List.perm_middle.mem_iff.mpr (List.mem_cons_of_mem _ hmem)))

/-- What `setupkvm` has built when it finds no more page for a page table. -/
theorem mapKernel_built {ok : Bool} {free : List Page} (hfree : m.free = p :: free)
    (h : mapKernel n (Mem.fill { m with free := free } p 0) ⟨[], fun _ => none⟩ = (ok, m', d')) :
    Built m m' p d' := by
  have hempty : Built m (Mem.fill { m with free := free } p 0) p ⟨[], fun _ => none⟩ := by
    have hpages : Dir.pages ⟨[], fun _ => none⟩ = [] := by
      rw [Dir.pages, List.append_nil, List.flatMap_eq_nil_iff]
      exact fun _ _ => rfl
    refine ⟨?_, fun q hq => ?_⟩
    · rw [hpages, hfree]
      exact List.perm_append_singleton p free
    · have hqp : q ≠ p := fun hqp => hq (by rw [hfree, hqp]; exact List.mem_cons_self)
      exact Function.update_of_ne hqp _ _
  exact hempty.conserves (mapKernel_spec h).1

theorem setupkvm_ok (h0 : 0 ∉ m.free) : ∃ x m', setupkvm m = .ok (x, m') := by
  unfold setupkvm
  cases hfree : m.free with
  | nil =>
    simp only [kalloc, hfree]
    exact ⟨none, m, rfl⟩
  | cons p free =>
    simp only [kalloc, hfree]
    split
    · exact ⟨_, _, rfl⟩
    · rename_i m₁ d₁ hmap
      obtain ⟨m₂, hf⟩ := freevm_ok ((mapKernel_built hfree hmap).noZero h0) p
      rw [hf]
      exact ⟨none, m₂, rfl⟩

/-- `mappages` succeeds where no page is mapped, or there is no page left for a page table. -/
theorem mappages_returns (ha : a < USERPAGES) (hnone : d.entry a = none) :
    ∃ x, mappages m d a e = .ok x := by
  unfold mappages
  split
  · exact ⟨none, rfl⟩
  · rename_i m₁ d₁ hw
    split
    · rename_i e' hx
      have hentry : d₁.entry a = some e' := Dir.entry_eq_some.mpr hx
      rw [(walkAlloc_spec ha hw).2.1, hnone] at hentry
      cases hentry
    · exact ⟨_, rfl⟩

theorem allocLoop_returns {oldsz newsz : Nat} (h0 : NoZero (m, d)) (hnew : newsz ≤ KERNBASE)
    (hn : a + n ≤ USERPAGES) (hnone : ∀ b, a ≤ b → b < a + n → d.entry b = none) :
    ∃ x, allocLoop oldsz newsz n a m d = .ok x := by
  induction n generalizing a m d with
  | zero => exact ⟨_, rfl⟩
  | succ n ih =>
    unfold allocLoop
    cases hfree : m.free with
    | nil =>
      obtain ⟨m₁, d₁, hde, -⟩ := deallocuvm_ok oldsz h0 hnew
      simp only [kalloc, hfree]
      rw [hde]
      exact ⟨_, rfl⟩
    | cons p free =>
      simp only [kalloc, hfree]
      have h0' : NoZero (taken m free p fun _ => 0, d) := fun hmem => h0 (by
        show 0 ∈ m.free ++ d.pages
        rw [hfree]
        exact List.mem_cons_of_mem p hmem)
      obtain ⟨x, hmap⟩ := mappages_returns (m := taken m free p fun _ => 0) (e := ⟨p, true⟩)
        (by omega) (hnone a le_rfl (by omega))
      have hmap' := hmap
      rw [taken] at hmap'
      rw [Mem.fill]
      dsimp only
      rw [hmap']
      cases x with
      | none =>
        obtain ⟨m₁, d₁, hde, -⟩ := deallocuvm_ok oldsz h0' hnew
        rw [taken] at hde
        show ∃ x, (deallocuvm _ d newsz oldsz >>= _) = .ok x
        rw [hde]
        exact ⟨_, rfl⟩
      | some x =>
        obtain ⟨m₁, d₁⟩ := x
        obtain ⟨hpages, -, -, hentry⟩ := mappages_spec (by omega) hmap
        refine ih (fun hmem => h0 ?_) (by omega) fun b hlo hhi => ?_
        · have hmem' := hpages.mem_iff.mp hmem
          show 0 ∈ m.free ++ d.pages
          rw [hfree]
          exact hmem'
        · rw [hentry, Function.update_of_ne (by omega)]
          exact hnone b (by omega) (by omega)

theorem allocuvm_returns (oldsz newsz : Nat) (h0 : NoZero (m, d))
    (hnone : newsz < KERNBASE → ∀ b, pagesUp oldsz ≤ b → b < pagesUp newsz → d.entry b = none) :
    ∃ x, allocuvm m d oldsz newsz = .ok x := by
  unfold allocuvm
  split
  · exact ⟨_, rfl⟩
  · rename_i hnew
    split
    · exact ⟨_, rfl⟩
    · have hup : pagesUp oldsz ≤ pagesUp newsz := Nat.div_le_div_right (by omega)
      have hle : pagesUp newsz ≤ USERPAGES := pagesUp_le (by omega)
      refine allocLoop_returns h0 (by omega) (by omega) fun b hlo hhi => ?_
      exact hnone (by omega) b hlo (by omega)

/-! ### Copying -/

theorem copyLoop_returns (hn : a + n ≤ USERPAGES) (hsrc : ∀ b, a ≤ b → b < a + n → src.entry b ≠ none)
    (hnone : ∀ b, a ≤ b → b < a + n → d.entry b = none) : ∃ x, copyLoop src n a m d = .ok x := by
  induction n generalizing a m d with
  | zero => exact ⟨_, rfl⟩
  | succ n ih =>
    obtain ⟨pte, hpte⟩ := Option.ne_none_iff_exists'.mp (hsrc a le_rfl (by omega))
    rw [copyLoop, Dir.entry_eq_some.mp hpte]
    dsimp only
    cases hfree : m.free with
    | nil =>
      simp only [kalloc, hfree]
      exact ⟨_, rfl⟩
    | cons p free =>
      simp only [kalloc, hfree]
      obtain ⟨x, hmap⟩ := mappages_returns (m := taken m free p (m.data pte.page)) (e := ⟨p, pte.user⟩)
        (by omega) (hnone a le_rfl (by omega))
      have hmap' := hmap
      rw [taken] at hmap'
      rw [Mem.copy]
      dsimp only
      rw [hmap']
      cases x with
      | none => exact ⟨_, rfl⟩
      | some x =>
        obtain ⟨m₁, d₁⟩ := x
        obtain ⟨-, -, -, hentry⟩ := mappages_spec (by omega) hmap
        refine ih (by omega) (fun b hlo hhi => hsrc b (by omega) (by omega)) fun b hlo hhi => ?_
        rw [hentry, Function.update_of_ne (by omega)]
        exact hnone b (by omega) (by omega)

theorem copyuvm_returns {sz : Nat} (hfree : m.free.Nodup) (h0 : 0 ∉ m.free)
    (hdisj : ∀ p ∈ src.pages, p ∉ m.free) (hsz : sz ≤ KERNBASE)
    (hsrc : ∀ b < pagesUp sz, src.entry b ≠ none) : ∃ x m', copyuvm m src sz = .ok (x, m') := by
  obtain ⟨y, m₁, hsetup⟩ := setupkvm_ok h0
  have hspec := setupkvm_spec hsetup
  rw [copyuvm, hsetup]
  cases y with
  | none => exact ⟨none, m₁, rfl⟩
  | some y =>
    obtain ⟨page, d₁⟩ := y
    obtain ⟨hbuilt, hnone⟩ := hspec
    have hup := pagesUp_le hsz
    obtain ⟨⟨ok, m₂, d₂⟩, hloop⟩ := copyLoop_returns (m := m₁) (d := d₁) (a := 0) (n := pagesUp sz)
      (by omega) (fun b _ hb => hsrc b (by omega)) fun b _ hb => hnone b (by omega)
    rw [ok_bind]
    dsimp only
    rw [hloop, ok_bind]
    cases ok with
    | true => exact ⟨_, _, rfl⟩
    | false =>
      have hnodup : (page :: (m₁.free ++ d₁.pages)).Nodup :=
        (List.perm_middle.symm.trans hbuilt.pages).nodup_iff.mpr hfree
      have hin : ∀ q, q ∈ m₁.free ++ d₁.pages → q ∈ m.free := fun q hq =>
        hbuilt.pages.mem_iff.mp (List.perm_middle.mem_iff.mpr (List.mem_cons_of_mem _ hq))
      have hcons := (copyLoop_view (List.nodup_cons.mp hnodup).2
        (fun b hb e he hmem => hdisj e.page (entry_mem_pages hb he) (hin _ hmem)) (by omega) hloop).1
      obtain ⟨m₃, hf⟩ := freevm_ok (hcons.noZero (hbuilt.noZero h0)) page
      refine ⟨none, m₃, ?_⟩
      dsimp only
      rw [if_neg (by decide), hf]
      rfl

/-! ### Bytes -/

theorem loaduvm_returns (file : List UInt8) {addr : Nat} (off : Nat) {sz : Nat} (haddr : addr % PGSIZE = 0)
    (huser : ∀ b, addr / PGSIZE ≤ b → b < addr / PGSIZE + pagesUp sz → ∃ p, d.entry b = some ⟨p, true⟩) :
    ∃ x, loaduvm m d addr file off sz = .ok x := by
  rw [loaduvm, if_neg (not_not.mpr haddr)]
  have hloop : ∀ n i m, i % PGSIZE = 0 → i / PGSIZE + n = pagesUp sz →
      ∃ x, loadLoop file d addr off sz n i m = .ok x := by
    intro n
    induction n with
    | zero => exact fun i m _ _ => ⟨_, rfl⟩
    | succ n ih =>
      intro i m hi hn
      have hdiv : (addr + i) / PGSIZE = addr / PGSIZE + i / PGSIZE := by
        simp only [PGSIZE] at *
        omega
      obtain ⟨p, he⟩ := huser (addr / PGSIZE + i / PGSIZE) (Nat.le_add_right ..) (by omega)
      rw [← hdiv] at he
      unfold loadLoop
      rw [Dir.entry_eq_some.mp he]
      dsimp only
      split
      · exact ⟨_, rfl⟩
      · split
        · exact ih _ _ (by simp only [PGSIZE] at *; omega) (by simp only [PGSIZE] at *; omega)
        · exact ⟨_, rfl⟩
  exact hloop (pagesUp sz) 0 m rfl (by simp)

theorem clearpteu_returns {uva : Nat} (h : d.entry (uva / PGSIZE) ≠ none) : ∃ d', clearpteu d uva = .ok d' := by
  obtain ⟨e, he⟩ := Option.ne_none_iff_exists'.mp h
  rw [clearpteu, Dir.entry_eq_some.mp he]
  exact ⟨_, rfl⟩

theorem copyoutLoop_returns {va : Nat} {buf : List UInt8} (hn : buf.length ≤ n)
    (hmapped : ∀ b, va / PGSIZE ≤ b → b * PGSIZE < va + buf.length → d.entry b ≠ none) :
    ∃ x, copyoutLoop d n m va buf = .ok x := by
  induction n generalizing m va buf with
  | zero =>
    rw [List.eq_nil_of_length_eq_zero (by omega : buf.length = 0)]
    exact ⟨_, rfl⟩
  | succ n ih =>
    cases buf with
    | nil => exact ⟨_, rfl⟩
    | cons c buf =>
      have hmod : va % PGSIZE < PGSIZE := Nat.mod_lt _ (by decide)
      have hva := Nat.div_add_mod va PGSIZE
      obtain ⟨⟨p, user⟩, he⟩ := Option.ne_none_iff_exists'.mp (hmapped (va / PGSIZE) le_rfl (by
        rw [Nat.mul_comm, List.length_cons]
        omega))
      cases user with
      | false =>
        have hx : uva2ka d va = .ok none := by
          rw [uva2ka, Dir.entry_eq_some.mp he]
          rfl
        rw [copyoutLoop, hx]
        exact ⟨_, rfl⟩
      | true =>
        have hlt := user_lt he rfl
        have hnext : (va - va % PGSIZE + PGSIZE) % 2 ^ 32 = (va / PGSIZE + 1) * PGSIZE := by
          simp only [USERPAGES, KERNBASE, PGSIZE] at hlt hmod hva ⊢
          omega
        rw [copyoutLoop, uva2ka_eq_some.mpr he]
        show ∃ x, copyoutLoop _ _ _ _ _ = .ok x
        refine ih ?_ fun b hlo hhi => hmapped b ?_ ?_
        · rw [List.length_drop]
          rw [List.length_cons] at hn ⊢
          omega
        · rw [hnext, Nat.mul_div_cancel _ (by decide)] at hlo
          omega
        · rw [hnext] at hhi
          rw [List.length_drop] at hhi
          rw [hnext, Nat.mul_div_cancel _ (by decide)] at hlo
          simp only [List.length_cons, PGSIZE] at hhi hva hmod ⊢
          omega

/-! ### The calls -/

/-- The call of a function of `vm.c` or `kalloc.c` finds what it needs. -/
def Proper (a : Page → Option View) : Call → Prop
  | .setupkvm | .kalloc | .kfree _ => True
  | .copyuvm q sz => ∃ v, a q = some v ∧ ∀ b < pagesUp sz, v b ≠ none
  | .allocuvm q oldsz newsz => ∃ v, a q = some v ∧
      (newsz < KERNBASE → ∀ b, pagesUp oldsz ≤ b → b < pagesUp newsz → v b = none)
  | .loaduvm q addr _ _ _ => a q ≠ none ∧ addr % PGSIZE = 0
  | .clearpteu q uva => ∃ v, a q = some v ∧ v (uva / PGSIZE) ≠ none
  | .copyout q va buf => ∃ v, a q = some v ∧
      ∀ b, va / PGSIZE ≤ b → b * PGSIZE < va + buf.length → v b ≠ none
  | .deallocuvm q _ _ | .freevm q | .load q _ | .store q _ _ => a q ≠ none

theorem entry_of_view {m : Mem} (h : view m d b ≠ none) : d.entry b ≠ none := fun hnone => by
  by_cases hb : b < USERPAGES
  · rw [view_user hb, hnone] at h
    exact h rfl
  · exact h (view_kernel hb)

theorem entry_none_of_view {m : Mem} (hb : b < USERPAGES) (h : view m d b = none) : d.entry b = none := by
  rwa [view_user hb, Option.map_eq_none_iff] at h

/-- A proper call returns. -/
theorem Shows.returns {a : Page → Option View} {c : Call} (h : Shows pages k a) (h0 : 0 ∉ pages)
    (hv : k.Valid c) (hp : Proper a c) : ∃ r k', k.call c = .ok (r, k') := by
  have hfree : 0 ∉ k.mem.free := fun hmem => h0 ((h.all 0).mp ⟨.free, hmem⟩)
  have hzero : ∀ {q d}, k.dir q = some d → NoZero (k.mem, d) := fun {q d} hd hmem => by
    rcases List.mem_append.mp hmem with hmem | hmem
    · exact hfree hmem
    · refine h0 ((h.all 0).mp ⟨.space q, ?_⟩)
      rw [owned_space hd]
      exact List.mem_cons_of_mem q hmem
  have hdir : ∀ {q}, a q ≠ none → ∃ d, k.dir q = some d := fun {q} hq => by
    rw [h.seen, ne_eq, Option.map_eq_none_iff] at hq
    exact Option.ne_none_iff_exists'.mp hq
  have hsome : ∀ {q v}, a q = some v → ∃ d, k.dir q = some d ∧ v = view k.mem d := fun {q v} hq => by
    obtain ⟨d, hd⟩ := hdir (q := q) (by rw [hq]; exact Option.some_ne_none v)
    refine ⟨d, hd, ?_⟩
    rw [h.space hd] at hq
    exact (Option.some.inj hq).symm
  cases c with
  | setupkvm =>
    obtain ⟨x, m', hx⟩ := setupkvm_ok hfree
    rw [Memory.call, hx]
    exact ⟨_, _, rfl⟩
  | copyuvm q sz =>
    obtain ⟨v, hq, hmapped⟩ := hp
    obtain ⟨d, hd, rfl⟩ := hsome hq
    obtain ⟨x, m', hx⟩ := copyuvm_returns (h.partition.nodup .free) hfree
      (fun p hp hmem => h.apart hd (o := .free) (fun heq => by cases heq) hp (List.mem_append_left _ hmem)) hv
      fun b hb => entry_of_view (hmapped b hb)
    rw [Memory.call, getDir_eq.mpr hd, ok_bind, hx]
    exact ⟨_, _, rfl⟩
  | allocuvm q oldsz newsz =>
    obtain ⟨v, hq, hnone⟩ := hp
    obtain ⟨d, hd, rfl⟩ := hsome hq
    obtain ⟨x, hx⟩ := allocuvm_returns oldsz newsz (hzero hd) fun hnew b hlo hhi =>
      entry_none_of_view (hhi.trans_le (pagesUp_le (Nat.le_of_lt hnew))) (hnone hnew b hlo hhi)
    rw [Memory.call, getDir_eq.mpr hd, ok_bind, hx]
    exact ⟨_, _, rfl⟩
  | deallocuvm q oldsz newsz =>
    obtain ⟨d, hd⟩ := hdir hp
    obtain ⟨m', d', hx, -⟩ := deallocuvm_ok newsz (hzero hd) hv
    rw [Memory.call, getDir_eq.mpr hd, ok_bind, hx]
    exact ⟨_, _, rfl⟩
  | loaduvm q addr file off sz =>
    obtain ⟨d, hd⟩ := hdir hp.1
    obtain ⟨x, hx⟩ := loaduvm_returns (m := k.mem) file off hp.2 (hv.2.2 d hd)
    rw [Memory.call, getDir_eq.mpr hd, ok_bind, hx]
    exact ⟨_, _, rfl⟩
  | clearpteu q uva =>
    obtain ⟨v, hq, hmapped⟩ := hp
    obtain ⟨d, hd, rfl⟩ := hsome hq
    obtain ⟨d', hx⟩ := clearpteu_returns (entry_of_view hmapped)
    rw [Memory.call, getDir_eq.mpr hd, ok_bind, hx]
    exact ⟨_, _, rfl⟩
  | copyout q va buf =>
    obtain ⟨v, hq, hmapped⟩ := hp
    obtain ⟨d, hd, rfl⟩ := hsome hq
    obtain ⟨x, hx⟩ := copyoutLoop_returns (m := k.mem) (n := buf.length) le_rfl fun b hlo hhi =>
      entry_of_view (hmapped b hlo hhi)
    rw [Memory.call, getDir_eq.mpr hd, ok_bind, copyout, hx]
    exact ⟨_, _, rfl⟩
  | freevm q =>
    obtain ⟨d, hd⟩ := hdir hp
    obtain ⟨m', hx⟩ := freevm_ok (hzero hd) q
    rw [Memory.call, getDir_eq.mpr hd, ok_bind, hx]
    exact ⟨_, _, rfl⟩
  | kalloc =>
    rw [Memory.call]
    split <;> exact ⟨_, _, rfl⟩
  | kfree p =>
    have hne : p ≠ 0 := fun hz => h0 (hz ▸ (h.all p).mp ⟨.kernel, hv⟩)
    rw [Memory.call, if_neg hne]
    exact ⟨_, _, rfl⟩
  | load q va =>
    obtain ⟨d, hd⟩ := hdir hp
    rw [Memory.call, getDir_eq.mpr hd]
    exact ⟨_, _, rfl⟩
  | store q va b =>
    obtain ⟨d, hd⟩ := hdir hp
    rw [Memory.call, getDir_eq.mpr hd, ok_bind]
    split <;> exact ⟨_, _, rfl⟩

/-- In every state that is reached, a call that finds what it needs returns, and the run goes on: no
    operation panics because the memory is full, or because of what was done to other address spaces. -/
theorem memory_succeeds {es : List (Call × Result)} {c : Call} (hnodup : pages.Nodup) (h0 : 0 ∉ pages)
    (h : (memory pages).Trace es k) (hv : k.Valid c)
    (hp : Proper (fun p => (k.dir p).map (view k.mem)) c) :
    ∃ r k', (memory pages).Trace (es ++ [(c, r)]) k' := by
  obtain ⟨a, -, hk⟩ := (memory_simulates hnodup).trace h
  rw [← funext hk.seen] at hp
  obtain ⟨r, k', hcall⟩ := hk.returns h0 hv hp
  have hstep : (memory pages).step k (some (c, r)) k' := ⟨c, hv, by rw [Memory.step, hcall]; rfl⟩
  exact ⟨r, k', h.step hstep⟩

/-- The copy is copied again, for which the six pages that are left are too few. -/
theorem memory_succeeds_copied : ∃ es r k', (memory (List.range' 1 140)).Trace
    (es ++ [(.copyuvm 68 4096, r)]) k' := by
  have hstart : (memory (List.range' 1 140)).Trace []
      ⟨⟨List.range' 1 140, fun _ _ => 1⟩, fun _ => none, []⟩ := .start ⟨rfl, fun _ => rfl, rfl⟩
  have htest : runTest Memory.step (fun _ k => (k.dir 68).any fun d => (view k.mem d 0).isSome) []
      ⟨⟨List.range' 1 140, fun _ _ => 1⟩, fun _ => none, []⟩ copied = true := by decide +kernel
  obtain ⟨es, k, h, hk⟩ := System.Trace.of_runTest hstart valid_copied htest
  rw [Option.any_eq_true] at hk
  obtain ⟨d, hd, hview⟩ := hk
  have hproper : Proper (fun p => (k.dir p).map (view k.mem)) (.copyuvm 68 4096) := by
    refine ⟨view k.mem d, by simp only [hd, Option.map_some], fun b hb => ?_⟩
    obtain rfl : b = 0 := Nat.lt_one_iff.mp hb
    exact Option.isSome_iff_ne_none.mp hview
  obtain ⟨r, k', h'⟩ := memory_succeeds (c := .copyuvm 68 4096) (List.nodup_range' ..) (by decide) h
    (by decide : 4096 ≤ KERNBASE) hproper
  exact ⟨es, r, k', h'⟩

end Xv6.Vm
