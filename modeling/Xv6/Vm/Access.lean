import Xv6.Vm.Machine
import Xv6.Vm.Space

namespace Xv6.Vm

open Xv6.Thread (Stop PGSIZE KERNBASE)
open Xv6.Lib

/-!
# Memory — reading and writing user memory

* `Takes`, `allocuvm_ok` — `allocuvm` succeeds if there are pages, and writes only to them;
* `load` — the bytes that a program reads at an address;
* `store_spec`, `copyout_page` — what the kernel writes is read back.
-/

variable {m m' m₁ m₂ : Mem} {d d' : Dir} {a n va : Nat} {p : Page} {e : Pte} {buf : List UInt8}

/-! ### Taking pages -/

/-- At most `n` pages have been taken from the free list, and no other page has been written. -/
def Takes (m m' : Mem) (n : Nat) : Prop :=
  ∃ used, used.length ≤ n ∧ m.free = used ++ m'.free ∧ ∀ p, p ∉ used → m'.data p = m.data p

theorem Takes.refl : Takes m m n := ⟨[], Nat.zero_le _, rfl, fun _ _ => rfl⟩

theorem Takes.trans {n₁ n₂ : Nat} (h : Takes m m₁ n₁) (h₁ : Takes m₁ m₂ n₂) :
    Takes m m₂ (n₁ + n₂) := by
  obtain ⟨us, hus, hfree, hdata⟩ := h
  obtain ⟨vs, hvs, hfree₁, hdata₁⟩ := h₁
  refine ⟨us ++ vs, by simp only [List.length_append]; omega, by simp [hfree, hfree₁], fun p hp => ?_⟩
  rw [List.mem_append, not_or] at hp
  rw [hdata₁ p hp.2, hdata p hp.1]

theorem Takes.data (h : Takes m m' n) (hp : p ∉ m.free) : m'.data p = m.data p := by
  obtain ⟨us, _, hfree, hdata⟩ := h
  refine hdata p fun hmem => hp ?_
  rw [hfree]
  exact List.mem_append_left _ hmem

theorem Takes.subset (h : Takes m m' n) (hp : p ∈ m'.free) : p ∈ m.free := by
  obtain ⟨us, _, hfree, _⟩ := h
  rw [hfree]
  exact List.mem_append_right _ hp

theorem Takes.length_le (h : Takes m m' n) : m.free.length ≤ n + m'.free.length := by
  obtain ⟨us, hus, hfree, _⟩ := h
  rw [hfree, List.length_append]
  omega

/-- A page that is taken and filled. -/
theorem takes_fill {free : List Page} (hfree : m.free = p :: free) {v : UInt8} :
    Takes m (Mem.fill { m with free := free } p v) 1 := by
  refine ⟨[p], le_rfl, hfree, fun q hq => ?_⟩
  rw [List.mem_singleton] at hq
  simp [Mem.fill, hq]

theorem walkAlloc_ok (hfree : m.free ≠ []) :
    ∃ m' d', walkAlloc m d a = some (m', d') ∧ Takes m m' 1 := by
  unfold walkAlloc
  cases d.table (a / NPTENTRIES) with
  | some t => exact ⟨m, d, rfl, .refl⟩
  | none =>
    obtain ⟨p, free, hp⟩ := List.exists_cons_of_ne_nil hfree
    simp only [kalloc, hp]
    exact ⟨_, _, rfl, takes_fill hp⟩

/-- `mappages` succeeds on a page that is not mapped. -/
theorem mappages_ok (ha : a < USERPAGES) (hnone : d.entry a = none) (hfree : m.free ≠ []) :
    ∃ m' d', mappages m d a e = .ok (some (m', d')) ∧ Takes m m' 1 ∧
      d'.entry = Function.update d.entry a (some e) := by
  obtain ⟨m₁, d₁, hw, htakes⟩ := walkAlloc_ok (d := d) (a := a) hfree
  obtain ⟨_, hentry, htable⟩ := walkAlloc_spec ha hw
  obtain ⟨x, hx⟩ := Option.ne_none_iff_exists'.mp htable
  have hnone₁ : d₁.entry a = none := by rw [hentry, hnone]
  rw [Dir.entry, hx] at hnone₁
  obtain rfl : x = none := hnone₁
  refine ⟨m₁, d₁.setPte a (some e), ?_, htakes, ?_⟩
  · rw [mappages, hw]
    simp [hx]
  · rw [entry_setPte ha htable, hentry]

/-- The loop of `allocuvm` succeeds if there are two pages for every page, one of them for a page
    table. -/
theorem allocLoop_ok (oldsz newsz : Nat) (hn : a + n ≤ USERPAGES)
    (hnone : ∀ b, a ≤ b → b < a + n → d.entry b = none) (hfree : 2 * n ≤ m.free.length) :
    ∃ m' d', allocLoop oldsz newsz n a m d = .ok (newsz, m', d') ∧ Takes m m' (2 * n) ∧
      Grows d d' a (a + n) ∧
      ∀ b e, a ≤ b → b < a + n → d'.entry b = some e → e.page ∈ m.free := by
  induction n generalizing a m d with
  | zero =>
    refine ⟨m, d, rfl, .refl, ⟨fun b hlo hhi => ?_, fun b hlo hhi => ?_, fun _ _ => rfl⟩,
      fun b e hlo hhi => ?_⟩ <;> omega
  | succ n ih =>
    cases hm : m.free with
    | nil =>
      rw [hm] at hfree
      simp at hfree
    | cons p free =>
      have hlen : 2 * n + 1 ≤ free.length := by
        rw [hm, List.length_cons] at hfree
        omega
      have htake := takes_fill hm (v := 0)
      obtain ⟨m₁, d₁, hmap, htake₁, hentry⟩ := mappages_ok (m := Mem.fill { m with free := free } p 0)
        (d := d) (e := ⟨p, true⟩) (by omega) (hnone a le_rfl (by omega))
        (List.ne_nil_of_length_pos (by show 0 < free.length; omega))
      have hlen₁ : free.length ≤ 1 + m₁.free.length := htake₁.length_le
      obtain ⟨m₂, d₂, hloop, htake₂, hgrow, hpages⟩ := ih (a := a + 1) (m := m₁) (d := d₁) (by omega)
        (fun b hlo hhi => by
          rw [hentry, Function.update_of_ne (by omega)]
          exact hnone b (by omega) (by omega)) (by omega)
      rw [Nat.add_right_comm] at hgrow
      refine ⟨m₂, d₂, ?_, ?_, hgrow.cons (hnone a le_rfl (by omega)) hentry, ?_⟩
      · rw [allocLoop]
        simp only [kalloc, hm, hmap]
        exact hloop
      · have hall := (htake.trans htake₁).trans htake₂
        rwa [show 1 + 1 + 2 * n = 2 * (n + 1) by omega] at hall
      · intro b e hlo hhi hb
        by_cases hba : b = a
        · rw [hba, hgrow.old a (by omega), hentry, Function.update_self] at hb
          rw [← Option.some.inj hb]
          exact List.mem_cons_self
        · rw [← hm]
          exact htake.subset (htake₁.subset (hpages b e (by omega) (by omega) hb))

/-- `allocuvm` succeeds. -/
theorem allocuvm_ok (oldsz newsz : Nat) (hle : oldsz ≤ newsz) (hnew : newsz < KERNBASE)
    (hnone : ∀ b, pagesUp oldsz ≤ b → b < pagesUp newsz → d.entry b = none)
    (hfree : 2 * (pagesUp newsz - pagesUp oldsz) ≤ m.free.length) :
    ∃ m' d', allocuvm m d oldsz newsz = .ok (newsz, m', d') ∧
      Takes m m' (2 * (pagesUp newsz - pagesUp oldsz)) ∧
      Grows d d' (pagesUp oldsz) (pagesUp newsz) ∧
      ∀ b e, pagesUp oldsz ≤ b → b < pagesUp newsz → d'.entry b = some e → e.page ∈ m.free := by
  have hpages : pagesUp oldsz ≤ pagesUp newsz := Nat.div_le_div_right (by omega)
  have hup := pagesUp_le hnew.le
  have hsum : pagesUp oldsz + (pagesUp newsz - pagesUp oldsz) = pagesUp newsz := by omega
  have hloop := allocLoop_ok (m := m) (d := d) oldsz newsz
    (n := pagesUp newsz - pagesUp oldsz) (a := pagesUp oldsz)
  rw [hsum] at hloop
  rw [allocuvm, if_neg (by omega), if_neg (by omega)]
  exact hloop hup hnone hfree

/-! ### Bytes -/

/-- The byte at an address, if the page is mapped. -/
def load (m : Mem) (d : Dir) (va : Nat) : Option UInt8 :=
  (d.entry (va / PGSIZE)).map fun e => m.data e.page (va % PGSIZE)

/-- The bytes from an address on. -/
def loads (m : Mem) (d : Dir) (va n : Nat) : List (Option UInt8) :=
  (List.range n).map fun i => load m d (va + i)

theorem loads_eq {xs : List UInt8} (h : ∀ i b, xs[i]? = some b → load m d (va + i) = some b) :
    loads m d va xs.length = xs.map some := by
  refine List.ext_getElem? fun i => ?_
  unfold loads
  rw [List.getElem?_map, List.getElem?_map]
  cases hi : xs[i]? with
  | none =>
    rw [List.getElem?_eq_none_iff] at hi
    rw [List.getElem?_eq_none (by simpa using hi)]
    rfl
  | some b =>
    obtain ⟨hlt, -⟩ := List.getElem?_eq_some_iff.mp hi
    rw [List.getElem?_range hlt, Option.map_some, Option.map_some, h i b hi]

/-- The bytes at other places of their pages are not written by `store`. -/
theorem store_other (h : store m d va buf = .ok m') {off : Nat}
    (hoff : ∀ i < buf.length, (va + i) % PGSIZE ≠ off) (p : Page) :
    m'.data p off = m.data p off := by
  induction buf generalizing m va with
  | nil =>
    cases h
    rfl
  | cons b buf ih =>
    rw [store] at h
    split at h
    · rename_i e he
      rw [ih h fun i hi => by
        rw [Nat.add_assoc, Nat.add_comm 1]
        exact hoff (i + 1) (by simpa using hi)]
      have hne : off ≠ va % PGSIZE := fun heq => hoff 0 (by simp) heq.symm
      by_cases hp : p = e.page
      · subst hp
        have hout : ¬ (va % PGSIZE ≤ off ∧ off < va % PGSIZE + [b].length) := by
          simp only [List.length_singleton]
          omega
        simp only [Mem.write, Function.update_self]
        exact if_neg hout
      · simp [Mem.write, hp]
    · cases h

/-- `store` writes only to the pages of its addresses. -/
theorem store_frame (h : store m d va buf = .ok m') :
    m'.free = m.free ∧ ∀ p, (∀ i < buf.length, ∀ e, d.entry ((va + i) / PGSIZE) = some e →
      e.page ≠ p) → m'.data p = m.data p := by
  induction buf generalizing m va with
  | nil =>
    cases h
    exact ⟨rfl, fun _ _ => rfl⟩
  | cons b buf ih =>
    rw [store] at h
    split at h
    · rename_i e he
      obtain ⟨hfree, hdata⟩ := ih h
      refine ⟨hfree, fun p hp => ?_⟩
      have hne : p ≠ e.page := fun hpe => hp 0 (by simp) e (Dir.entry_eq_some.mpr he) hpe.symm
      rw [hdata p fun i hi e' he' => hp (i + 1) (by simpa using hi) e' (by
        rwa [Nat.add_assoc, Nat.add_comm 1] at he')]
      simp [Mem.write, hne]
    · cases h

/-- `store` succeeds if all pages are mapped. -/
theorem store_ok (va : Nat) (buf : List UInt8)
    (h : ∀ i < buf.length, d.entry ((va + i) / PGSIZE) ≠ none) :
    ∃ m', store m d va buf = .ok m' := by
  induction buf generalizing m va with
  | nil => exact ⟨m, rfl⟩
  | cons b buf ih =>
    obtain ⟨e, he⟩ := Option.ne_none_iff_exists'.mp (h 0 (by simp))
    rw [Nat.add_zero, Dir.entry_eq_some] at he
    rw [store, he]
    refine ih _ fun i hi => ?_
    rw [Nat.add_assoc, Nat.add_comm 1]
    exact h (i + 1) (by simpa using hi)

/-- The bytes that `store` has written. -/
theorem store_loads (hlen : buf.length ≤ PGSIZE) (h : store m d va buf = .ok m') :
    loads m' d va buf.length = buf.map some := by
  refine loads_eq fun i x hi => ?_
  induction buf generalizing m va i with
  | nil => simp at hi
  | cons b buf ih =>
    rw [List.length_cons] at hlen
    rw [store] at h
    split at h
    · rename_i e he
      cases i with
      | zero =>
        obtain rfl : b = x := by simpa using hi
        rw [Nat.add_zero, load, Dir.entry_eq_some.mpr he, Option.map_some,
          store_other h fun j hj => ?_]
        · simp [Mem.write]
        · -- The other bytes are less than a page away.
          simp only [PGSIZE] at *
          omega
      | succ i =>
        have hload := ih (by omega) h i (by simpa using hi)
        rwa [Nat.add_assoc, Nat.add_comm 1] at hload
    · cases h

/-- `copyout` to one page. -/
theorem copyout_page (buf : List UInt8) (hp : d.entry (va / PGSIZE) = some ⟨p, true⟩) (hne : buf ≠ [])
    (hlen : va % PGSIZE + buf.length ≤ PGSIZE) :
    copyout m d va buf = .ok (true, m.write p (va % PGSIZE) buf) := by
  obtain ⟨b, buf, rfl⟩ := List.exists_cons_of_ne_nil hne
  have hmin : min (PGSIZE - va % PGSIZE) (b :: buf).length = (b :: buf).length :=
    Nat.min_eq_right (by omega)
  rw [copyout, List.length_cons, copyoutLoop, uva2ka_eq_some.mpr hp]
  show copyoutLoop _ _ _ _ _ = _
  rw [hmin, List.take_length, List.drop_length]
  cases buf.length <;> rfl

/-- The bytes that `copyout` has written. -/
theorem write_loads (va : Nat) (buf : List UInt8) (hp : d.entry (va / PGSIZE) = some e)
    (hlen : va % PGSIZE + buf.length ≤ PGSIZE) :
    loads (m.write e.page (va % PGSIZE) buf) d va buf.length = buf.map some := by
  refine loads_eq fun i x hi => ?_
  obtain ⟨hlt, hget⟩ := List.getElem?_eq_some_iff.mp hi
  have hdiv : (va + i) / PGSIZE = va / PGSIZE := by
    simp only [PGSIZE] at *
    omega
  have hmod : (va + i) % PGSIZE = va % PGSIZE + i := by
    simp only [PGSIZE] at *
    omega
  rw [load, hdiv, hp, Option.map_some, hmod]
  simp [Mem.write, hlt, hget]

@[simp] theorem word_length {v : Nat} : (word v).length = 4 := by simp [word]

/-- A byte at an address whose entry and whose page are as before. -/
theorem load_congr (hentry : d'.entry (va / PGSIZE) = d.entry (va / PGSIZE))
    (hdata : ∀ e, d.entry (va / PGSIZE) = some e → m'.data e.page = m.data e.page) :
    load m' d' va = load m d va := by
  rw [load, load, hentry]
  cases he : d.entry (va / PGSIZE) with
  | none => rfl
  | some e => simp [hdata e he]

theorem write_other {off : Nat} {q : Page} (h : q ≠ p) : (m.write p off buf).data q = m.data q := by
  simp [Mem.write, h]

end Xv6.Vm
