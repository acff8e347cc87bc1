import Xv6.Vm.Create

namespace Xv6.Vm

open Xv6.Thread (Kernel Proc Stop Slot Call NPROC PGSIZE KERNBASE pgRoundUp deref attach overLimit
  linkThread linked setSz firstUnused initSlot allocproc setProc_self setProc_other)
open Xv6.Lib

/-!
# Memory — the thread that `thread_create` makes

* `withThread` — the process table with the new thread;
* `create_thread` — when `thread_create` makes the thread that it should.
-/

variable {s s' : Machine} {k : Kernel} {c m z np p q : Slot} {xs ys : List Slot}
  {thread start arg newsz : Nat} {pgdir : Page} {d d' : Dir} {mem : Mem}

/-! ### The process table -/

/-- The process table before the new thread is linked. -/
def prepared (k : Kernel) (c m np : Slot) (newsz : Nat) : Kernel :=
  ((((attach (allocproc k c (.create m) true) c m np).setProc np fun q =>
    { q with sz := newsz }).setProc m fun q => { q with sz := newsz })).ret c 0

/-- The process table with the new thread. -/
def withThread (k : Kernel) (c m z np : Slot) (newsz : Nat) (xs : List Slot) : Kernel :=
  setSz (linked (prepared k c m np newsz) c z np) newsz xs

/-- `thread_create` counts the new thread, and changes no other slot before it sets the size. -/
theorem attached_other (hnp : firstUnused k = some np) (hq : q ≠ np) :
    (attach (allocproc k c (.create m) true) c m np).proc q = { k.proc q with
      createNum := if q = m then (k.proc q).createNum + 1 else (k.proc q).createNum } := by
  have halloc : (allocproc k c (.create m) true).proc q = k.proc q := by
    rw [allocproc, hnp]
    simp [Kernel.setProc, Kernel.setCall, initSlot, hq]
  by_cases hqm : q = m
  · subst hqm; simp [attach, Kernel.setProc, hq, halloc]
  · simp [attach, Kernel.setProc, hq, hqm, halloc]

/-- A slot other than the new one is prepared. -/
theorem prepared_other (hnp : firstUnused k = some np) (hq : q ≠ np) :
    (prepared k c m np newsz).proc q = { k.proc q with
      eax := if q = c then 0 else (k.proc q).eax
      sz := if q = m then newsz else (k.proc q).sz
      createNum := if q = m then (k.proc q).createNum + 1 else (k.proc q).createNum } := by
  have hattach := attached_other (c := c) (m := m) hnp hq
  by_cases hqc : q = c <;> by_cases hqm : q = m
  · subst hqc; subst hqm
    simp [prepared, Kernel.ret, Kernel.setProc, Kernel.setCall, hq, hattach]
  · subst hqc
    simp [prepared, Kernel.ret, Kernel.setProc, Kernel.setCall, hq, hqm, hattach]
  · subst hqm
    simp [prepared, Kernel.ret, Kernel.setProc, Kernel.setCall, hq, hqc, hattach]
  · simp [prepared, Kernel.ret, Kernel.setProc, Kernel.setCall, hq, hqc, hqm, hattach]

/-- The new slot is prepared. -/
theorem prepared_self (newsz : Nat) (hnp : firstUnused k = some np) (hm : m ≠ np) (hc : c ≠ np) :
    ((prepared k c m np newsz).proc np).pid = (k.proc m).pid ∧
    ((prepared k c m np newsz).proc np).pgdir = (k.proc c).pgdir ∧
    ((prepared k c m np newsz).proc np).tid = (k.proc m).createNum + 1 ∧
    ((prepared k c m np newsz).proc np).mainThread = some m := by
  have halloc : ∀ q, q ≠ np → (allocproc k c (.create m) true).proc q = k.proc q := by
    intro q hq
    rw [allocproc, hnp]
    simp [Kernel.setProc, Kernel.setCall, initSlot, hq]
  by_cases hcm : c = m
  · subst hcm
    simp [prepared, attach, Kernel.ret, Kernel.setProc, Kernel.setCall, hc.symm, halloc c hc]
  · simp [prepared, attach, Kernel.ret, Kernel.setProc, Kernel.setCall, hc, hc.symm, hm.symm, hcm,
      halloc c hc, halloc m hm]

/-- The last thread of the list is linked to the new one, all others are as before. -/
theorem linked_other (hq : q ≠ np) : (linked k c z np).proc q = { k.proc q with
    nextThread := if q = z then some np else (k.proc q).nextThread } := by
  by_cases hqz : q = z
  · subst hqz; simp [linked, Kernel.setProc, hq]
  · simp [linked, Kernel.setProc, hq, hqz]

theorem linked_self (k : Kernel) (c z np : Slot) :
    ((linked k c z np).proc np).pid = (k.proc np).pid ∧
    ((linked k c z np).proc np).pgdir = (k.proc np).pgdir ∧
    ((linked k c z np).proc np).tid = (k.proc np).tid ∧
    ((linked k c z np).proc np).mainThread = (k.proc np).mainThread ∧
    ((linked k c z np).proc np).state = .RUNNABLE := by
  by_cases hz : np = z
  · subst hz; simp [linked, Kernel.setProc, Thread.copyFiles]
  · simp [linked, Kernel.setProc, Thread.copyFiles, hz]

theorem chain_prepared (newsz : Nat) (hnp : firstUnused k = some np) (hxs : Chain k.next (some m) xs)
    (hnx : np ∉ xs) : Chain (prepared k c m np newsz).next (some m) xs := by
  refine hxs.congr fun q hq => ?_
  have hqn : q ≠ np := fun hqn => hnx (hqn ▸ hq)
  show ((prepared k c m np newsz).proc q).nextThread = _
  rw [prepared_other hnp hqn]
  rfl

/-- The slots of other processes are as before. -/
theorem withThread_other (hnp : firstUnused k = some np) (hz : z ∈ xs) (hc : c ∈ xs) (hm : m ∈ xs)
    (hq : q ∉ xs ++ [np]) : (withThread k c m z np newsz (xs ++ [np])).proc q = k.proc q := by
  rw [withThread, Thread.setSz_eq]
  dsimp only
  rw [if_neg hq]
  rw [List.mem_append, List.mem_singleton, not_or] at hq
  have hne : ∀ p ∈ xs, q ≠ p := fun p hp hqp => hq.1 (hqp ▸ hp)
  rw [linked_other hq.2, prepared_other hnp hq.2, if_neg (hne z hz), if_neg (hne c hc),
    if_neg (hne m hm), if_neg (hne m hm)]

/-- The slot of the calling thread. -/
theorem withThread_caller (hnp : firstUnused k = some np) (hc : c ∈ xs) (hcn : c ≠ np) :
    ((withThread k c m z np newsz (xs ++ [np])).proc c).eax = 0 := by
  rw [withThread, Thread.setSz_eq]
  dsimp only
  rw [if_pos (by simp [hc]), linked_other hcn, prepared_other hnp hcn]
  exact if_pos rfl

/-- The new slot. -/
theorem withThread_self (newsz : Nat) (xs : List Slot) (hnp : firstUnused k = some np) (hm : m ≠ np) (hc : c ≠ np) :
    ((withThread k c m z np newsz (xs ++ [np])).proc np).pid = (k.proc m).pid ∧
    ((withThread k c m z np newsz (xs ++ [np])).proc np).pgdir = (k.proc c).pgdir ∧
    ((withThread k c m z np newsz (xs ++ [np])).proc np).tid = (k.proc m).createNum + 1 ∧
    ((withThread k c m z np newsz (xs ++ [np])).proc np).mainThread = some m ∧
    ((withThread k c m z np newsz (xs ++ [np])).proc np).state = .RUNNABLE := by
  obtain ⟨hpid, hdir, htid, hmain⟩ := prepared_self newsz hnp hm hc
  obtain ⟨hpid', hdir', htid', hmain', hstate⟩ :=
    linked_self (prepared k c m np newsz) c z np
  rw [withThread, Thread.setSz_eq]
  dsimp only
  rw [if_pos (by simp)]
  exact ⟨hpid'.trans hpid, hdir'.trans hdir, htid'.trans htid, hmain'.trans hmain, hstate⟩

/-! ### The call -/

/-- `thread_create` has made the thread `np` of the process with the main thread `m`, the list of
    threads `xs`, the directory `d` in the page `pgdir`, and the new size `newsz`. -/
structure Created (s s' : Machine) (c m np : Slot) (xs : List Slot) (pgdir : Page) (d d' : Dir)
    (thread start arg newsz : Nat) : Prop where
  ret : (s'.kernel.proc c).eax = 0
  unused : (s.kernel.proc np).state = .UNUSED
  list : Chain s'.kernel.next (some m) (xs ++ [np])
  pid : (s'.kernel.proc np).pid = (s.kernel.proc m).pid
  dir : (s'.kernel.proc np).pgdir = (s.kernel.proc c).pgdir
  state : (s'.kernel.proc np).state = .RUNNABLE ∧ (s'.kernel.proc np).mainThread = some m
  tid : (s'.kernel.proc np).tid = (s.kernel.proc m).createNum + 1
  stored : loads s'.mem d' thread 4 = (word (s'.kernel.proc np).tid).map some
  fresh : ∀ t, Reachable Thread.TidInit (Steps Thread.tidStep fun _ _ => True) t →
    t.kernel = s.kernel → (s'.kernel.proc np).tid ∉ t.handed m
  tf : s'.tf np = ⟨start, newsz - 8⟩
  stack : loads s'.mem d' (newsz - 8) 8 = (word 0xffffffff ++ word arg).map some
  space : s'.dir pgdir = some d'
  upper : ∃ p, d'.entry (newsz / PGSIZE - 1) = some ⟨p, true⟩
  lower : ∃ p, d'.entry (newsz / PGSIZE - 2) = some ⟨p, false⟩
  below : ∀ b, b < pagesUp (s.kernel.proc m).sz → d'.entry b = d.entry b
  sizes : ∀ q ∈ xs ++ [np], (s'.kernel.proc q).sz = newsz
  others : ∀ q, q ∉ xs ++ [np] → s'.kernel.proc q = s.kernel.proc q ∧ s'.tf q = s.tf q
  dirs : ∀ p, p ≠ pgdir → s'.dir p = s.dir p
  pages : ∀ p, p ∉ s.mem.free ++ d.pages → s'.mem.data p = s.mem.data p

/-- What holds before the call: the list of threads of the process is intact, starts at the main
    thread, and has members that are in use; the calling thread is one of them; the pointer leads
    to memory of the process, and no page of the process is free. -/
structure Ready (s : Machine) (c m : Slot) (xs : List Slot) (pgdir : Page) (d : Dir)
    (thread : Nat) : Prop where
  main : (s.kernel.proc c).mainThread = some m
  list : Chain s.kernel.next (some m) xs
  caller : c ∈ xs
  used : ∀ q ∈ xs, (s.kernel.proc q).state ≠ .UNUSED
  dir : (s.kernel.proc c).pgdir = some pgdir
  space : s.dir pgdir = some d
  mapped : ∀ i < 4, d.entry ((thread + i) / PGSIZE) ≠ none
  bound : thread + 4 ≤ KERNBASE
  free : ∀ p ∈ s.mem.free, p ∉ d.pages

/-- There is a slot, there is memory, and the process stays below its limit. -/
structure Fits (s : Machine) (m : Slot) (newsz : Nat) : Prop where
  slot : firstUnused s.kernel ≠ none
  pages : 5 ≤ s.mem.free.length
  space : newsz < KERNBASE
  limit : ¬ overLimit s.kernel m newsz

/-- The size of the process with a new stack. -/
def newStack (s : Machine) (m : Slot) : Nat := pgRoundUp (s.kernel.proc m).sz + 2 * PGSIZE

/-- The pages of the new stack. -/
def StackFree (s : Machine) (m : Slot) (d : Dir) : Prop :=
  ∀ b, pagesUp (s.kernel.proc m).sz ≤ b → b < pagesUp (s.kernel.proc m).sz + 2 → d.entry b = none

theorem pagesUp_round {sz : Nat} : pagesUp (pgRoundUp sz) = pagesUp sz := by
  simp only [pagesUp, pgRoundUp, PGSIZE]
  omega

theorem pagesUp_newStack : pagesUp (newStack s m) = pagesUp (s.kernel.proc m).sz + 2 := by
  simp only [newStack, pagesUp, pgRoundUp, PGSIZE]
  omega

theorem newStack_div : newStack s m / PGSIZE = pagesUp (s.kernel.proc m).sz + 2 ∧
    newStack s m % PGSIZE = 0 := by
  simp only [newStack, pagesUp, pgRoundUp, PGSIZE]
  omega

/-- The part of `thread_create` behind the limit check. -/
theorem startThread_ok (pgdir : Page) (start arg : Nat) {k₁ : Kernel} {lo : Nat} {p q : Page}
    (hnew : newsz = (lo + 2) * PGSIZE) (hlt : newsz < KERNBASE)
    (hlower : d.entry lo = some ⟨q, true⟩) (hupper : d.entry (lo + 1) = some ⟨p, true⟩)
    (hlink : linkThread ((s.kernel.setProc np fun q => { q with sz := newsz }).setProc m
      (fun q => { q with sz := newsz }) |>.ret c 0) c np newsz = .ok k₁) :
    ∃ d', startThread s c m np pgdir d newsz start arg = .ok { s with
        kernel := k₁
        mem := s.mem.write p 4088 (word 0xffffffff ++ word arg)
        dir := Function.update s.dir pgdir (some d')
        tf := Function.update s.tf np ⟨start, newsz - 8⟩
        name := Function.update s.name np (s.name c) } ∧
      d'.entry = Function.update d.entry lo (some ⟨q, false⟩) := by
  have hlo : lo < USERPAGES := user_lt hlower rfl
  -- The addresses that the code computes.
  have hguard : sub32 newsz (2 * PGSIZE) / PGSIZE = lo := by
    simp only [sub32, PGSIZE, KERNBASE] at *
    omega
  have husp : sub32 newsz 8 = newsz - 8 := by
    simp only [sub32, PGSIZE, KERNBASE] at *
    omega
  have hdiv : (newsz - 8) / PGSIZE = lo + 1 := by
    simp only [PGSIZE] at *
    omega
  have hmod : (newsz - 8) % PGSIZE = 4088 := by
    simp only [PGSIZE] at *
    omega
  have hwalk := Dir.entry_eq_some.mp hlower
  refine ⟨d.setPte lo (some ⟨q, false⟩), ?_, entry_setPte hlo (by simp [hwalk])⟩
  have hclear : clearpteu d (sub32 newsz (2 * PGSIZE)) =
      .ok (d.setPte lo (some ⟨q, false⟩)) := by
    rw [clearpteu, hguard, hwalk]
    rfl
  have hpage : (d.setPte lo (some ⟨q, false⟩)).entry ((newsz - 8) / PGSIZE) = some ⟨p, true⟩ := by
    rw [hdiv, entry_setPte hlo (by simp [hwalk]), Function.update_of_ne (by omega), hupper]
  have hcopy := copyout_page (m := s.mem) (word 0xffffffff ++ word arg) hpage
    (by simp [word]) (by rw [hmod]; simp [word, PGSIZE])
  rw [hmod] at hcopy
  unfold startThread
  rw [hclear, husp]
  refine bind_eq_ok.mpr ⟨_, rfl, bind_eq_ok.mpr ⟨_, hcopy, ?_⟩⟩
  refine bind_eq_ok.mpr ⟨_, hlink, rfl⟩

/-- The memory when the stack has been allocated: the two new pages `pl` and `pu`, and the tid behind
    the pointer. -/
structure StackMemory (s : Machine) (m : Slot) (d : Dir) (thread : Nat) (mem : Mem) (d' : Dir)
    (pl pu : Page) : Prop where
  lower : d'.entry (pagesUp (s.kernel.proc m).sz) = some ⟨pl, true⟩
  upper : d'.entry (pagesUp (s.kernel.proc m).sz + 1) = some ⟨pu, true⟩
  old : ∀ b, d.entry b ≠ none ∨ b < pagesUp (s.kernel.proc m).sz → d'.entry b = d.entry b
  fresh : pu ∈ s.mem.free
  stored : loads mem d thread 4 = (word ((s.kernel.proc m).createNum + 1)).map some
  pages : ∀ p, p ∉ s.mem.free ++ d.pages → mem.data p = s.mem.data p

theorem Ready.page (hr : Ready s c m xs pgdir d thread) {i : Nat} (hi : i < 4) {e : Pte}
    (he : d.entry ((thread + i) / PGSIZE) = some e) : e.page ∈ d.pages := by
  refine entry_mem_pages ?_ he
  have hbound := hr.bound
  simp only [USERPAGES, KERNBASE, PGSIZE] at hbound ⊢
  omega

/-- The tid is stored and the stack is allocated. -/
theorem stack_memory (hr : Ready s c m xs pgdir d thread) (hf : Fits s m (newStack s m))
    (hstack : StackFree s m d) {free : List Page} {p : Page} (hfree : s.mem.free = p :: free) :
    ∃ m₁ m₂ d₂ pl pu,
      store { s.mem with free := free } d thread (word ((s.kernel.proc m).createNum + 1)) = .ok m₁ ∧
      allocuvm m₁ d (pgRoundUp (s.kernel.proc m).sz) (newStack s m) = .ok (newStack s m, m₂, d₂) ∧
      StackMemory s m d thread m₂ d₂ pl pu := by
  have hword : (word ((s.kernel.proc m).createNum + 1)).length = 4 := word_length
  obtain ⟨m₁, hstore⟩ := store_ok (m := { s.mem with free := free }) (d := d) thread
    (word ((s.kernel.proc m).createNum + 1)) (by rw [hword]; exact hr.mapped)
  obtain ⟨hfree₁, hdata₁⟩ := store_frame hstore
  have hsub : ∀ q ∈ m₁.free, q ∈ s.mem.free := fun q hq => by
    rw [hfree₁] at hq
    rw [hfree]
    exact List.mem_cons_of_mem _ hq
  have hlen : 4 ≤ m₁.free.length := by
    have hpages := hf.pages
    rw [hfree, List.length_cons] at hpages
    rw [hfree₁]
    show 4 ≤ free.length
    omega
  obtain ⟨m₂, d₂, halloc, htakes, hgrow, hnew⟩ := allocuvm_ok (m := m₁) (d := d)
    (pgRoundUp (s.kernel.proc m).sz) (newStack s m) (Nat.le_add_right ..)
    hf.space (by rw [pagesUp_round, pagesUp_newStack]; exact hstack)
    (by rw [pagesUp_round, pagesUp_newStack]; omega)
  rw [pagesUp_round, pagesUp_newStack] at hgrow hnew
  obtain ⟨pl, hlower⟩ := hgrow.new _ le_rfl (by omega)
  obtain ⟨pu, hupper⟩ := hgrow.new (pagesUp (s.kernel.proc m).sz + 1) (by omega) (by omega)
  refine ⟨m₁, m₂, d₂, pl, pu, hstore, halloc, hlower, hupper, fun b hb => hgrow.old b ?_,
    hsub _ (hnew _ _ (by omega) (by omega) hupper), ?_, fun q hq => ?_⟩
  · rcases hb with hb | hb
    · by_contra hin
      exact hb (hstack b (by omega) (by omega))
    · exact .inl hb
  · have hloads := store_loads (by rw [hword]; decide) hstore
    rw [hword] at hloads
    rw [← hloads]
    refine List.map_congr_left fun i hi => load_congr rfl fun e he => htakes.data fun hin => ?_
    exact hr.free _ (hsub _ hin) (hr.page (List.mem_range.mp hi) he)
  · rw [List.mem_append, not_or] at hq
    rw [htakes.data fun hin => hq.1 (hsub _ hin), hdata₁ q fun i hi e he heq =>
      hq.2 (heq ▸ hr.page (by rwa [hword] at hi) he)]

/-- The machine with the new thread. -/
def createdMachine (s : Machine) (c m z np : Slot) (xs : List Slot) (pgdir p pu : Page) (mem : Mem)
    (d₂ d₃ : Dir) (start arg : Nat) : Machine :=
  { s with
    kernel := withThread s.kernel c m z np (newStack s m) (xs ++ [np])
    mem := mem.write pu 4088 (word 0xffffffff ++ word arg)
    dir := Function.update (Function.update s.dir pgdir (some d₂)) pgdir (some d₃)
    kstack := Function.update s.kstack np (some p)
    tf := Function.update s.tf np ⟨start, newStack s m - 8⟩
    name := Function.update s.name np (s.name c) }

theorem Ready.main_mem (hr : Ready s c m xs pgdir d thread) : m ∈ xs := by
  obtain ⟨t, rfl, -⟩ := chain_some_iff.mp hr.list
  exact List.mem_cons_self

theorem Ready.new (hr : Ready s c m xs pgdir d thread) (hnp : firstUnused s.kernel = some np) :
    np ∉ xs := fun hmem => hr.used np hmem (Thread.firstUnused_state hnp)

/-- `thread_create` behind `allocproc`, when everything fits. -/
theorem createStack_ok (start arg : Nat) (hr : Ready s c m (ys ++ [z]) pgdir d thread) (hf : Fits s m (newStack s m))
    (hstack : StackFree s m d) (hnp : firstUnused s.kernel = some np) {free : List Page} {p : Page}
    (hfree : s.mem.free = p :: free) :
    ∃ mem d₂ d₃ pl pu, StackMemory s m d thread mem d₂ pl pu ∧
      d₃.entry = Function.update d₂.entry (pagesUp (s.kernel.proc m).sz) (some ⟨pl, false⟩) ∧
      createStack { s with kernel := allocproc s.kernel c (.create m) true
                           mem := { s.mem with free := free }
                           kstack := Function.update s.kstack np (some p) }
        c m np thread start arg =
        .ok (createdMachine s c m z np (ys ++ [z]) pgdir p pu mem d₂ d₃ start arg) := by
  have hnx := hr.new hnp
  have hcn : c ≠ np := fun h => hnx (h ▸ hr.caller)
  have hmn : m ≠ np := fun h => hnx (h ▸ hr.main_mem)
  have hc₁ := attached_other (c := c) (m := m) hnp hcn
  have hm₁ := attached_other (c := c) (m := m) hnp hmn
  -- The last thread is linked to the new one.
  have hchain : Chain (prepared s.kernel c m np (newStack s m)).next (some m) (ys ++ [z]) :=
    chain_prepared _ hnp hr.list hnx
  have hlink : linkThread (prepared s.kernel c m np (newStack s m)) c np (newStack s m) =
      .ok (withThread s.kernel c m z np (newStack s m) (ys ++ [z] ++ [np])) := by
    refine Thread.linkThread_eq _ hchain hr.caller hnx ?_
    rw [prepared_other hnp hcn]
    exact hr.main
  rw [prepared] at hlink
  generalize hk₁ : attach (allocproc s.kernel c (.create m) true) c m np = k₁ at hc₁ hm₁ hlink
  have hlim₁ : ¬ overLimit k₁ m (newStack s m) := by
    have hlimit := hf.limit
    rw [overLimit] at hlimit ⊢
    rwa [hm₁]
  obtain ⟨m₁, m₂, d₂, pl, pu, hstore, halloc, hmem⟩ := stack_memory hr hf hstack hfree
  have hdiv := newStack_div (s := s) (m := m)
  obtain ⟨d₃, hstart, hentry⟩ := startThread_ok pgdir start arg (s := { s with
      kernel := k₁, mem := m₂, dir := Function.update s.dir pgdir (some d₂)
      kstack := Function.update s.kstack np (some p) })
    (by rw [← hdiv.1, Nat.mul_comm]; exact (Nat.mul_div_cancel' (Nat.dvd_of_mod_eq_zero hdiv.2)).symm)
    hf.space hmem.lower hmem.upper hlink
  refine ⟨m₂, d₂, d₃, pl, pu, hmem, hentry, ?_⟩
  unfold createStack
  rw [hk₁]
  refine bind_eq_ok.mpr ⟨(pgdir, d), ?_, bind_eq_ok.mpr ⟨m₁, ?_,
    bind_eq_ok.mpr ⟨(newStack s m, m₂, d₂), ?_, ?_⟩⟩⟩
  · rw [hc₁]
    simp [Machine.getDir, hr.dir, hr.space]
  · rw [hm₁, if_pos rfl]
    exact hstore
  · rw [hm₁]
    exact halloc
  · dsimp only
    rw [if_neg hlim₁]
    exact hstart

/-- The thread that has been made. -/
theorem created_of (hr : Ready s c m (ys ++ [z]) pgdir d thread)
    (hnp : firstUnused s.kernel = some np) {p pl pu : Page} {d₂ d₃ : Dir}
    (hstack : StackFree s m d) (hmem : StackMemory s m d thread mem d₂ pl pu)
    (hentry : d₃.entry = Function.update d₂.entry (pagesUp (s.kernel.proc m).sz) (some ⟨pl, false⟩)) :
    Created s (createdMachine s c m z np (ys ++ [z]) pgdir p pu mem d₂ d₃ start arg) c m np
      (ys ++ [z]) pgdir d d₃ thread start arg (newStack s m) := by
  have hnx := hr.new hnp
  have hcn : c ≠ np := fun h => hnx (h ▸ hr.caller)
  have hmn : m ≠ np := fun h => hnx (h ▸ hr.main_mem)
  have hdiv := newStack_div (s := s) (m := m)
  have husp : (newStack s m - 8) / PGSIZE = pagesUp (s.kernel.proc m).sz + 1 ∧
      (newStack s m - 8) % PGSIZE = 4088 := by
    simp only [PGSIZE] at hdiv ⊢
    omega
  obtain ⟨hpid, hpg, htid, hmain, hstate⟩ := withThread_self (newStack s m) (ys ++ [z])
    (z := z) hnp hmn hcn
  have htid' : ((createdMachine s c m z np (ys ++ [z]) pgdir p pu mem d₂ d₃ start arg).kernel.proc
      np).tid = (s.kernel.proc m).createNum + 1 := htid
  have hold : ∀ b, d.entry b ≠ none ∨ b < pagesUp (s.kernel.proc m).sz → d₃.entry b = d.entry b := by
    intro b hb
    have hne : b ≠ pagesUp (s.kernel.proc m).sz := by
      rintro rfl
      exact hb.elim (fun h => h (hstack _ le_rfl (by omega))) (Nat.lt_irrefl _)
    rw [hentry, Function.update_of_ne hne, hmem.old b hb]
  have hupper : d₃.entry (pagesUp (s.kernel.proc m).sz + 1) = some ⟨pu, true⟩ := by
    rw [hentry, Function.update_of_ne (by omega), hmem.upper]
  refine {
    ret := withThread_caller hnp hr.caller hcn
    unused := Thread.firstUnused_state hnp
    list := ?_
    pid := hpid
    dir := hpg
    state := ⟨hstate, hmain⟩
    tid := htid
    stored := ?_
    fresh := fun t ht hts => ?_
    tf := Function.update_self ..
    stack := ?_
    space := Function.update_self ..
    upper := ⟨pu, ?_⟩
    lower := ⟨pl, ?_⟩
    below := fun b hb => hold b (.inr hb)
    sizes := fun q hq => ?_
    others := fun q hq => ⟨withThread_other hnp (by simp) hr.caller hr.main_mem hq, ?_⟩
    dirs := fun q hq => ?_
    pages := fun q hq => ?_ }
  · have hlist := Thread.chain_linked (c := c)
      (chain_prepared (c := c) (newStack s m) hnp hr.list hnx) hnx
    show Chain (withThread s.kernel c m z np (newStack s m) (ys ++ [z] ++ [np])).next _ _
    rw [withThread, Thread.setSz_eq]
    refine hlist.congr fun q hq => ?_
    show (if q ∈ _ then _ else _ : Proc).nextThread = _
    split <;> rfl
  · rw [htid', ← hmem.stored]
    refine List.map_congr_left fun i hi => ?_
    have hi := List.mem_range.mp hi
    refine load_congr (hold _ (.inl (hr.mapped i hi))) fun e he => write_other fun heq => ?_
    exact hr.free pu hmem.fresh (heq ▸ hr.page hi he)
  · rw [htid', ← hts]
    exact Thread.tid_new ht
  · have hwrite := write_loads (m := mem) (d := d₃) (newStack s m - 8)
      (word 0xffffffff ++ word arg) (by rw [husp.1]; exact hupper) (by
        rw [husp.2, List.length_append, word_length, word_length]; decide)
    rw [husp.2, List.length_append, word_length, word_length] at hwrite
    exact hwrite
  · rw [hdiv.1]
    exact hupper
  · rw [hdiv.1, Nat.add_sub_cancel, hentry, Function.update_self]
  · show (Kernel.proc (withThread _ _ _ _ _ _ _) q).sz = _
    rw [withThread, Thread.setSz_eq]
    dsimp only
    rw [if_pos hq]
  · refine Function.update_of_ne ?_ _ _
    rintro rfl
    exact hq (by simp)
  · show Function.update _ pgdir _ q = _
    rw [Function.update_of_ne hq]
    exact Function.update_of_ne hq _ _
  · have hpu : q ≠ pu := fun heq => hq (List.mem_append_left _ (heq ▸ hmem.fresh))
    exact (write_other hpu).trans (hmem.pages q hq)

/-! ### When the call succeeds -/

/-- An address in the kernel part is not written by `copyout`. -/
theorem copyout_kernel (mem : Mem) (va : Nat) (b : UInt8) (buf : List UInt8) {e : Pte}
    (ha : ¬ va / PGSIZE < USERPAGES) (he : kernelPte (va / PGSIZE) = some (some e))
    (hu : e.user = false) : copyout mem d va (b :: buf) = .ok (false, mem) := by
  rw [copyout, List.length_cons, copyoutLoop, uva2ka, walk_kernel ha, he]
  simp only [hu]
  rfl

/-- Without memory for the stack the call fails. -/
theorem startThread_zero (h : startThread s c m np pgdir d 0 start arg = .ok s') :
    (s'.kernel.proc c).eax = -1 := by
  have hlast : sub32 0 8 / PGSIZE = 1048575 := by decide
  have hpte : kernelPte 1048575 = some (some ⟨1048575, false⟩) := by
    rw [kernelPte, if_neg (by decide), if_neg (by decide)]
  unfold startThread at h
  obtain ⟨d₁, -, h⟩ := bind_eq_ok.mp h
  obtain ⟨⟨ok, mem⟩, hcopy, h⟩ := bind_eq_ok.mp h
  have hfalse := copyout_kernel (d := d₁) s.mem (sub32 0 8) 255
    ([255, 255, 255] ++ word arg) (by rw [hlast]; decide) (by rw [hlast]; exact hpte) rfl
  have hok : ok = false := by
    have heq := hcopy.symm.trans hfalse
    cases heq
    rfl
  subst hok
  cases h
  show ((Kernel.ret _ c (-1)).proc c).eax = -1
  simp [Kernel.ret, Kernel.setCall, Kernel.setProc]

/-- A call that has not failed has found the pages of the stack free. -/
theorem stackFree_of_ok (hr : Ready s c m xs pgdir d thread) (hnp : firstUnused s.kernel = some np)
    {t : Machine} (hk : t.kernel = allocproc s.kernel c (.create m) true) (hd : t.dir = s.dir)
    (h : createStack t c m np thread start arg = .ok s') (heax : (s'.kernel.proc c).eax ≠ -1) :
    StackFree s m d := by
  have hnx := hr.new hnp
  have hc₁ := attached_other (c := c) (m := m) (k := s.kernel) hnp fun h => hnx (h ▸ hr.caller)
  have hm₁ := attached_other (c := c) (m := m) (k := s.kernel) hnp fun h => hnx (h ▸ hr.main_mem)
  unfold createStack at h
  rw [hk] at h
  generalize attach (allocproc s.kernel c (.create m) true) c m np = k₁ at hc₁ hm₁ h
  obtain ⟨⟨pg, d₀⟩, hdir, h⟩ := bind_eq_ok.mp h
  obtain ⟨m₁, -, h⟩ := bind_eq_ok.mp h
  obtain ⟨⟨newsz, m₂, d₂⟩, halloc, h⟩ := bind_eq_ok.mp h
  have hd₀ : d₀ = d := by
    have hget : t.getDir (some pgdir) = .ok (pgdir, d) := by
      simp [Machine.getDir, hd, hr.space]
    rw [hc₁] at hdir
    have heq := hdir.symm.trans ((congrArg t.getDir hr.dir).trans hget)
    cases heq
    rfl
  rw [hm₁, hd₀] at halloc
  dsimp only at halloc h
  obtain ⟨-, hzero | ⟨hr', -, hgrow⟩⟩ := allocuvm_spec halloc
  · -- There is no memory for the stack.
    refine absurd ?_ heax
    subst hzero
    split at h
    · rename_i hover
      exact absurd hover.2 (Nat.not_lt_zero _)
    · exact startThread_zero h
  · have hmax : newsz = newStack s m := by
      rw [hr']
      exact Nat.max_eq_right (Nat.le_add_right ..)
    rw [pagesUp_round, hmax, pagesUp_newStack] at hgrow
    exact hgrow.free

/-- With enough memory and below the limit, `thread_create` makes the thread that it should if and
    only if no page is mapped where the stack goes. -/
theorem create_thread (hr : Ready s c m xs pgdir d thread) (hf : Fits s m (newStack s m)) :
    (∃ s' np d', threadCreate s c thread start arg = .ok s' ∧
      Created s s' c m np xs pgdir d d' thread start arg (newStack s m)) ↔ StackFree s m d := by
  obtain ⟨np, hnp⟩ := Option.ne_none_iff_exists'.mp hf.slot
  obtain ⟨p, free, hfree⟩ := List.exists_cons_of_length_pos (Nat.lt_of_lt_of_le (by decide) hf.pages)
  unfold threadCreate
  rw [hr.main]
  simp only [deref, bind, Except.bind, hnp, kalloc, hfree]
  constructor
  · rintro ⟨s', np', d', hs', hcreated⟩
    have heax : (s'.kernel.proc c).eax ≠ -1 := by
      rw [hcreated.ret]
      decide
    exact stackFree_of_ok hr hnp (t := { s with
      kernel := allocproc s.kernel c (.create m) true, mem := { s.mem with free := free }
      kstack := Function.update s.kstack np (some p) }) rfl rfl hs' heax
  · intro hstack
    obtain ⟨ys, z, rfl⟩ := List.eq_nil_or_concat xs |>.resolve_left (List.ne_nil_of_mem hr.main_mem)
    rw [List.concat_eq_append] at *
    obtain ⟨mem, d₂, d₃, pl, pu, hmem, hentry, hs'⟩ :=
      createStack_ok start arg hr hf hstack hnp hfree
    exact ⟨_, np, d₃, hs', created_of hr hnp hstack hmem hentry⟩

/-- Is the process in the slot 0, with the directory 7, ready to create a thread that fits? -/
def readyTest (s : Machine) : Bool :=
  match s.dir 7 with
  | none => false
  | some d => decide ((s.kernel.proc 0).mainThread = some 0 ∧
      walkList s.kernel.next NPROC (some 0) = some [0] ∧ (s.kernel.proc 0).state ≠ .UNUSED ∧
      (s.kernel.proc 0).pgdir = some 7 ∧ d.entry 0 ≠ none ∧ (∀ p ∈ s.mem.free, p ∉ d.pages) ∧
      firstUnused s.kernel ≠ none ∧ 5 ≤ s.mem.free.length ∧ newStack s 0 < KERNBASE ∧
      ¬ overLimit s.kernel 0 (newStack s 0))

theorem ready_of_test (h : readyTest s = true) :
    ∃ d, s.dir 7 = some d ∧ Ready s 0 0 [0] 7 d 0 ∧ Fits s 0 (newStack s 0) := by
  unfold readyTest at h
  split at h
  · cases h
  · rename_i d hd
    obtain ⟨hmain, hlist, hused, hdir, hpage, hfree, hslot, hpages, hspace, hlimit⟩ :=
      of_decide_eq_true h
    refine ⟨d, hd, ⟨hmain, walkList_some hlist, by simp, by simpa using hused, hdir, hd,
      fun i hi => ?_, by decide, hfree⟩, ⟨hslot, hpages, hspace, hlimit⟩⟩
    have hzero : (0 + i) / PGSIZE = 0 := by
      rw [Nat.div_eq_zero_iff]
      exact .inr (by simp only [PGSIZE]; omega)
    rw [hzero]
    exact hpage

/-- The first process creates a thread. -/
theorem create_thread_first : ∃ s s' np d d', Ready s 0 0 [0] 7 d 0 ∧
    threadCreate s 0 0 0 0 = .ok s' ∧ Created s s' 0 0 np [0] 7 d d' 0 0 0 (newStack s 0) := by
  obtain ⟨k₀, h₀⟩ : ∃ k, Thread.userinit Thread.boot 7 = .ok k := ⟨_, rfl⟩
  obtain ⟨d, hd, hr, hf⟩ := ready_of_test (s := onePage k₀ (List.range' 20 20))
    (by cases h₀; decide +kernel)
  have hstack : StackFree (onePage k₀ (List.range' 20 20)) 0 d := by
    have hsz : pagesUp ((onePage k₀ (List.range' 20 20)).kernel.proc 0).sz = 1 := by
      cases h₀; decide +kernel
    cases hd
    intro b hlo hhi
    rw [hsz] at hlo hhi
    obtain rfl | rfl : b = 1 ∨ b = 2 := by omega
    · decide +kernel
    · decide +kernel
  obtain ⟨s', np, d', hs', hcreated⟩ := (create_thread hr hf).mpr hstack
  exact ⟨_, s', np, d, d', hr, hs', hcreated⟩

/-- After a call that has failed at the memory limit, the next one panics although there is memory
    and the limit is not exceeded. -/
theorem create_thread_remap : ∃ s₀ s₁ s : Machine, ∃ d,
    Reachable Thread.Init (Steps Thread.step fun _ _ => True) s₀.kernel ∧
    threadCreate s₀ 0 0 0 0 = .ok s₁ ∧ Thread.step s₁.kernel (.setmemorylimit 1 100000) = .ok s.kernel ∧
    s = { s₁ with kernel := s.kernel } ∧ Ready s 0 0 [0] 7 d 0 ∧ Fits s 0 (newStack s 0) ∧
    threadCreate s 0 0 0 0 = .error (.panic "remap") := by
  obtain ⟨k₀, h₀⟩ : ∃ k, Thread.userinit Thread.boot 7 = .ok k := ⟨_, rfl⟩
  obtain ⟨k, hk, hp⟩ := exec_of_execTest Thread.step k₀ [.schedule, .setmemorylimit 1 8000] (fun k =>
    createTest (onePage k (List.range' 20 20)) fun s₁ =>
      execTest Thread.step s₁.kernel [.setmemorylimit 1 100000] fun k =>
        readyTest { s₁ with kernel := k } && createRemaps { s₁ with kernel := k })
    (by cases h₀; decide +kernel)
  obtain ⟨s₁, hs₁, hp⟩ := of_createTest hp
  obtain ⟨k', hk', hp⟩ := Thread.step_of_execTest hp
  rw [Bool.and_eq_true] at hp
  obtain ⟨d, -, hr, hf⟩ := ready_of_test hp.1
  exact ⟨_, s₁, _, d, reachable_exec (.start ⟨7, h₀⟩) (fun _ _ _ => trivial) hk, hs₁, hk',
    rfl, hr, hf, of_createRemaps hp.2⟩

end Xv6.Vm
