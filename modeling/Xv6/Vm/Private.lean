import Xv6.Lib.Simulation
import Xv6.Vm.View

namespace Xv6.Vm

open Xv6.Thread (Stop PGSIZE KERNBASE)
open Xv6.Lib
open scoped List

/-!
# Memory — address spaces are private (`pj2/xv6-public/vm.c`, `kalloc.c`)

All address spaces share the physical pages.  The kernel builds them, copies them for `fork`, lets them
grow and shrink, and gives their pages back, and the programs read and write their own memory, in any
order.

* `Memory.step` — a call of one of the operations of `vm.c` and `kalloc.c`, or a byte that a program reads
  or writes;
* `spaces` — what the memory is for: every address space is a map from its own pages to bytes;
* `Memory.owned` — who owns a page: the free list, the kernel, or one address space;
* `address_spaces_are_private` — what the programs and the kernel see they could see of separate maps,
  and every page has one owner at any time.
-/

/-- The physical pages, the page directories in their pages, and the pages that the kernel has
    allocated for itself, such as kernel stacks and pipes. -/
structure Memory where
  mem : Mem
  dir : Page → Option Dir
  held : List Page

/-- What is called, or what a program does. -/
inductive Call
  | setupkvm
  | copyuvm (pgdir : Page) (sz : Nat)
  | allocuvm (pgdir : Page) (oldsz newsz : Nat)
  | deallocuvm (pgdir : Page) (oldsz newsz : Nat)
  | loaduvm (pgdir : Page) (addr : Nat) (file : List UInt8) (off sz : Nat)
  | clearpteu (pgdir : Page) (uva : Nat)
  | copyout (pgdir : Page) (va : Nat) (buf : List UInt8)
  | freevm (pgdir : Page)
  | kalloc
  | kfree (p : Page)
  | load (pgdir : Page) (va : Nat)
  | store (pgdir : Page) (va : Nat) (b : UInt8)

/-- What a call returns, or what a program sees; `byte none` and `done false` are page faults. -/
inductive Result
  | page (p : Option Page)
  | size (sz : Nat)
  | done (ok : Bool)
  | byte (b : Option UInt8)
  deriving DecidableEq

/-! ### The memory of the machine -/

/-- The directory in the page `pgdir`. -/
def Memory.getDir (k : Memory) (pgdir : Page) : Except Stop Dir :=
  match k.dir pgdir with
  | none => .error .nullDeref
  | some d => .ok d

/-- The address space in the page `pgdir` has changed. -/
def Memory.setDir (k : Memory) (m : Mem) (pgdir : Page) (d : Option Dir) : Memory :=
  { k with mem := m, dir := Function.update k.dir pgdir d }

/-- A new address space, if there is one. -/
def Memory.addDir (k : Memory) : Option (Page × Dir) × Mem → Result × Memory
  | (none, m) => (.page none, { k with mem := m })
  | (some (pgdir, d), m) => (.page (some pgdir), k.setDir m pgdir (some d))

/-- The page and the offset that a program accesses. -/
def access (d : Dir) (va : Nat) : Option Page :=
  match d.walk (va / PGSIZE) with
  | some (some ⟨p, true⟩) => some p
  | _ => none

def Memory.call (k : Memory) : Call → Except Stop (Result × Memory)
  | .setupkvm => do .ok (k.addDir (← setupkvm k.mem))
  | .copyuvm pgdir sz => do
    let d ← k.getDir pgdir
    .ok (k.addDir (← copyuvm k.mem d sz))
  | .allocuvm pgdir oldsz newsz => do
    let d ← k.getDir pgdir
    let (sz, m, d) ← allocuvm k.mem d oldsz newsz
    .ok (.size sz, k.setDir m pgdir (some d))
  | .deallocuvm pgdir oldsz newsz => do
    let d ← k.getDir pgdir
    let (m, d) ← deallocuvm k.mem d oldsz newsz
    .ok (.size (min oldsz newsz), k.setDir m pgdir (some d))
  | .loaduvm pgdir addr file off sz => do
    let d ← k.getDir pgdir
    let (ok, m) ← loaduvm k.mem d addr file off sz
    .ok (.done ok, k.setDir m pgdir (some d))
  | .clearpteu pgdir uva => do
    let d ← k.getDir pgdir
    let d ← clearpteu d uva
    .ok (.done true, k.setDir k.mem pgdir (some d))
  | .copyout pgdir va buf => do
    let d ← k.getDir pgdir
    let (ok, m) ← copyout k.mem d va buf
    .ok (.done ok, k.setDir m pgdir (some d))
  | .freevm pgdir => do
    let d ← k.getDir pgdir
    let m ← freevm k.mem pgdir d
    .ok (.done true, k.setDir m pgdir none)
  | .kalloc =>
    match kalloc k.mem with
    | none => .ok (.page none, k)
    | some (p, m) => .ok (.page (some p), { k with mem := m, held := p :: k.held })
  | .kfree p =>
    if p = 0 then .error (.panic "kfree")
    else .ok (.done true, { k with mem := kfree k.mem p, held := k.held.erase p })
  | .load pgdir va => do
    let d ← k.getDir pgdir
    .ok (.byte ((access d va).map fun p => k.mem.data p (va % PGSIZE)), k)
  | .store pgdir va b => do
    let d ← k.getDir pgdir
    match access d va with
    | none => .ok (.done false, k)
    | some p => .ok (.done true, k.setDir (k.mem.write p (va % PGSIZE) [b]) pgdir (some d))

/-- How the kernel calls: with sizes and addresses of user memory, with a file and a segment that has been
    allocated for `loaduvm`, and with its own pages for `kfree`. -/
def Memory.Valid (k : Memory) : Call → Prop
  | .copyuvm _ sz => sz ≤ KERNBASE
  | .deallocuvm _ oldsz _ => oldsz ≤ KERNBASE
  | .loaduvm pgdir addr file off sz => file.length < 2 ^ 31 ∧ off < 2 ^ 32 ∧
      ∀ d, k.dir pgdir = some d → ∀ b, addr / PGSIZE ≤ b → b < addr / PGSIZE + pagesUp sz →
        ∃ p, d.entry b = some ⟨p, true⟩
  | .clearpteu _ uva => uva < KERNBASE
  | .kfree p => p ∈ k.held
  | _ => True

def Memory.step (k : Memory) (c : Call) : Except Stop (Option (Call × Result) × Memory) := do
  let (r, k) ← k.call c
  .ok (some (c, r), k)

/-- The machine, in which the pages `pages` are free at first. -/
def memory (pages : List Page) : System Memory (Call × Result) :=
  System.ofStep (fun k => k.mem.free = pages ∧ (∀ p, k.dir p = none) ∧ k.held = []) Memory.step
    Memory.Valid

/-! ### Separate maps -/

/-- The calls that allocate a page for their caller. -/
def Call.allocates : Call → Bool
  | .setupkvm | .copyuvm _ _ | .kalloc => true
  | _ => false

/-- The address spaces, by the pages of their directories. -/
inductive Spaces.Step (a : Page → Option View) : Option (Call × Result) → (Page → Option View) → Prop
  | setupkvm {p : Page} (hp : a p = none) :
      Step a (some (.setupkvm, .page (some p))) (Function.update a p (some fun _ => none))
  | copyuvm {p q : Page} {sz : Nat} {v : View} (hq : a q = some v) (hp : a p = none)
      (hmapped : ∀ b < pagesUp sz, v b ≠ none) :
      Step a (some (.copyuvm q sz, .page (some p))) (Function.update a p (some (v.below (pagesUp sz))))
  | noMemory {c : Call} (hc : c.allocates = true) : Step a (some (c, .page none)) a
  | grow {q : Page} {oldsz newsz : Nat} {v : View} (hq : a q = some v) (hnew : newsz < KERNBASE) :
      Step a (some (.allocuvm q oldsz newsz, .size (max oldsz newsz)))
        (Function.update a q (some (v.zeros (pagesUp oldsz) (pagesUp newsz))))
  | tooLarge {q : Page} {oldsz newsz : Nat} (hnew : KERNBASE ≤ newsz) :
      Step a (some (.allocuvm q oldsz newsz, .size 0)) a
  | noRoom {q : Page} {oldsz newsz : Nat} {v : View} (hq : a q = some v) (hnew : newsz < KERNBASE) :
      Step a (some (.allocuvm q oldsz newsz, .size 0))
        (Function.update a q (some (v.drop (pagesUp oldsz) (pagesUp newsz))))
  | shrink {q : Page} {oldsz newsz : Nat} {v : View} (hq : a q = some v) :
      Step a (some (.deallocuvm q oldsz newsz, .size (min oldsz newsz)))
        (Function.update a q (some (v.drop (pagesUp newsz) (pagesUp oldsz))))
  | loaduvm {q : Page} {addr off sz : Nat} {file : List UInt8} {v : View} (hq : a q = some v) :
      Step a (some (.loaduvm q addr file off sz, .done (decide (sz = 0 ∨ off + sz ≤ file.length))))
        (Function.update a q (some (v.put addr ((file.drop off).take sz)).2))
  | clearpteu {q : Page} {uva : Nat} {v : View} (hq : a q = some v) :
      Step a (some (.clearpteu q uva, .done true)) (Function.update a q (some (v.hide (uva / PGSIZE))))
  | copyout {q : Page} {va : Nat} {buf : List UInt8} {v : View} (hq : a q = some v) :
      Step a (some (.copyout q va buf, .done (v.put va buf).1)) (Function.update a q (some (v.put va buf).2))
  | freevm {q : Page} {v : View} (hq : a q = some v) :
      Step a (some (.freevm q, .done true)) (Function.update a q none)
  | kalloc {p : Page} : Step a (some (.kalloc, .page (some p))) a
  | kfree {p : Page} : Step a (some (.kfree p, .done true)) a
  | load {q : Page} {va : Nat} {v : View} (hq : a q = some v) :
      Step a (some (.load q va, .byte (v.get va))) a
  | store {q : Page} {va : Nat} {b : UInt8} {v : View} (hq : a q = some v) :
      Step a (some (.store q va b, .done (v.put va [b]).1)) (Function.update a q (some (v.put va [b]).2))

/-- Address spaces that have nothing to do with each other; there are none at first. -/
def spaces : System (Page → Option View) (Call × Result) where
  init a := a = fun _ => none
  step := Spaces.Step

/-! ### Every page has one owner -/

/-- Who owns a page. -/
inductive Owner
  | free
  | kernel
  | space (pgdir : Page)

def Memory.owned (k : Memory) : Owner → List Page
  | .free => k.mem.free
  | .kernel => k.held
  | .space pgdir =>
    match k.dir pgdir with
    | none => []
    | some d => pgdir :: d.pages

variable {k k' : Memory} {a : Page → Option View} {pages : List Page} {pgdir p q : Page} {m' : Mem}
  {d d' : Dir}

theorem owned_space (hd : k.dir pgdir = some d) : k.owned (.space pgdir) = pgdir :: d.pages := by
  rw [Memory.owned, hd]

theorem owned_none (hd : k.dir pgdir = none) : k.owned (.space pgdir) = [] := by
  rw [Memory.owned, hd]

/-- The maps that the programs see, and the owners of the pages. -/
structure Shows (pages : List Page) (k : Memory) (a : Page → Option View) : Prop where
  seen : ∀ p, a p = (k.dir p).map (view k.mem)
  partition : Partition k.owned
  all : ∀ p, (∃ o, p ∈ k.owned o) ↔ p ∈ pages

theorem Shows.space (h : Shows pages k a) (hd : k.dir q = some d) : a q = some (view k.mem d) := by
  rw [h.seen, hd, Option.map_some]

theorem Shows.distinct (h : Shows pages k a) (hd : k.dir q = some d) : Distinct k.mem d := by
  have hpair := h.partition.pair (i := .free) (j := .space q) nofun
  rw [owned_space hd] at hpair
  exact (List.nodup_cons.mp (List.perm_middle.nodup_iff.mp hpair)).2

/-- The pages of another address space are neither free nor in the first one. -/
theorem Shows.apart (h : Shows pages k a) (hd : k.dir p = some d) {o : Owner}
    (hne : Owner.space p ≠ o) {x : Page} (hx : x ∈ d.pages) : x ∉ k.owned .free ++ k.owned o := by
  have hown : x ∈ k.owned (.space p) := by
    rw [owned_space hd]
    exact List.mem_cons_of_mem p hx
  intro hmem
  rcases List.mem_append.mp hmem with hmem | hmem
  · exact absurd (h.partition.owner hmem hown) nofun
  · exact hne (h.partition.owner hown hmem)

/-- The free list and one other owner exchange pages, and write only to these: nobody else sees it. -/
theorem Shows.exchange (h : Shows pages k a) {o : Owner} {b : Page → Option View} (hfree : o ≠ .free)
    (hperm : k'.owned .free ++ k'.owned o ~ k.owned .free ++ k.owned o)
    (hdata : ∀ p, p ∉ k.owned .free ++ k.owned o → k'.mem.data p = k.mem.data p)
    (hheld : o ≠ .kernel → k'.held = k.held)
    (hdir : ∀ p, Owner.space p ≠ o → k'.dir p = k.dir p ∧ b p = a p)
    (hself : ∀ p, Owner.space p = o → b p = (k'.dir p).map (view k'.mem)) : Shows pages k' b := by
  have hother : ∀ o', o' ≠ .free → o' ≠ o → k'.owned o' = k.owned o' := by
    intro o' hf ho
    cases o' with
    | free => exact absurd rfl hf
    | kernel => exact hheld ho.symm
    | space p => rw [Memory.owned, Memory.owned, (hdir p ho).1]
  obtain ⟨hpart, hall⟩ := h.partition.exchange hfree.symm hperm hother
  refine ⟨fun p => ?_, hpart, fun p => (hall p).trans (h.all p)⟩
  by_cases hp : Owner.space p = o
  · exact hself p hp
  · obtain ⟨hdp, hbp⟩ := hdir p hp
    rw [hbp, h.seen, hdp]
    cases hd : k.dir p with
    | none => rfl
    | some d =>
      have hview : view k'.mem d = view k.mem d :=
        view_congr (fun _ _ => rfl) fun x hx => hdata x (h.apart hd hp hx)
      rw [Option.map_some, Option.map_some, hview]

theorem setDir_self {o : Option Dir} : (k.setDir m' q o).dir q = o := Function.update_self ..

/-- The exchange with the address space in the page `q`. -/
theorem Shows.setDir (h : Shows pages k a) {o : Option Dir}
    (hperm : (k.setDir m' q o).owned .free ++ (k.setDir m' q o).owned (.space q) ~
      k.mem.free ++ k.owned (.space q))
    (hdata : ∀ p, p ∉ k.mem.free ++ k.owned (.space q) → m'.data p = k.mem.data p) :
    Shows pages (k.setDir m' q o) (Function.update a q (o.map (view m'))) := by
  refine h.exchange (o := .space q) nofun hperm hdata (fun _ => rfl) (fun p hp => ?_) fun p hp => ?_
  · have hpq : p ≠ q := fun hpq => hp (hpq ▸ rfl)
    exact ⟨Function.update_of_ne hpq _ _, Function.update_of_ne hpq _ _⟩
  · obtain rfl : p = q := Owner.space.inj hp
    rw [Function.update_self, setDir_self]
    rfl

theorem owned_setDir {o : Option Dir} : (k.setDir m' q o).owned (.space q) =
    match o with | none => [] | some d => q :: d.pages := by
  rw [Memory.owned, setDir_self]

/-- One address space is changed. -/
theorem Shows.change (h : Shows pages k a) (hd : k.dir q = some d) (hc : Conserves k.mem d m' d') :
    Shows pages (k.setDir m' q (some d')) (Function.update a q (some (view m' d'))) := by
  refine h.setDir ?_ fun p hp => hc.data p fun hmem => hp ?_
  · rw [owned_setDir, owned_space hd]
    exact List.perm_middle.trans ((hc.pages.cons q).trans List.perm_middle.symm)
  · rw [owned_space hd]
    exact List.perm_middle.mem_iff.mpr (List.mem_cons_of_mem q hmem)

/-- An address space is made. -/
theorem Shows.create (h : Shows pages k a) (hb : Built k.mem m' q d) :
    a q = none ∧ Shows pages (k.setDir m' q (some d)) (Function.update a q (some (view m' d))) := by
  have hfree : q ∈ k.mem.free :=
    hb.pages.mem_iff.mp (List.mem_append_right _ List.mem_cons_self)
  have hnone : k.dir q = none := by
    by_contra hne
    obtain ⟨d₀, hd₀⟩ := Option.ne_none_iff_exists'.mp hne
    have hown : q ∈ k.owned (.space q) := by
      rw [owned_space hd₀]
      exact List.mem_cons_self
    exact absurd (h.partition.owner (i := .free) hfree hown) nofun
  refine ⟨by rw [h.seen, hnone, Option.map_none], h.setDir ?_ fun p hp => hb.data p fun hmem => hp ?_⟩
  · rw [owned_setDir, owned_none hnone, List.append_nil]
    exact hb.pages
  · exact List.mem_append_left _ hmem

/-- An address space is given back. -/
theorem Shows.delete (h : Shows pages k a) (hd : k.dir q = some d) (hf : freevm k.mem q d = .ok m') :
    Shows pages (k.setDir m' q none) (Function.update a q none) := by
  obtain ⟨hpages, hdata⟩ := freevm_pages hf
  rw [← owned_space hd] at hpages hdata
  refine h.setDir ?_ hdata
  rw [owned_setDir, List.append_nil]
  exact hpages

/-- What was taken has been given back. -/
theorem Shows.restore (h : Shows pages k a) (hfree : m'.free ~ k.mem.free)
    (hdata : ∀ p, p ∉ k.mem.free → m'.data p = k.mem.data p) : Shows pages { k with mem := m' } a :=
  h.exchange (o := .kernel) nofun (hfree.append_right _)
    (fun p hp => hdata p fun hmem => hp (List.mem_append_left _ hmem)) (fun hne => absurd rfl hne)
    (fun _ _ => ⟨rfl, rfl⟩) nofun

/-! ### The calls -/

theorem getDir_eq : k.getDir q = .ok d ↔ k.dir q = some d := by
  rw [Memory.getDir]
  cases k.dir q with
  | none => simp
  | some d => simp

/-- What has been made, if anything, is a new address space. -/
theorem Shows.addDir {x : Option (Page × Dir)} {c : Call} {r : Result} {f : View → Prop}
    (h : Shows pages k a) (hc : c.allocates = true) (hr : k.addDir (x, m') = (r, k'))
    (hmade : Made k.mem m' x fun d => f (view m' d))
    (hstep : ∀ p v, a p = none → f v →
      Spaces.Step a (some (c, .page (some p))) (Function.update a p (some v))) :
    ∃ b, Spaces.Step a (some (c, r)) b ∧ Shows pages k' b := by
  cases x with
  | none =>
    cases hr
    exact ⟨a, .noMemory hc, h.restore hmade.1 hmade.2⟩
  | some x =>
    cases hr
    obtain ⟨hnone, hshows⟩ := h.create hmade.1
    exact ⟨_, hstep x.1 _ hnone hmade.2, hshows⟩

theorem access_eq_some {va : Nat} : access d va = some p ↔ d.entry (va / PGSIZE) = some ⟨p, true⟩ := by
  rw [access, Dir.entry_eq_some]
  split
  · rename_i q hq
    simp [hq]
  · rename_i hne
    refine ⟨nofun, fun hp => absurd hp (hne p)⟩

/-- An access that fails is one to a page that is not for the user. -/
theorem access_none {va : Nat} (h : access d va = none) (m : Mem) (f : Nat → UInt8) :
    view m d (va / PGSIZE) ≠ some ⟨true, f⟩ := by
  intro hv
  by_cases hlt : va / PGSIZE < USERPAGES
  · rw [view_user hlt, Option.map_eq_some_iff] at hv
    obtain ⟨⟨p, u⟩, he, huser⟩ := hv
    obtain rfl : u = true := congrArg UserPage.user huser
    rw [access_eq_some.mpr he] at h
    cases h
  · rw [view_kernel hlt] at hv
    cases hv

theorem Shows.load (h : Shows pages k a) (hd : k.dir q = some d) (va : Nat) :
    Spaces.Step a (some (.load q va, .byte ((access d va).map fun p => k.mem.data p (va % PGSIZE)))) a := by
  have hstep : Spaces.Step a (some (.load q va, .byte ((view k.mem d).get va))) a := .load (h.space hd)
  have hget : (view k.mem d).get va = (access d va).map fun p => k.mem.data p (va % PGSIZE) := by
    rw [View.get]
    cases hacc : access d va with
    | none =>
      split
      · rename_i f hf
        exact absurd hf (access_none hacc k.mem f)
      · rfl
    | some p => rw [view_user_page (access_eq_some.mp hacc), Option.map_some]
  rwa [hget] at hstep

theorem Shows.store {va : Nat} {b : UInt8} {r : Result} (h : Shows pages k a) (hd : k.dir q = some d)
    (hc : (match access d va with
      | none => .ok (.done false, k)
      | some p => .ok (.done true, k.setDir (k.mem.write p (va % PGSIZE) [b]) q (some d)) :
        Except Stop (Result × Memory)) = .ok (r, k')) :
    ∃ a', Spaces.Step a (some (.store q va b, r)) a' ∧ Shows pages k' a' := by
  have hstep : Spaces.Step a (some (.store q va b, .done ((view k.mem d).put va [b]).1))
      (Function.update a q (some ((view k.mem d).put va [b]).2)) := .store (h.space hd)
  cases hacc : access d va with
  | none =>
    rw [hacc] at hc
    cases hc
    have hput : (view k.mem d).put va [b] = (false, view k.mem d) := by
      rw [View.put]
      split
      · rename_i f hf
        exact absurd hf (access_none hacc k.mem f)
      · rfl
    rw [hput, ← h.space hd, Function.update_eq_self] at hstep
    exact ⟨a, hstep, h⟩
  | some p =>
    rw [hacc] at hc
    cases hc
    have he := access_eq_some.mp hacc
    have hlt := user_lt he rfl
    have hlen : va % PGSIZE + [b].length ≤ PGSIZE := Nat.mod_lt va (by decide)
    rw [put_page (view_user_page he) hlen, ← view_write (h.distinct hd).pages hlt he] at hstep
    exact ⟨_, hstep, h.change hd (write_conserves (entry_mem_pages hlt he))⟩

/-- The kernel takes a page for itself. -/
theorem Shows.kalloc (h : Shows pages k a) (hx : kalloc k.mem = some (p, m')) :
    Shows pages { k with mem := m', held := p :: k.held } a := by
  rw [Vm.kalloc] at hx
  cases hfree : k.mem.free with
  | nil =>
    rw [hfree] at hx
    cases hx
  | cons q free =>
    rw [hfree] at hx
    cases hx
    refine h.exchange (o := .kernel) (fun heq => by cases heq) ?_ (fun _ _ => rfl)
      (fun hne => absurd rfl hne) (fun _ _ => ⟨rfl, rfl⟩) (fun _ heq => by cases heq)
    show free ++ p :: k.held ~ k.mem.free ++ k.held
    rw [hfree]
    exact List.perm_middle

/-- The kernel gives back a page of its own. -/
theorem Shows.kfree (h : Shows pages k a) (hp : p ∈ k.held) :
    Shows pages { k with mem := kfree k.mem p, held := k.held.erase p } a := by
  refine h.exchange (o := .kernel) nofun ?_ (fun q hq => ?_) (fun hne => absurd rfl hne)
    (fun _ _ => ⟨rfl, rfl⟩) nofun
  · show p :: k.mem.free ++ k.held.erase p ~ k.mem.free ++ k.held
    exact List.perm_middle.symm.trans ((List.perm_cons_erase hp).symm.append_left _)
  · exact Function.update_of_ne (fun hqp : q = p => hq (List.mem_append_right _ (hqp ▸ hp))) _ _

/-- Every call does to the address spaces what it does to the maps. -/
theorem Shows.call {c : Call} {r : Result} (h : Shows pages k a) (hv : k.Valid c)
    (hc : k.call c = .ok (r, k')) : ∃ b, Spaces.Step a (some (c, r)) b ∧ Shows pages k' b := by
  cases c with
  | setupkvm =>
    obtain ⟨⟨x, m'⟩, hx, hc⟩ := bind_eq_ok.mp hc
    exact h.addDir (f := fun v => v = fun _ => none) rfl (Except.ok.inj hc) (setupkvm_view hx)
      fun p v hp hv => hv ▸ .setupkvm hp
  | copyuvm q sz =>
    obtain ⟨d, hd, hc⟩ := bind_eq_ok.mp hc
    rw [getDir_eq] at hd
    obtain ⟨⟨x, m'⟩, hx, hc⟩ := bind_eq_ok.mp hc
    have hsrc : ∀ p ∈ d.pages, p ∉ k.mem.free := fun p hp hfree =>
      h.apart hd (o := .free) nofun hp (List.mem_append_left _ hfree)
    refine h.addDir (f := fun v => (∀ b < pagesUp sz, view k.mem d b ≠ none) ∧
      v = (view k.mem d).below (pagesUp sz)) rfl (Except.ok.inj hc)
      (copyuvm_view (h.partition.nodup .free) hsrc hv hx) fun p v hp ⟨hmapped, hview⟩ => ?_
    rw [hview]
    exact .copyuvm (h.space hd) hp hmapped
  | allocuvm q oldsz newsz =>
    obtain ⟨d, hd, hc⟩ := bind_eq_ok.mp hc
    rw [getDir_eq] at hd
    obtain ⟨⟨sz, m', d'⟩, hx, hc⟩ := bind_eq_ok.mp hc
    cases hc
    have hshows := h.change hd (allocuvm_spec hx).1
    rcases allocuvm_view (h.distinct hd) hx with ⟨rfl, hnew, hview⟩ | ⟨rfl, hnew, hview⟩ | ⟨rfl, hnew, hview⟩
    · rw [hview, ← h.space hd, Function.update_eq_self] at hshows
      exact ⟨a, .tooLarge hnew, hshows⟩
    · rw [hview] at hshows
      exact ⟨_, .grow (h.space hd) hnew, hshows⟩
    · rw [hview] at hshows
      exact ⟨_, .noRoom (h.space hd) hnew, hshows⟩
  | deallocuvm q oldsz newsz =>
    obtain ⟨d, hd, hc⟩ := bind_eq_ok.mp hc
    rw [getDir_eq] at hd
    obtain ⟨⟨m', d'⟩, hx, hc⟩ := bind_eq_ok.mp hc
    cases hc
    have hclear := Clears.of_deallocuvm (h.distinct hd) hv hx
    have hshows := h.change hd hclear.conserves
    rw [hclear.view_eq] at hshows
    exact ⟨_, .shrink (h.space hd), hshows⟩
  | loaduvm q addr file off sz =>
    obtain ⟨hfile, hoff, huser⟩ := hv
    obtain ⟨d, hd, hc⟩ := bind_eq_ok.mp hc
    rw [getDir_eq] at hd
    obtain ⟨⟨ok, m'⟩, hx, hc⟩ := bind_eq_ok.mp hc
    cases hc
    rw [loaduvm] at hx
    split at hx
    · cases hx
    · rename_i haddr
      rw [ne_eq, not_not] at haddr
      obtain ⟨hcons, hok, hview⟩ := loadLoop_view (h.distinct hd).pages haddr (Nat.zero_mod _)
        (by rw [Nat.zero_div, Nat.zero_add]) hfile hoff (.inl rfl) (huser d hd) hx
      have hshows := h.change hd hcons
      rw [hview] at hshows
      rw [hok]
      exact ⟨_, .loaduvm (h.space hd), hshows⟩
  | clearpteu q uva =>
    obtain ⟨d, hd, hc⟩ := bind_eq_ok.mp hc
    rw [getDir_eq] at hd
    obtain ⟨d', hx, hc⟩ := bind_eq_ok.mp hc
    cases hc
    have huva : uva / PGSIZE < USERPAGES := Nat.div_lt_div_of_lt_of_dvd (by decide) hv
    have hshows := h.change hd (clearpteu_spec huva hx).1
    rw [clearpteu_view huva hx] at hshows
    exact ⟨_, .clearpteu (h.space hd), hshows⟩
  | copyout q va buf =>
    obtain ⟨d, hd, hc⟩ := bind_eq_ok.mp hc
    rw [getDir_eq] at hd
    obtain ⟨⟨ok, m'⟩, hx, hc⟩ := bind_eq_ok.mp hc
    cases hc
    have hput := copyoutLoop_view (h.distinct hd).pages hx
    have hshows := h.change hd (copyoutLoop_conserves hx)
    have hstep : Spaces.Step a (some (.copyout q va buf, .done ((view k.mem d).put va buf).1))
        (Function.update a q (some ((view k.mem d).put va buf).2)) := .copyout (h.space hd)
    rw [← hput] at hstep
    exact ⟨_, hstep, hshows⟩
  | freevm q =>
    obtain ⟨d, hd, hc⟩ := bind_eq_ok.mp hc
    rw [getDir_eq] at hd
    obtain ⟨m', hx, hc⟩ := bind_eq_ok.mp hc
    cases hc
    exact ⟨_, .freevm (h.space hd), h.delete hd hx⟩
  | kalloc =>
    rw [Memory.call] at hc
    split at hc
    · cases hc
      exact ⟨a, .noMemory rfl, h⟩
    · rename_i p m' hx
      cases hc
      exact ⟨a, .kalloc, h.kalloc hx⟩
  | kfree p =>
    rw [Memory.call] at hc
    split at hc
    · cases hc
    · cases hc
      exact ⟨a, .kfree, h.kfree hv⟩
  | load q va =>
    obtain ⟨d, hd, hc⟩ := bind_eq_ok.mp hc
    rw [getDir_eq] at hd
    cases hc
    exact ⟨a, h.load hd va, h⟩
  | store q va b =>
    obtain ⟨d, hd, hc⟩ := bind_eq_ok.mp hc
    rw [getDir_eq] at hd
    exact h.store hd hc

theorem memory_simulates (hnodup : pages.Nodup) :
    Simulates (memory pages) spaces fun k a => Shows pages k a where
  init k hk := by
    obtain ⟨rfl, hdir, hheld⟩ := hk
    have howned : ∀ o, o ≠ .free → k.owned o = [] := fun o ho => by
      cases o with
      | free => exact absurd rfl ho
      | kernel => exact hheld
      | space p => exact owned_none (hdir p)
    have hfree : ∀ {x o}, x ∈ k.owned o → o = .free := fun {x o} hx => by
      by_contra ho
      rw [howned o ho] at hx
      cases hx
    refine ⟨fun _ => none, rfl, fun p => by rw [hdir p, Option.map_none], ⟨fun o => ?_, fun hx hy => ?_⟩,
      fun p => ⟨fun ⟨o, hx⟩ => ?_, fun hx => ⟨.free, hx⟩⟩⟩
    · by_cases ho : o = .free
      · exact ho ▸ hnodup
      · exact howned o ho ▸ List.nodup_nil
    · rw [hfree hx, hfree hy]
    · obtain rfl := hfree hx
      exact hx
  step k a o k' h hs := by
    obtain ⟨c, hv, hc⟩ := hs
    obtain ⟨⟨r, k₁⟩, hcall, hc⟩ := bind_eq_ok.mp hc
    cases hc
    obtain ⟨b, hstep, hshows⟩ := h.call hv hcall
    exact ⟨b, .single hstep, hshows⟩

/-- What the programs and the kernel see of the memory they could see of address spaces that have nothing
    to do with each other.  Every page that was free at first is now free, or it belongs to the kernel or
    to one address space, and to nobody else. -/
theorem address_spaces_are_private {es : List (Call × Result)} (hnodup : pages.Nodup)
    (h : (memory pages).Trace es k) : ∃ a, spaces.Trace es a ∧ (∀ p, a p = (k.dir p).map (view k.mem)) ∧
    (∀ p ∈ pages, ∃! o, p ∈ k.owned o) ∧ ∀ o, (k.owned o).Nodup := by
  obtain ⟨a, ha, hk⟩ := (memory_simulates hnodup).trace h
  refine ⟨a, ha, hk.seen, fun p hp => ?_, hk.partition.nodup⟩
  obtain ⟨o, ho⟩ := (hk.all p).mpr hp
  exact ⟨o, ho, fun o' ho' => hk.partition.owner ho' ho⟩

/-- A process writes to its page, is copied, and writes again. -/
def copied : List Call :=
  [.setupkvm, .allocuvm 1 0 4096, .store 1 0 7, .copyuvm 1 4096, .store 1 0 9, .load 68 0, .load 1 0]

/-- The copy has the byte from before. -/
def copiedResults : List Result :=
  [.page (some 1), .size 4096, .done true, .page (some 68), .done true, .byte (some 7), .byte (some 9)]

theorem valid_copied (k : Memory) : ∀ c ∈ copied, k.Valid c := by
  simp [copied, Memory.Valid, KERNBASE]

theorem address_spaces_are_private_copied : ∃ es k, (memory (List.range' 1 140)).Trace es k ∧
    es.map Prod.snd = copiedResults ∧
    (∃ a, spaces.Trace es a ∧ ∀ p, a p = (k.dir p).map (view k.mem)) ∧
    ∀ p ∈ List.range' 1 140, ∃! o, p ∈ k.owned o := by
  have hstart : (memory (List.range' 1 140)).Trace []
      ⟨⟨List.range' 1 140, fun _ _ => 1⟩, fun _ => none, []⟩ := .start ⟨rfl, fun _ => rfl, rfl⟩
  have htest : runTest Memory.step (fun es _ => decide (es.map Prod.snd = copiedResults)) []
      ⟨⟨List.range' 1 140, fun _ _ => 1⟩, fun _ => none, []⟩ copied = true := by decide +kernel
  obtain ⟨es, k, h, hes⟩ := System.Trace.of_runTest hstart valid_copied htest
  obtain ⟨a, ha, hview, hown, -⟩ := address_spaces_are_private (List.nodup_range' ..) h
  exact ⟨es, k, h, of_decide_eq_true hes, ⟨a, ha, hview⟩, hown⟩

end Xv6.Vm
