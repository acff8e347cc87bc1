import Xv6.Vm.Exec
import Xv6.Vm.View

namespace Xv6.Vm

open Xv6.Thread (Stop Slot Kernel NPROC NOFILE PGSIZE KERNBASE pgRoundUp overLimit)
open Xv6.Lib
open scoped List

/-!
# Memory — what a program finds when `exec` starts it (`pj2/xv6-public/exec.c`)

* `program` — the memory of a program before its first step, from the headers of its file;
* `Started` — the stack of `main(argc, argv)`;
* `exec_starts_program` — after `exec` the program sees its own image and its arguments.
-/

variable {m m' m₁ : Mem} {d d' : Dir} {n off sz sp : Nat} {file : List UInt8} {v : View} {s s' t : Machine}
  {c : Slot} {pgdir q : Page} {path : List Char} {k : Kernel}

/-! ### What the program should find -/

/-- A segment: its pages are new, and what there is of it in the file is put there. -/
def segmentView (file : List UInt8) (ph : ProgHdr) (sz : Nat) (v : View) : View :=
  if ph.type = ELF_PROG_LOAD then
    ((v.zeros (pagesUp sz) (pagesUp (ph.vaddr + ph.memsz))).put ph.vaddr
      ((file.drop ph.off).take ph.filesz)).2
  else v

/-- The segments of a program with `n` more headers to go. -/
def segmentsView (file : List UInt8) : Nat → Nat → Nat → View → View
  | 0, _, _, v => v
  | n + 1, off, sz, v =>
    match readStruct file off PROGHDR with
    | none => v
    | some buf =>
      segmentsView file n ((off + PROGHDR) % 2 ^ 32) (segmentEnd (progHdr buf) sz)
        (segmentView file (progHdr buf) sz v)

/-- The memory of a program. -/
def program (file : List UInt8) : View :=
  match readStruct file 0 ELFHDR with
  | none => fun _ => none
  | some buf => segmentsView file (elfHdr buf).phnum (elfHdr buf).phoff 0 fun _ => none

/-- The bytes from `va` on. -/
def Holds (v : View) (va : Nat) (buf : List UInt8) : Prop :=
  ∀ i b, buf[i]? = some b → v.get (va + i) = some b

/-- The stack of a program: a return address that is not one, the number of arguments, a pointer to the
    pointers to them, and these, with a null pointer at the end; every one of them leads to a string. -/
def Started (v : View) (sp : Nat) (argv : List (List UInt8)) : Prop :=
  ∃ ptrs, List.Forall₂ (fun ptr arg => Holds v ptr (arg ++ [0])) ptrs argv ∧
    Holds v sp (word 0xffffffff ++ word argv.length ++ word (sp + 12) ++ ptrs.flatMap word ++ word 0)

/-! ### The segments -/

theorem Built.distinct {m₀ : Mem} {pgdir : Page} (h : Built m₀ m pgdir d) (hfree : m₀.free.Nodup) :
    Distinct m d :=
  (List.nodup_cons.mp (List.perm_middle.nodup_iff.mp (h.pages.nodup_iff.mpr hfree))).2

/-- A segment that is loaded. -/
theorem loadSegment_view {ph : ProgHdr} {r : Nat} (hd : Distinct m d)
    (hmap : Mapped d (pagesUp sz)) (hfile : file.length < 2 ^ 31) (hoff : ph.off < 2 ^ 32)
    (hmemsz : ph.memsz < 2 ^ 32) (hvaddr : ph.vaddr < 2 ^ 32)
    (h : loadSegment file ph sz m d = .ok (some r, m', d')) :
    view m' d' = segmentView file ph sz (view m d) := by
  unfold loadSegment at h
  split at h
  · rename_i htype
    cases h
    rw [segmentView, if_neg htype]
  · rename_i htype
    rw [ne_eq, not_not] at htype
    split at h
    · cases h
    · rename_i hfilesz
      split at h
      · cases h
      · rename_i hover
        have hend : (ph.vaddr + ph.memsz) % 2 ^ 32 = ph.vaddr + ph.memsz := by omega
        rw [hend] at h
        obtain ⟨⟨r₁, m₁, d₁⟩, halloc, h⟩ := bind_eq_ok.mp h
        dsimp only at h
        split at h
        · cases h
        · rename_i hr0
          obtain ⟨hcons, hr⟩ := allocuvm_spec halloc
          obtain ⟨rfl, hlt, hgrow⟩ := hr.resolve_left hr0
          have hview : view m₁ d₁ = (view m d).zeros (pagesUp sz) (pagesUp (ph.vaddr + ph.memsz)) := by
            rcases allocuvm_view hd halloc with ⟨hr, -⟩ | ⟨-, -, hview⟩ | ⟨hr, -⟩
            · exact absurd hr hr0
            · exact hview
            · exact absurd hr hr0
          split at h
          · cases h
          · rename_i halign
            rw [ne_eq, not_not] at halign
            obtain ⟨⟨ok, m₂⟩, hload, h⟩ := bind_eq_ok.mp h
            rw [loaduvm, if_neg (not_not.mpr halign)] at hload
            rw [Except.ok.injEq, Prod.mk.injEq, Prod.mk.injEq] at h
            obtain ⟨-, rfl, rfl⟩ := h
            have htop : ph.vaddr / PGSIZE + pagesUp ph.filesz ≤
                pagesUp (max sz (ph.vaddr + ph.memsz)) := by
              simp only [pagesUp, PGSIZE] at halign ⊢
              omega
            obtain ⟨-, -, hput⟩ := loadLoop_view (hcons.distinct hd).pages halign (Nat.zero_mod _)
              (by rw [Nat.zero_div, Nat.zero_add]) hfile hoff (.inl rfl)
              (fun b _ hb => hmap.grow hgrow b (by omega)) hload
            rw [segmentView, if_pos htype, hput, hview]
            rfl

/-- A program that is loaded. -/
theorem loadSegments_view {r : Nat} (hd : Distinct m d) (hsz : sz < KERNBASE)
    (hmap : Mapped d (pagesUp sz)) (hfile : file.length < 2 ^ 31)
    (h : loadSegments file n off sz m d = .ok (some r, m', d')) :
    view m' d' = segmentsView file n off sz (view m d) := by
  induction n generalizing off sz m d with
  | zero =>
    cases h
    rfl
  | succ n ih =>
    unfold loadSegments at h
    cases hbuf : readStruct file off PROGHDR with
    | none =>
      rw [hbuf] at h
      cases h
    | some buf =>
      rw [hbuf] at h
      obtain ⟨⟨y, m₁, d₁⟩, hseg, h⟩ := bind_eq_ok.mp h
      cases y with
      | none => cases h
      | some r₁ =>
        obtain ⟨hcons, hy⟩ := loadSegment_spec hsz hmap (field_lt ..) (field_lt ..) hseg
        obtain ⟨rfl, hlt, hmap₁⟩ := hy r₁ rfl
        have hview := loadSegment_view hd hmap hfile (field_lt ..) (field_lt ..) (field_lt ..) hseg
        rw [ih (hcons.distinct hd) hlt hmap₁ h, hview, segmentsView, hbuf]

theorem get_zeros {lo hi a : Nat} (ha : a / PGSIZE < lo) : (v.zeros lo hi).get a = v.get a := by
  rw [View.get, View.get, View.zeros, if_neg (by omega)]

theorem get_hide {p a : Nat} (ha : a / PGSIZE ≠ p) : (v.hide p).get a = v.get a := by
  rw [View.get, View.get, View.hide, Function.update_of_ne ha]

/-- Below the stack, the image is the program. -/
theorem Loads.get_program {stackpages : Nat} {pgdir : Page} {a : Nat} (hpages : 2 ≤ stackpages)
    (hfree : m.free.Nodup) (hfile : file.length < 2 ^ 31) (h : Loads m file stackpages pgdir d sz m')
    (ha : a < imageSize file 0) : (view m' d).get a = (program file).get a := by
  obtain ⟨buf, hbuf, -, d₀, m₀, hsetup, sz₁, m₁, d₁, hload, d₂, halloc, hne, hclear⟩ := h
  obtain ⟨hbuilt, -⟩ := setupkvm_spec hsetup
  have hempty : view m₀ d₀ = fun _ => none := (setupkvm_view hsetup).2
  have hd := hbuilt.distinct hfree
  have hmap₀ : Mapped d₀ (pagesUp 0) := fun b hb => absurd hb (by simp [pagesUp, PGSIZE])
  obtain ⟨hcons, hend⟩ := loadSegments_spec (by decide) hmap₀ hload
  obtain ⟨rfl, hlt, hmap⟩ := hend sz₁ rfl
  have hview := loadSegments_view hd (by decide) hmap₀ hfile hload
  have hd₁ := hcons.distinct hd
  have hsize : a < pgRoundUp (imageEnd file (elfHdr buf).phnum (elfHdr buf).phoff 0) := by
    rw [imageSize, hbuf] at ha
    simpa only [Nat.zero_mul, Nat.add_zero] using ha
  have hprogram : program file = view m₁ d₁ := by
    rw [program, hbuf, hview, hempty]
  generalize imageEnd file (elfHdr buf).phnum (elfHdr buf).phoff 0 = z at *
  obtain ⟨-, hsz⟩ := allocuvm_spec halloc
  obtain ⟨hmax, hnew, -⟩ := hsz.resolve_left hne
  have hstack : view m' d₂ =
      (view m₁ d₁).zeros (pagesUp (pgRoundUp z)) (pagesUp (pgRoundUp z + stackpages * PGSIZE)) := by
    rcases allocuvm_view hd₁ halloc with ⟨hr, -⟩ | ⟨-, -, hstack⟩ | ⟨hr, -⟩
    · exact absurd hr hne
    · exact hstack
    · exact absurd hr hne
  have hguard : sub32 sz (2 * PGSIZE) / PGSIZE = pgRoundUp z / PGSIZE + stackpages - 2 := by
    have hmod : pgRoundUp z % PGSIZE = 0 := by
      simp only [pgRoundUp, PGSIZE]
      omega
    simp only [sub32, PGSIZE, KERNBASE] at *
    omega
  have hlow : a / PGSIZE < pgRoundUp z / PGSIZE := by
    simp only [pgRoundUp, PGSIZE] at *
    omega
  have hup : pagesUp (pgRoundUp z) = pgRoundUp z / PGSIZE := by
    simp only [pagesUp, pgRoundUp, PGSIZE]
    omega
  have huser : sub32 sz (2 * PGSIZE) / PGSIZE < USERPAGES := by
    simp only [sub32, USERPAGES, PGSIZE, KERNBASE] at *
    omega
  rw [hprogram, clearpteu_view huser hclear, hguard, get_hide (by omega), hstack,
    get_zeros (by rw [hup]; exact hlow)]

/-! ### The arguments -/

theorem Holds.put {va : Nat} {buf : List UInt8} (hok : (v.put va buf).1 = true) :
    Holds (v.put va buf).2 va buf := by
  intro i b hb
  have hlt : i < buf.length := (List.getElem?_eq_some_iff.mp hb).1
  rw [get_put hok, if_pos (by omega), Nat.add_sub_cancel_left, hb]

theorem Holds.congr {v' : View} {va : Nat} {buf : List UInt8} (h : Holds v va buf)
    (hget : ∀ i < buf.length, v'.get (va + i) = v.get (va + i)) : Holds v' va buf := by
  intro i b hb
  rw [hget i (List.getElem?_eq_some_iff.mp hb).1, h i b hb]

/-- The pointers to the strings below `sp`. -/
def argPointers : List (List UInt8) → Nat → List Nat
  | [], _ => []
  | arg :: argv, sp =>
    (sp - roundUp4 (arg.length + 1)) :: argPointers argv (sp - roundUp4 (arg.length + 1))

theorem argPointers_length (argv : List (List UInt8)) (sp : Nat) :
    (argPointers argv sp).length = argv.length := by
  induction argv generalizing sp with
  | nil => rfl
  | cons arg argv ih => rw [argPointers, List.length_cons, List.length_cons, ih]

theorem length_le_roundUp4 (n : Nat) : n ≤ roundUp4 n := by
  rw [roundUp4]
  omega

/-- The strings are put below `sp`, one below the other, and nothing else is written. -/
theorem pushArgs_view {argv : List (List UInt8)} {sp' : Nat} {ptrs ptrs' : List Nat}
    (hd : d.pages.Nodup) (hg : Guarded d sz) (hsp : sp ≤ sz) (hlow : sz - PGSIZE ≤ sp)
    (halign : sp % 4 = 0) (h : pushArgs d argv sp ptrs m = .ok (some (sp', ptrs'), m')) :
    ptrs' = ptrs ++ argPointers argv sp ∧
    (∀ a, a < sp' ∨ sp ≤ a → (view m' d).get a = (view m d).get a) ∧
    List.Forall₂ (fun ptr arg => sp' ≤ ptr ∧ ptr + arg.length < sp ∧ Holds (view m' d) ptr (arg ++ [0]))
      (argPointers argv sp) argv := by
  induction argv generalizing sp ptrs m with
  | nil =>
    cases h
    exact ⟨(List.append_nil _).symm, fun _ _ => rfl, .nil⟩
  | cons arg argv ih =>
    have hall := (pushArgs_some hg hsp hlow halign h).1
    have hlt := hg.lt
    unfold pushArgs at h
    split at h
    · cases h
    · obtain ⟨⟨ok, m₁⟩, hcopy, h⟩ := bind_eq_ok.mp h
      dsimp only at h
      split at h
      · rename_i hok
        subst hok
        rw [stringBytes_cons] at hall
        have hlen : (arg ++ [0]).length = arg.length + 1 := by simp
        have hround := length_le_roundUp4 (arg.length + 1)
        have hmul : roundUp4 (arg.length + 1) % 4 = 0 := by
          simp only [roundUp4]
          omega
        rw [sub32_push (by omega) halign (by omega)] at h hcopy
        -- The string below `sp`.
        have hput := copyoutLoop_view hd hcopy
        have hput₁ : ((view m d).put (sp - roundUp4 (arg.length + 1)) (arg ++ [0])).1 = true := by rw [← hput]
        have hput₂ : view m₁ d = ((view m d).put (sp - roundUp4 (arg.length + 1)) (arg ++ [0])).2 := by rw [← hput]
        obtain ⟨-, hsp', -⟩ := pushArgs_some hg (by omega) (by omega) (by omega) h
        obtain ⟨hptrs, hframe, hstrings⟩ := ih (by omega) (by omega) (by omega) h
        have hself : Holds (view m' d) (sp - roundUp4 (arg.length + 1)) (arg ++ [0]) := by
          refine Holds.congr (v := view m₁ d) (hput₂ ▸ Holds.put hput₁) fun i _ => ?_
          exact hframe _ (.inr (Nat.le_add_right ..))
        refine ⟨?_, fun a ha => ?_, .cons ⟨by omega, by omega, hself⟩ ?_⟩
        · rw [hptrs, List.append_assoc]
          rfl
        · rw [hframe a (by omega), hput₂, get_put hput₁, if_neg (by omega)]
        · refine hstrings.imp fun ptr arg' harg => ⟨harg.1, ?_, harg.2.2⟩
          have hhi := harg.2.1
          omega
      · cases h

/-- The program finds its arguments at the stack pointer, and what is below the last page is as it was. -/
theorem pushStack_view {argv : List (List UInt8)} (hd : d.pages.Nodup) (hg : Guarded d sz)
    (h : pushStack d argv sz m = .ok (some sp, m')) :
    Started (view m' d) sp argv ∧ ∀ a, a < sz - PGSIZE → (view m' d).get a = (view m d).get a := by
  have hsome := pushStack_some hg h
  have hlt := hg.lt
  have htwo := hg.two
  have hmod := hg.align
  have halign : sz % 4 = 0 := by
    simp only [PGSIZE] at hmod
    omega
  have hstrings := stringBytes_mod argv
  unfold pushStack at h
  obtain ⟨⟨y, m₁⟩, hargs, h⟩ := bind_eq_ok.mp h
  cases y with
  | none => cases h
  | some y =>
    obtain ⟨sp₁, ptrs⟩ := y
    obtain ⟨-, hsp₁, -⟩ := pushArgs_some hg le_rfl (by omega) halign hargs
    obtain ⟨hptrs, hframe, hholds⟩ := pushArgs_view hd hg le_rfl (by omega) halign hargs
    rw [List.nil_append] at hptrs
    subst hptrs
    obtain ⟨⟨ok, m₂⟩, hcopy, h⟩ := bind_eq_ok.mp h
    cases ok with
    | false => cases h
    | true =>
      cases h
      obtain ⟨hmax, hroom, hsp⟩ := hsome
      have hlen := ustack_length sp₁ (argPointers argv sz)
      rw [argPointers_length] at hcopy hsp hlen
      rw [argBytes] at hroom hsp
      rw [hsp] at hcopy
      have hput := copyoutLoop_view hd hcopy
      have hput₁ : ((view m₁ d).put (sz - (stringBytes argv + (3 + argv.length + 1) * 4))
          (ustack sp₁ (argPointers argv sz))).1 = true := by rw [← hput]
      have hput₂ : view m' d = ((view m₁ d).put (sz - (stringBytes argv + (3 + argv.length + 1) * 4))
          (ustack sp₁ (argPointers argv sz))).2 := by rw [← hput]
      have hpointer : sub32 sp₁ ((argv.length + 1) * 4) =
          sz - (stringBytes argv + (3 + argv.length + 1) * 4) + 12 := by
        simp only [sub32, KERNBASE] at *
        omega
      have hstack := Holds.put hput₁
      rw [← hput₂, ustack, argPointers_length, hpointer] at hstack
      rw [argPointers_length, hsp]
      have hother : ∀ a, a < sz - PGSIZE ∨ sp₁ ≤ a → (view m' d).get a = (view m₁ d).get a := fun a ha => by
        rw [hput₂, get_put hput₁, if_neg (by omega)]
      -- The strings are above the pointers.
      have hargs' : List.Forall₂ (fun ptr arg => Holds (view m' d) ptr (arg ++ [0])) (argPointers argv sz) argv :=
        hholds.imp fun ptr arg harg => harg.2.2.congr fun i _ => hother _ (.inr (harg.1.trans (Nat.le_add_right ptr i)))
      exact ⟨⟨argPointers argv sz, hargs', hstack⟩, fun a ha => by
        rw [hother a (.inl ha), hframe a (by omega)]⟩

/-! ### The call -/

/-- The pages of the address space of the process, and the kernel stacks, are not free. -/
structure Apart (s : Machine) (c : Slot) : Prop where
  nodup : s.mem.free.Nodup
  dir : ∀ p, (s.kernel.proc c).pgdir = some p → p ∉ s.mem.free
  pages : ∀ p d, (s.kernel.proc c).pgdir = some p → s.dir p = some d → ∀ q ∈ d.pages, q ∉ s.mem.free
  stack : ∀ i p, s.kstack i = some p → p ∉ s.mem.free

theorem freeStacks_data {xs : List Slot} (h : freeStacks t c xs = .ok m) (hstack : ∀ i, t.kstack i ≠ some q)
    (hfree : q ∉ t.mem.free) : m.data q = t.mem.data q ∧ q ∉ m.free := by
  refine foldlM_invariant (I := fun m : Mem => m.data q = t.mem.data q ∧ q ∉ m.free)
    (fun m p m' ⟨hdata, hnot⟩ hm => ?_) ⟨rfl, hfree⟩ h
  split at hm
  · cases hm
    exact ⟨hdata, hnot⟩
  · split at hm
    · cases hm
    · rename_i stack hp
      cases hm
      have hne : q ≠ stack := fun hq => hstack p (by rw [hp, hq])
      exact ⟨(Function.update_of_ne hne _ _).trans hdata, fun hmem =>
        (List.mem_cons.mp hmem).elim hne hnot⟩

/-- The end of `exec` writes only to pages that it frees, and to free pages. -/
theorem execEnd_data {old : Option Page} (h : execEnd t c old = .ok s') (hstack : ∀ i, t.kstack i ≠ some q)
    (hfree : q ∉ t.mem.free) (hold : ∀ p d, old = some p → t.dir p = some d → q ∉ p :: d.pages) :
    s'.mem.data q = t.mem.data q := by
  unfold execEnd at h
  obtain ⟨k₁, -, h⟩ := bind_eq_ok.mp h
  split at h
  · cases h
  · obtain ⟨mem, hmem, h⟩ := bind_eq_ok.mp h
    obtain ⟨k₂, -, h⟩ := bind_eq_ok.mp h
    obtain ⟨⟨p, d⟩, hd, h⟩ := bind_eq_ok.mp h
    obtain ⟨mem₂, hf, h⟩ := bind_eq_ok.mp h
    cases h
    obtain ⟨hdata, hnot⟩ := freeStacks_data hmem hstack hfree
    unfold Machine.getDir at hd
    split at hd
    · cases hd
    · split at hd
      · cases hd
      · rename_i hd'
        cases hd
        refine ((freevm_pages hf).2 q fun hin => ?_).trans hdata
        rcases List.mem_append.mp hin with hin | hin
        · exact hnot hin
        · exact hold p d rfl hd' hin

/-- From the line on where it saves the name of the program, `exec` leaves the new image as it is. -/
theorem execCommit_data {entry : Nat} (h : execCommit t c path pgdir d sz sp entry = .ok s')
    (hstack : ∀ i, t.kstack i ≠ some q) (hfree : q ∉ t.mem.free)
    (hold : ∀ p d₀, (t.kernel.proc c).pgdir = some p → Function.update t.dir pgdir (some d) p = some d₀ →
      q ∉ p :: d₀.pages) : s'.mem.data q = t.mem.data q := by
  unfold execCommit at h
  obtain ⟨k, hk, h⟩ := bind_eq_ok.mp h
  have hcall : ∀ old, k.call c = .exec old → old = (t.kernel.proc c).pgdir := by
    intro old hold
    unfold Thread.execCommit at hk
    split at hk
    · cases hk
    obtain ⟨k₁, hk₁, hk⟩ := bind_eq_ok.mp hk
    obtain ⟨-, rfl⟩ := Thread.newDir_ok hk₁
    obtain ⟨m, -, hk⟩ := bind_eq_ok.mp hk
    split at hk
    · cases hk
      simp [Kernel.ret, Kernel.setCall] at hold
    · cases hk
      simp only [Kernel.setWalk, Kernel.setCall, Function.update_self, Thread.Call.exec.injEq] at hold
      exact hold.symm
  dsimp only at h
  split at h
  · rename_i old hexec
    exact execEnd_data (t := { t with
        kernel := k, dir := Function.update t.dir pgdir (some d)
        name := Function.update t.name c (lastName path), tf := Function.update t.tf c ⟨entry, sp⟩ }) h
      hstack hfree fun p d₀ hp hd₀ => hold p d₀ (hcall old hexec ▸ hp) hd₀
  · cases h
    rfl

/-- After an `exec` that returns 0, the program starts at its entry point, with its image as the file has
    it, its arguments on the stack, and a size that is the one of the image. -/
theorem exec_starts_program {argv : List (List UInt8)} {stackpages : Nat} (hpages : 2 ≤ stackpages)
    (hfile : ∀ ip, (s.file ip).length < 2 ^ 31) (hapart : Apart s c)
    (h : execWith s c path argv stackpages = .ok s') (hret : (s'.kernel.proc c).eax = 0) :
    ∃ ip header pgdir d, s.namei path = some ip ∧ readStruct (s.file ip) 0 ELFHDR = some header ∧
      (s'.tf c).eip = (elfHdr header).entry ∧ (s'.kernel.proc c).pgdir = some pgdir ∧ s'.dir pgdir = some d ∧
      (∀ a < imageSize (s.file ip) 0, (view s'.mem d).get a = (program (s.file ip)).get a) ∧
      Started (view s'.mem d) (s'.tf c).esp argv := by
  rcases execWith_restored hpages h with hr | ⟨ip, pgdir, d, sz, m, sp, m', hip, hloads, hpush⟩
  · rw [hr.kernel] at hret
    simp [Kernel.ret, Kernel.setProc, Kernel.setCall] at hret
  · obtain ⟨hbuilt, hsize, hg⟩ := hloads.guarded hpages
    obtain ⟨header, hheader, heq⟩ := execWith_entry (c := c) hip hloads hpush
    rw [heq] at h
    obtain ⟨m₁, -, ⟨-, heax, -⟩ | ⟨-, ⟨-, hpgdir, hsz⟩, htf, p, hp, hdir⟩⟩ := execCommit_ok h
    · rw [heax] at hret
      exact absurd hret (by decide)
    · have hall := hbuilt.conserves (pushStack_conserves hpush)
      have hin : ∀ q, q ∈ m'.free ++ pgdir :: d.pages → q ∈ s.mem.free := fun q hq => hall.pages.mem_iff.mp hq
      have hnodup := hall.pages.nodup_iff.mpr hapart.nodup
      have hne : pgdir ≠ p := fun hne =>
        hapart.dir p hp (hne ▸ hin pgdir (List.mem_append_right _ List.mem_cons_self))
      have hview : view s'.mem d = view m' d := by
        refine view_congr (fun _ _ => rfl) fun q hq => ?_
        have hqfree : q ∈ s.mem.free := hin q (List.mem_append_right _ (List.mem_cons_of_mem _ hq))
        refine execCommit_data h (fun i hi => hapart.stack i q hi hqfree) (fun hmem => ?_)
          fun p' d₀ hp' hd₀ hmem => ?_
        · exact (List.nodup_append'.mp hnodup).2.2 hmem (List.mem_cons_of_mem _ hq)
        · obtain rfl : p' = p := Option.some.inj (hp'.symm.trans hp)
          rw [Function.update_of_ne hne.symm] at hd₀
          rcases List.mem_cons.mp hmem with rfl | hmem
          · exact hapart.dir q hp hqfree
          · exact hapart.pages p' d₀ hp hd₀ q hmem hqfree
      obtain ⟨hstarted, hlow⟩ := pushStack_view (hloads.guarded hpages |>.1.distinct hapart.nodup).pages hg hpush
      have hbelow : imageSize (s.file ip) 0 ≤ sz - PGSIZE := by
        obtain ⟨buf, hbuf, -⟩ := hloads
        simp only [hsize, imageSize, hbuf, PGSIZE]
        omega
      refine ⟨ip, header, pgdir, d, hip, hheader, by rw [htf], hpgdir, ?_, fun a ha => ?_, ?_⟩
      · rw [hdir, Function.update_of_ne hne, Function.update_self]
      · rw [hview, hlow a (by omega), hloads.get_program hpages hapart.nodup (hfile ip) ha]
      · rw [hview, htf]
        exact hstarted

/-- A program with one segment, of which four bytes are in the file. -/
def smallElf : List UInt8 :=
  word ELF_MAGIC ++ List.replicate 20 0 ++ word 0 ++ word 52 ++ List.replicate 12 0 ++ [1, 0] ++
    List.replicate 6 0 ++ word ELF_PROG_LOAD ++ word 84 ++ word 0 ++ word 0 ++ word 4 ++ word 8 ++
    word 0 ++ word 0 ++ [7, 8, 9, 10]

/-- A machine whose only file is that program. -/
def smallFile (k : Kernel) (free : List Page) : Machine :=
  { onePage k free with
    namei := fun path => if path = ['a'] then some 5 else none
    file := fun ip => if ip = 5 then smallElf else [] }

theorem smallFile_apart (hdir : (k.proc 0).pgdir = some 7) : Apart (smallFile k (List.range' 200 100)) 0 := by
  refine ⟨List.nodup_range' .., fun p hp => ?_, fun p d hp hd q hq => ?_, fun i p hp => ?_⟩
  · cases hdir.symm.trans hp
    show 7 ∉ List.range' 200 100
    decide +kernel
  · cases hdir.symm.trans hp
    cases hd
    show q ∉ List.range' 200 100
    revert q
    decide +kernel
  · have hp' : (if i = 0 then some 10 else none) = some p := hp
    split at hp'
    · cases hp'
      show 10 ∉ List.range' 200 100
      decide +kernel
    · cases hp'

/-- The first process executes the program with one argument. -/
theorem exec_starts_program_small : ∃ s s' : Machine, exec s 0 ['a'] [[104, 105]] = .ok s' ∧
    ∃ d, s'.dir 200 = some d ∧ (view s'.mem d).get 1 = some 8 ∧ (view s'.mem d).get 5 = some 0 ∧
    Started (view s'.mem d) (s'.tf 0).esp [[104, 105]] := by
  obtain ⟨k₀, h₀⟩ : ∃ k, Thread.userinit Thread.boot 7 = .ok k := ⟨_, rfl⟩
  have hrun : (match exec (smallFile k₀ (List.range' 200 100)) 0 ['a'] [[104, 105]] with
      | .ok s' => decide ((s'.kernel.proc 0).eax = 0 ∧ (s'.kernel.proc 0).pgdir = some 200)
      | .error _ => false) = true := by cases h₀; decide +kernel
  have hdir : (k₀.proc 0).pgdir = some 7 := by cases h₀; decide +kernel
  split at hrun
  · rename_i s' hs'
    obtain ⟨hret, hpgdir⟩ := of_decide_eq_true hrun
    have hfile : ∀ ip, ((smallFile k₀ (List.range' 200 100)).file ip).length < 2 ^ 31 := fun ip => by
      show (if ip = 5 then smallElf else []).length < 2 ^ 31
      split <;> decide +kernel
    obtain ⟨ip, header, pgdir, d, hip, -, -, hpgdir', hd, hprogram, hstarted⟩ :=
      exec_starts_program (by decide) hfile (smallFile_apart hdir) hs' hret
    obtain rfl := Option.some.inj (hpgdir.symm.trans hpgdir')
    obtain rfl : 5 = ip := Option.some.inj hip
    refine ⟨_, s', hs', d, hd, (hprogram 1 ?_).trans ?_, (hprogram 5 ?_).trans ?_, hstarted⟩
    · show 1 < imageSize smallElf 0
      decide +kernel
    · show (program smallElf).get 1 = _
      decide +kernel
    · show 5 < imageSize smallElf 0
      decide +kernel
    · show (program smallElf).get 5 = _
      decide +kernel
  · cases hrun

end Xv6.Vm
