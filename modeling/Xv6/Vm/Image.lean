import Xv6.Vm.Access

namespace Xv6.Vm

open Xv6.Thread (Stop PGSIZE KERNBASE pgRoundUp)
open Xv6.Lib

/-!
# Memory — the image that `exec` builds

* `imageSize` — the size of an image, from the headers of the program;
* `Loads` — the steps of `exec` up to the arguments;
* `Loads.guarded` — the image is mapped for the user, all but the page two pages below its end;
* `pushStack_iff` — the arguments are accepted if and only if they fit in one page.
-/

variable {m m' m₀ : Mem} {d d' : Dir} {n i addr off sz : Nat} {p : Page} {file : List UInt8}

/-! ### The program -/

/-- All pages below `n` are mapped for the user. -/
def Mapped (d : Dir) (n : Nat) : Prop := ∀ b, b < n → ∃ p, d.entry b = some ⟨p, true⟩

theorem Mapped.grow {lo hi : Nat} (h : Mapped d lo) (hg : Grows d d' lo hi) : Mapped d' hi := by
  intro b hb
  rcases Nat.lt_or_ge b lo with hlo | hlo
  · rw [hg.old b (.inl hlo)]
    exact h b hlo
  · exact hg.new b hlo hb

/-- `loaduvm` writes only to pages of the image. -/
theorem loadLoop_conserves {ok : Bool} {top : Nat}
    (hmap : Mapped d top) (htop : top ≤ USERPAGES) (hn : (addr + i) / PGSIZE + n ≤ top)
    (h : loadLoop file d addr off sz n i m = .ok (ok, m')) : Conserves m d m' d := by
  induction n generalizing i m with
  | zero =>
    cases h
    exact .refl
  | succ n ih =>
    obtain ⟨p, hp⟩ := hmap ((addr + i) / PGSIZE) (by omega)
    have hmem := entry_mem_pages (by omega) hp
    unfold loadLoop at h
    rw [Dir.entry_eq_some.mp hp] at h
    dsimp only at h
    split at h
    · cases h
      exact .refl
    · rename_i buf _
      have hwrite : Conserves m d (m.write p 0 buf) d := write_conserves hmem
      split at h
      · refine hwrite.trans (ih ?_ h)
        rw [← Nat.add_assoc, Nat.add_div_right _ (by decide)]
        omega
      · cases h
        exact hwrite

theorem field_lt (buf : List UInt8) (off w : Nat) : field buf off w < 256 ^ w := by
  have hfold : ∀ xs : List UInt8, xs.foldr (fun b v => b.toNat + 256 * v) 0 < 256 ^ xs.length := by
    intro xs
    induction xs with
    | nil => decide
    | cons b xs ih =>
      have hb := b.toNat_lt
      rw [List.foldr_cons, List.length_cons, Nat.pow_succ]
      omega
  exact (hfold _).trans_le (Nat.pow_le_pow_right (by decide) (by simp))

/-- The end of a segment, for a program that ends at `sz` so far. -/
def segmentEnd (ph : ProgHdr) (sz : Nat) : Nat :=
  if ph.type = ELF_PROG_LOAD then max sz (ph.vaddr + ph.memsz) else sz

/-- A segment that is loaded. -/
theorem loadSegment_spec {ph : ProgHdr} {x : Option Nat} (hsz : sz < KERNBASE)
    (hmap : Mapped d (pagesUp sz)) (hmemsz : ph.memsz < 2 ^ 32) (hvaddr : ph.vaddr < 2 ^ 32)
    (h : loadSegment file ph sz m d = .ok (x, m', d')) :
    Conserves m d m' d' ∧
    ∀ r, x = some r → r = segmentEnd ph sz ∧ r < KERNBASE ∧ Mapped d' (pagesUp r) := by
  unfold loadSegment at h
  split at h
  · rename_i htype
    cases h
    refine ⟨.refl, fun r hr => ?_⟩
    cases hr
    exact ⟨(if_neg htype).symm, hsz, hmap⟩
  · rename_i htype
    rw [ne_eq, not_not] at htype
    split at h
    · cases h
      exact ⟨.refl, nofun⟩
    · rename_i hfilesz
      split at h
      · cases h
        exact ⟨.refl, nofun⟩
      · rename_i hover
        have hend : (ph.vaddr + ph.memsz) % 2 ^ 32 = ph.vaddr + ph.memsz := by omega
        rw [hend] at h
        obtain ⟨⟨r, m₁, d₁⟩, halloc, h⟩ := bind_eq_ok.mp h
        obtain ⟨hcons, hr⟩ := allocuvm_spec halloc
        dsimp only at h
        split at h
        · cases h
          exact ⟨hcons, nofun⟩
        · rename_i hr0
          obtain ⟨rfl, hlt, hgrow⟩ := hr.resolve_left hr0
          have hmap₁ := hmap.grow hgrow
          split at h
          · cases h
            exact ⟨hcons, nofun⟩
          · rename_i halign
            rw [ne_eq, not_not] at halign
            obtain ⟨⟨ok, m₂⟩, hload, h⟩ := bind_eq_ok.mp h
            rw [loaduvm, if_neg (not_not.mpr halign)] at hload
            have htop : pagesUp (max sz (ph.vaddr + ph.memsz)) ≤ USERPAGES := pagesUp_le (by omega)
            -- The file part of the segment ends below its memory part.
            have hfile : (ph.vaddr + 0) / PGSIZE + pagesUp ph.filesz ≤
                pagesUp (max sz (ph.vaddr + ph.memsz)) := by
              simp only [pagesUp, PGSIZE] at halign ⊢
              omega
            have hcons₂ := hcons.trans (loadLoop_conserves hmap₁ htop hfile hload)
            cases h
            refine ⟨hcons₂, fun r hr => ?_⟩
            split at hr
            · cases hr
              exact ⟨by rw [segmentEnd, if_pos htype], by omega, hmap₁⟩
            · cases hr

/-- The end of a program with `n` more headers to go. -/
def imageEnd (file : List UInt8) : Nat → Nat → Nat → Nat
  | 0, _, sz => sz
  | n + 1, off, sz =>
    match readStruct file off PROGHDR with
    | none => sz
    | some buf => imageEnd file n ((off + PROGHDR) % 2 ^ 32) (segmentEnd (progHdr buf) sz)

/-- A program that is loaded. -/
theorem loadSegments_spec {x : Option Nat} (hsz : sz < KERNBASE) (hmap : Mapped d (pagesUp sz))
    (h : loadSegments file n off sz m d = .ok (x, m', d')) :
    Conserves m d m' d' ∧
    ∀ r, x = some r → r = imageEnd file n off sz ∧ r < KERNBASE ∧ Mapped d' (pagesUp r) := by
  induction n generalizing off sz m d with
  | zero =>
    cases h
    refine ⟨.refl, fun r hr => ?_⟩
    cases hr
    exact ⟨rfl, hsz, hmap⟩
  | succ n ih =>
    unfold loadSegments at h
    unfold imageEnd
    cases hbuf : readStruct file off PROGHDR with
    | none =>
      rw [hbuf] at h
      cases h
      exact ⟨.refl, nofun⟩
    | some buf =>
      rw [hbuf] at h
      obtain ⟨⟨y, m₁, d₁⟩, hseg, h⟩ := bind_eq_ok.mp h
      obtain ⟨hcons, hy⟩ := loadSegment_spec hsz hmap (field_lt ..) (field_lt ..) hseg
      cases y with
      | none =>
        cases h
        exact ⟨hcons, nofun⟩
      | some r =>
        obtain ⟨rfl, hlt, hmap₁⟩ := hy r rfl
        obtain ⟨hcons₁, hx⟩ := ih hlt hmap₁ h
        exact ⟨hcons.trans hcons₁, hx⟩

/-! ### The image before the arguments -/

/-- The size of the image of a program, with the pages for the stack and its guard. -/
def imageSize (file : List UInt8) (stackpages : Nat) : Nat :=
  match readStruct file 0 ELFHDR with
  | none => 0
  | some buf =>
    pgRoundUp (imageEnd file (elfHdr buf).phnum (elfHdr buf).phoff 0) + stackpages * PGSIZE

/-- `exec` builds the image of a program up to the arguments: the directory, its page, the size of
    the image and the memory. -/
def Loads (m : Mem) (file : List UInt8) (stackpages : Nat) (pgdir : Page) (d : Dir) (sz : Nat)
    (m' : Mem) : Prop :=
  ∃ buf, readStruct file 0 ELFHDR = some buf ∧ (elfHdr buf).magic = ELF_MAGIC ∧
  ∃ d₀ m₀, setupkvm m = .ok (some (pgdir, d₀), m₀) ∧
  ∃ sz₁ m₁ d₁, loadSegments file (elfHdr buf).phnum (elfHdr buf).phoff 0 m₀ d₀ =
    .ok (some sz₁, m₁, d₁) ∧
  ∃ d₂, allocuvm m₁ d₁ (pgRoundUp sz₁) (pgRoundUp sz₁ + stackpages * PGSIZE) = .ok (sz, m', d₂) ∧
    sz ≠ 0 ∧ clearpteu d₂ (sub32 sz (2 * PGSIZE)) = .ok d

/-- The pages of an image of the size `sz`: the one two pages below the end is not for the user. -/
structure Guarded (d : Dir) (sz : Nat) : Prop where
  align : sz % PGSIZE = 0
  two : 2 * PGSIZE ≤ sz
  lt : sz < KERNBASE
  entry : ∀ b, b < sz / PGSIZE → ∃ p, d.entry b = some ⟨p, decide (b + 2 ≠ sz / PGSIZE)⟩

theorem pagesUp_eq_div (h : sz % PGSIZE = 0) : pagesUp sz = sz / PGSIZE := by
  simp only [pagesUp, PGSIZE] at *
  omega

/-- The pages of an image, and what it has taken. -/
theorem Loads.guarded {stackpages : Nat} {pgdir : Page} (hpages : 2 ≤ stackpages)
    (h : Loads m file stackpages pgdir d sz m') :
    Built m m' pgdir d ∧ sz = imageSize file stackpages ∧ Guarded d sz := by
  obtain ⟨buf, hbuf, -, d₀, m₀, hsetup, sz₁, m₁, d₁, hload, d₂, halloc, hne, hclear⟩ := h
  obtain ⟨hbuilt, -⟩ := setupkvm_spec hsetup
  obtain ⟨hcons, hend⟩ := loadSegments_spec (by decide)
    (fun b hb => absurd hb (by simp [pagesUp, PGSIZE])) hload
  obtain ⟨rfl, hlt, hmap⟩ := hend sz₁ rfl
  obtain ⟨hcons₁, hsz⟩ := allocuvm_spec halloc
  obtain ⟨hmax, hnew, hgrow⟩ := hsz.resolve_left hne
  generalize hz : imageEnd file (elfHdr buf).phnum (elfHdr buf).phoff 0 = z at *
  have hsize : sz = pgRoundUp z + stackpages * PGSIZE := by omega
  have halign : sz % PGSIZE = 0 := by
    simp only [hsize, pgRoundUp, PGSIZE]
    omega
  have htwo : 2 * PGSIZE ≤ sz := by
    simp only [hsize, PGSIZE]
    omega
  have hguard : sub32 sz (2 * PGSIZE) / PGSIZE = sz / PGSIZE - 2 := by
    simp only [sub32, PGSIZE, KERNBASE] at *
    omega
  have hup : pagesUp (pgRoundUp z) = pagesUp z := by
    simp only [pagesUp, pgRoundUp, PGSIZE]
    omega
  rw [hup] at hgrow
  have hmap₂ := hmap.grow hgrow
  rw [pagesUp_eq_div halign] at hmap₂
  have hle : sz / PGSIZE ≤ USERPAGES := by
    rw [← pagesUp_eq_div halign]
    exact pagesUp_le (by omega)
  obtain ⟨hcons₂, hentry⟩ := clearpteu_spec (m := m') (by
    rw [hguard]
    simp only [PGSIZE] at *
    omega) hclear
  refine ⟨(hbuilt.conserves hcons).conserves (hcons₁.trans hcons₂), ?_, halign, htwo, by omega, ?_⟩
  · simp only [imageSize, hbuf, hz, hsize]
  · intro b hb
    obtain ⟨p, hp⟩ := hmap₂ b hb
    refine ⟨p, ?_⟩
    rw [hentry, hguard]
    by_cases hbg : b = sz / PGSIZE - 2
    · have hguarded : b + 2 = sz / PGSIZE := by
        simp only [PGSIZE] at *
        omega
      rw [← hbg, Function.update_self, hp]
      simp [hguarded]
    · have hother : b + 2 ≠ sz / PGSIZE := by omega
      rw [Function.update_of_ne hbg, hp]
      simp [hother]

/-! ### The arguments -/

theorem pushArgs_conserves {argv : List (List UInt8)} {sp : Nat} {ptrs : List Nat}
    {x : Option (Nat × List Nat)} (h : pushArgs d argv sp ptrs m = .ok (x, m')) :
    Conserves m d m' d := by
  induction argv generalizing sp ptrs m with
  | nil =>
    cases h
    exact .refl
  | cons arg argv ih =>
    unfold pushArgs at h
    split at h
    · cases h
      exact .refl
    · obtain ⟨⟨ok, m₁⟩, hcopy, h⟩ := bind_eq_ok.mp h
      have hcons := copyoutLoop_conserves hcopy
      dsimp only at h
      split at h
      · exact hcons.trans (ih h)
      · cases h
        exact hcons

/-- The arguments are written to pages of the image. -/
theorem pushStack_conserves {argv : List (List UInt8)} {x : Option Nat}
    (h : pushStack d argv sz m = .ok (x, m')) : Conserves m d m' d := by
  unfold pushStack at h
  obtain ⟨⟨y, m₁⟩, hargs, h⟩ := bind_eq_ok.mp h
  have hcons := pushArgs_conserves hargs
  cases y with
  | none =>
    cases h
    exact hcons
  | some y =>
    obtain ⟨⟨ok, m₂⟩, hcopy, h⟩ := bind_eq_ok.mp h
    cases h
    exact hcons.trans (copyoutLoop_conserves hcopy)

/-- The bytes that `len` bytes take on the stack. -/
def roundUp4 (len : Nat) : Nat := (len + 3) / 4 * 4

/-- The bytes that the strings of some arguments take on the stack. -/
def stringBytes (argv : List (List UInt8)) : Nat := (argv.map fun arg => roundUp4 (arg.length + 1)).sum

theorem stringBytes_nil : stringBytes [] = 0 := rfl

theorem stringBytes_cons (arg : List UInt8) (argv : List (List UInt8)) :
    stringBytes (arg :: argv) = roundUp4 (arg.length + 1) + stringBytes argv := rfl

/-- The bytes that some arguments take on the stack, with the pointers to them. -/
def argBytes (argv : List (List UInt8)) : Nat := stringBytes argv + (3 + argv.length + 1) * 4

/-- What is put below `sp` is accepted if and only if it does not reach into the page that is not
    for the user. -/
theorem copyout_push {sp : Nat} {buf : List UInt8} (hg : Guarded d sz) (hsp : sp ≤ sz)
    (hlow : sz - PGSIZE ≤ sp) (halign : sp % 4 = 0) (hne : buf ≠ []) :
    (∃ m', copyout m d (sub32 sp buf.length / 4 * 4) buf = .ok (true, m')) ↔
      sz - PGSIZE + roundUp4 buf.length ≤ sp := by
  have hlen := List.length_pos_of_ne_nil hne
  have htwo := hg.two
  have hlt := hg.lt
  have hmod := hg.align
  constructor
  · rintro ⟨m', h⟩
    have huser := fun b => copyoutLoop_user (b := b) h hlen
    -- The guard page is not touched.
    by_contra hover
    rcases Nat.lt_or_ge sp buf.length with hwrap | hwrap
    · -- The address is above the user part.
      obtain ⟨p, hp⟩ := huser ((sub32 sp buf.length / 4 * 4 + buf.length - 1) / PGSIZE)
        (Nat.div_le_div_right (by omega)) (by
          simp only [PGSIZE]
          omega)
      have hpage := user_lt hp rfl
      simp only [sub32, USERPAGES, PGSIZE, KERNBASE] at *
      omega
    · have hsub : sub32 sp buf.length = sp - buf.length := by
        simp only [sub32, KERNBASE] at *
        omega
      rw [hsub] at huser
      obtain ⟨p, hp⟩ := huser (sz / PGSIZE - 2) (by
        simp only [roundUp4, PGSIZE] at *
        omega) (by
        simp only [roundUp4, PGSIZE] at *
        omega)
      obtain ⟨q, hq⟩ := hg.entry (sz / PGSIZE - 2) (by
        simp only [PGSIZE] at *
        omega)
      rw [hp] at hq
      have hguard : sz / PGSIZE - 2 + 2 = sz / PGSIZE := by
        simp only [PGSIZE] at *
        omega
      simp [hguard] at hq
  · intro hroom
    have hsub : sub32 sp buf.length / 4 * 4 = sp - roundUp4 buf.length := by
      simp only [sub32, roundUp4, KERNBASE, PGSIZE] at *
      omega
    refine copyoutLoop_ok le_rfl fun b hlo hhi => ?_
    rw [hsub] at hlo hhi
    obtain rfl : b = sz / PGSIZE - 1 := by
      simp only [roundUp4, PGSIZE] at *
      omega
    obtain ⟨p, hp⟩ := hg.entry (sz / PGSIZE - 1) (by
      simp only [PGSIZE] at *
      omega)
    have hother : sz / PGSIZE - 1 + 2 ≠ sz / PGSIZE := by omega
    exact ⟨p, by simpa [hother] using hp⟩

/-- Where the arguments go. -/
theorem sub32_push {sp len : Nat} (hlt : sp < KERNBASE) (halign : sp % 4 = 0)
    (hroom : roundUp4 len ≤ sp) : sub32 sp len / 4 * 4 = sp - roundUp4 len := by
  simp only [sub32, roundUp4, KERNBASE] at *
  omega

/-- The strings of arguments that are accepted. -/
theorem pushArgs_some {argv : List (List UInt8)} {sp sp' : Nat} {ptrs ptrs' : List Nat}
    (hg : Guarded d sz) (hsp : sp ≤ sz) (hlow : sz - PGSIZE ≤ sp) (halign : sp % 4 = 0)
    (h : pushArgs d argv sp ptrs m = .ok (some (sp', ptrs'), m')) :
    sz - PGSIZE + stringBytes argv ≤ sp ∧ sp' = sp - stringBytes argv ∧
    ptrs'.length = ptrs.length + argv.length ∧ ptrs.length + argv.length ≤ max ptrs.length MAXARG := by
  induction argv generalizing sp ptrs m with
  | nil =>
    cases h
    rw [stringBytes_nil, Nat.add_zero, Nat.sub_zero]
    exact ⟨hlow, rfl, rfl, le_max_left ..⟩
  | cons arg argv ih =>
    unfold pushArgs at h
    split at h
    · cases h
    · rename_i hmax
      obtain ⟨⟨ok, m₁⟩, hcopy, h⟩ := bind_eq_ok.mp h
      dsimp only at h
      split at h
      · rename_i hok
        rw [hok] at hcopy
        have hlen : (arg ++ [0]).length = arg.length + 1 := by simp
        rw [← hlen] at hcopy
        have hroom := (copyout_push hg hsp hlow halign (by simp)).mp ⟨m₁, hcopy⟩
        have hlt := hg.lt
        rw [hlen] at hroom
        rw [sub32_push (by omega) halign (by omega)] at h
        have hmul : roundUp4 (arg.length + 1) % 4 = 0 := by
          simp only [roundUp4]
          omega
        obtain ⟨hroom', rfl, hptrs, hargc⟩ := ih (by omega) (by omega) (by omega) h
        simp only [stringBytes_cons, List.length_append, List.length_cons,
          List.length_nil] at *
        omega
      · cases h

/-- Arguments whose strings do not reach into the page that is not for the user are accepted. -/
theorem pushArgs_ok (argv : List (List UInt8)) {sp : Nat} (ptrs : List Nat) (m : Mem) (hg : Guarded d sz)
    (hsp : sp ≤ sz) (halign : sp % 4 = 0) (hroom : sz - PGSIZE + stringBytes argv ≤ sp)
    (hmax : ptrs.length + argv.length ≤ MAXARG) :
    ∃ ptrs' m', pushArgs d argv sp ptrs m = .ok (some (sp - stringBytes argv, ptrs'), m') ∧
      ptrs'.length = ptrs.length + argv.length := by
  induction argv generalizing sp ptrs m with
  | nil => exact ⟨ptrs, m, rfl, rfl⟩
  | cons arg argv ih =>
    have hlt := hg.lt
    have hlen : (arg ++ [0]).length = arg.length + 1 := by simp
    rw [stringBytes_cons] at hroom ⊢
    rw [List.length_cons] at hmax ⊢
    have hne : arg ++ [0] ≠ [] := by simp
    obtain ⟨m₁, hcopy⟩ := (copyout_push (m := m) hg hsp (by omega) halign hne).mpr (by
      rw [hlen]
      omega)
    rw [hlen] at hcopy
    have hsub : sub32 sp (arg.length + 1) / 4 * 4 = sp - roundUp4 (arg.length + 1) :=
      sub32_push (by omega) halign (by omega)
    have hmul : roundUp4 (arg.length + 1) % 4 = 0 := by
      simp only [roundUp4]
      omega
    obtain ⟨ptrs', m', hpush, hptrs⟩ : ∃ ptrs' m', pushArgs d argv (sp - roundUp4 (arg.length + 1))
        (ptrs ++ [sp - roundUp4 (arg.length + 1)]) m₁ =
          .ok (some (sp - roundUp4 (arg.length + 1) - stringBytes argv, ptrs'), m') ∧
        ptrs'.length = (ptrs ++ [sp - roundUp4 (arg.length + 1)]).length + argv.length := by
      refine ih _ _ (by omega) (by omega) (by omega) ?_
      simp only [List.length_append, List.length_cons, List.length_nil]
      omega
    refine ⟨ptrs', m', ?_, ?_⟩
    · unfold pushArgs
      rw [if_neg (by omega)]
      refine bind_eq_ok.mpr ⟨(true, m₁), hcopy, ?_⟩
      rw [hsub]
      dsimp only
      rw [if_pos rfl, hpush, Nat.sub_sub]
    · rw [hptrs]
      simp only [List.length_append, List.length_cons, List.length_nil]
      omega

theorem ustack_length (sp : Nat) (ptrs : List Nat) :
    (ustack sp ptrs).length = (3 + ptrs.length + 1) * 4 := by
  have hwords : (ptrs.flatMap word).length = ptrs.length * 4 := by
    rw [List.length_flatMap]
    simp [word_length]
  simp only [ustack, List.length_append, word_length, hwords]
  omega

theorem stringBytes_mod (argv : List (List UInt8)) : stringBytes argv % 4 = 0 := by
  induction argv with
  | nil => rfl
  | cons arg argv ih =>
    rw [stringBytes_cons, roundUp4]
    omega

/-- The pointers are whole words. -/
theorem ustack_align {sp : Nat} (argc : Nat) (halign : sp % 4 = 0) :
    sub32 sp ((3 + argc + 1) * 4) = sub32 sp ((3 + argc + 1) * 4) / 4 * 4 := by
  simp only [sub32]
  omega

theorem roundUp4_words (argc : Nat) : roundUp4 ((3 + argc + 1) * 4) = (3 + argc + 1) * 4 := by
  simp only [roundUp4]
  omega

/-- Arguments that are accepted. -/
theorem pushStack_some {argv : List (List UInt8)} {sp : Nat} (hg : Guarded d sz)
    (h : pushStack d argv sz m = .ok (some sp, m')) :
    argv.length ≤ MAXARG ∧ argBytes argv ≤ PGSIZE ∧ sp = sz - argBytes argv := by
  have hlt := hg.lt
  have htwo := hg.two
  have hmod := hg.align
  have halign : sz % 4 = 0 := by
    simp only [PGSIZE] at hmod
    omega
  have hstrings := stringBytes_mod argv
  unfold pushStack at h
  obtain ⟨⟨y, m₁⟩, hargs, h⟩ := bind_eq_ok.mp h
  cases y with
  | none => cases h
  | some y =>
    obtain ⟨sp₁, ptrs⟩ := y
    obtain ⟨hroom, rfl, hptrs, hmax⟩ := pushArgs_some hg le_rfl (by omega) halign hargs
    obtain ⟨⟨ok, m₂⟩, hcopy, h⟩ := bind_eq_ok.mp h
    rw [List.length_nil, Nat.zero_add] at hptrs hmax
    cases ok with
    | false => cases h
    | true =>
      have hsp := Option.some.inj (Prod.mk.inj (Except.ok.inj h)).1
      have hlow : (sz - stringBytes argv) % 4 = 0 := by omega
      have hlen := ustack_length (sz - stringBytes argv) ptrs
      have hpush := ustack_align ptrs.length hlow
      rw [hpush, ← hlen] at hcopy
      have hroom₁ := (copyout_push hg (by omega) (by omega) hlow
        (List.ne_nil_of_length_pos (by omega))).mp ⟨m₂, hcopy⟩
      rw [hlen, roundUp4_words, hptrs] at hroom₁
      rw [hpush, sub32_push (by omega) hlow (by rw [roundUp4_words]; omega), roundUp4_words, hptrs,
        Nat.sub_sub] at hsp
      refine ⟨hmax.trans (by simp), ?_, hsp.symm⟩
      rw [argBytes]
      omega

/-- The arguments are accepted if and only if they fit in the page at the end of the image. -/
theorem pushStack_iff {argv : List (List UInt8)} (hg : Guarded d sz) :
    (∃ sp m', pushStack d argv sz m = .ok (some sp, m')) ↔
      argv.length ≤ MAXARG ∧ argBytes argv ≤ PGSIZE := by
  have hlt := hg.lt
  have htwo := hg.two
  have hmod := hg.align
  have halign : sz % 4 = 0 := by
    simp only [PGSIZE] at hmod
    omega
  have hstrings := stringBytes_mod argv
  constructor
  · rintro ⟨sp, m', h⟩
    exact ⟨(pushStack_some hg h).1, (pushStack_some hg h).2.1⟩
  rintro ⟨hmax, hroom⟩
  have hsum : argBytes argv = stringBytes argv + (3 + argv.length + 1) * 4 := rfl
  obtain ⟨ptrs, m₁, hargs, hptrs⟩ := pushArgs_ok argv [] m hg le_rfl halign
    (by omega) (by simpa using hmax)
  rw [List.length_nil, Nat.zero_add] at hptrs
  have hlow : (sz - stringBytes argv) % 4 = 0 := by omega
  have hlen := ustack_length (sz - stringBytes argv) ptrs
  have hne : ustack (sz - stringBytes argv) ptrs ≠ [] := List.ne_nil_of_length_pos (by omega)
  obtain ⟨m₂, hcopy⟩ := (copyout_push (m := m₁) hg (Nat.sub_le ..) (by omega) hlow hne).mpr (by
    rw [hlen, roundUp4_words, hptrs]
    omega)
  rw [hlen, ← ustack_align ptrs.length hlow] at hcopy
  refine ⟨_, m₂, bind_eq_ok.mpr ⟨_, hargs, bind_eq_ok.mpr ⟨_, hcopy, rfl⟩⟩⟩

end Xv6.Vm
