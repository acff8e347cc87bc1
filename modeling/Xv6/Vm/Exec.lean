import Xv6.Thread.Change
import Xv6.Thread.Fields
import Xv6.Vm.Create
import Xv6.Vm.Image

namespace Xv6.Vm

open Xv6.Thread (Kernel Stop Slot NPROC NOFILE PGSIZE KERNBASE pgRoundUp overLimit)
open Xv6.Lib
open scoped List

/-!
# Memory — `exec` and `exec2`

* `execWith_restored`, `execWith_eq` — a call fails and undoes what it has done, or it gets to the
  line where it saves the name of the program;
* `execCommit_ok` — what it does from there on;
* `exec_restored` — when an `exec` that fails has changed nothing;
* `exec2_stack` — when `exec2` gives the stack that it is asked for.
-/

variable {s s' t : Machine} {c : Slot} {path : List Char} {argv : List (List UInt8)}
  {stackpages sz sp entry ip : Nat} {pgdir p : Page} {d : Dir} {m : Mem}

/-! ### Calls that fail -/

/-- Everything is as before the call of `c`, which has returned -1. -/
structure Restored (s s' : Machine) (c : Slot) : Prop where
  kernel : s'.kernel = s.kernel.ret c (-1)
  dir : s'.dir = s.dir
  kstack : s'.kstack = s.kstack
  tf : s'.tf = s.tf ∧ s'.name = s.name
  inodes : s'.ref = s.ref ∧ s'.ops = s.ops ∧ ∀ ip, s'.locked ip = true → s.locked ip = true
  free : s'.mem.free ~ s.mem.free
  data : ∀ p, p ∉ s.mem.free → s'.mem.data p = s.mem.data p

/-- What a call that is under way has taken from the free list. -/
def Taken (s : Machine) (mem : Mem) (new : Option (Page × Dir)) : Prop :=
  match new with
  | none => mem.free ~ s.mem.free ∧ ∀ p, p ∉ s.mem.free → mem.data p = s.mem.data p
  | some (pgdir, d) => Built s.mem mem pgdir d

/-- The machine without the inode, if it is still locked. -/
def released (t : Machine) : Option Nat → Machine
  | none => t
  | some ip => endOp (iunlockput t ip)

/-- Nothing but the memory has changed, and no lock is held that was not held. -/
def Same (s t : Machine) : Prop :=
  ∃ locked, (∀ ip, locked ip = true → s.locked ip = true) ∧
    t = { s with mem := t.mem, locked := locked }

/-- The machine in a call that has locked the inode `ip`. -/
def locking (s : Machine) (ip : Nat) (mem : Mem) : Machine :=
  { igetLock (beginOp s) ip with mem := mem }

theorem same_release (mem : Mem) (ip : Nat) : Same s (released (locking s ip mem) (some ip)) := by
  refine ⟨Function.update s.locked ip false, fun i hi => ?_, ?_⟩
  · by_cases h : i = ip
    · subst h
      simp at hi
    · rwa [Function.update_of_ne h] at hi
  · simp [released, locking, igetLock, beginOp, iunlockput, endOp]

theorem Same.mem (h : Same s t) (mem : Mem) : Same s { t with mem := mem } := by
  obtain ⟨locked, hlocked, ht⟩ := h
  refine ⟨locked, hlocked, ?_⟩
  rw [ht]

theorem Same.fail (h : Same s t) (hm : Taken s t.mem none) : Restored s (fail t c) c := by
  obtain ⟨locked, hlocked, ht⟩ := h
  rw [ht]
  exact ⟨rfl, rfl, rfl, ⟨rfl, rfl⟩, ⟨rfl, rfl, hlocked⟩, hm.1, hm.2⟩

/-- The label `bad` undoes what has been done. -/
theorem bad_restored {new : Option (Page × Dir)} {o : Option Nat} (ht : Taken s t.mem new)
    (hs : ∀ mem, Same s (released { t with mem := mem } o)) (h : bad t c new o = .ok s') :
    Restored s s' c := by
  have hend : ∀ mem, bad { t with mem := mem } c none o = .ok s' → Taken s mem none →
      Restored s s' c := by
    intro mem h htaken
    cases o with
    | none =>
      cases h
      exact (hs mem).fail htaken
    | some ip =>
      cases h
      exact (hs mem).fail htaken
  cases new with
  | none => exact hend t.mem h ht
  | some new =>
    obtain ⟨mem, hmem, h⟩ := bind_eq_ok.mp h
    exact hend mem h (Built.freevm ht hmem)

/-- The label `bad` while the inode is locked. -/
theorem bad_locked (mem : Mem) (new : Option (Page × Dir)) (ht : Taken s mem new)
    (h : bad (locking s ip mem) c new (some ip) = .ok s') :
    Restored s s' c :=
  bad_restored (t := locking s ip mem) ht (fun mem => same_release mem ip) h

/-- The label `bad` behind `iunlockput`. -/
theorem bad_unlocked (mem : Mem) (new : Option (Page × Dir)) (ht : Taken s mem new)
    (h : bad (released (locking s ip mem) (some ip)) c new none = .ok s') :
    Restored s s' c :=
  bad_restored (t := released (locking s ip mem) (some ip)) ht (fun mem => same_release mem ip) h

/-! ### Calls that do not fail before the limit check -/

/-- `exec` gets to the line where it saves the name of the program. -/
def Accepts (s : Machine) (path : List Char) (argv : List (List UInt8)) (stackpages : Nat) : Prop :=
  ∃ ip pgdir d sz m sp m', s.namei path = some ip ∧ Loads s.mem (s.file ip) stackpages pgdir d sz m ∧
    pushStack d argv sz m = .ok (some sp, m')

/-- A call returns -1 with everything as before, or it gets to that line. -/
theorem execWith_restored (hpages : 2 ≤ stackpages) (h : execWith s c path argv stackpages = .ok s') :
    Restored s s' c ∨ Accepts s path argv stackpages := by
  unfold execWith at h
  dsimp only at h
  split at h
  · cases h
    refine .inl (Same.fail (t := endOp (beginOp s)) ⟨s.locked, fun _ h => h, rfl⟩ ⟨.refl _, fun _ _ => rfl⟩)
  · rename_i ip hip
    unfold execFile at h
    split at h
    · exact .inl (bad_locked s.mem none ⟨.refl _, fun _ _ => rfl⟩ h)
    · rename_i buf hbuf
      split at h
      · exact .inl (bad_locked s.mem none ⟨.refl _, fun _ _ => rfl⟩ h)
      · rename_i hmagic
        rw [ne_eq, not_not] at hmagic
        obtain ⟨⟨new, m₀⟩, hsetup, h⟩ := bind_eq_ok.mp h
        have hnew := setupkvm_spec hsetup
        dsimp only at h
        cases new with
        | none => exact .inl (bad_locked m₀ none hnew h)
        | some new =>
          obtain ⟨pgdir, d₀⟩ := new
          obtain ⟨⟨x, m₁, d₁⟩, hload, h⟩ := bind_eq_ok.mp h
          dsimp only at h
          obtain ⟨hcons, hend⟩ := loadSegments_spec (by decide)
            (fun b hb => absurd hb (by simp [pagesUp, PGSIZE])) hload
          have hbuilt₁ := hnew.1.conserves hcons
          cases x with
          | none => exact .inl (bad_locked m₁ (some (pgdir, d₁)) hbuilt₁ h)
          | some sz₁ =>
            unfold execStack at h
            obtain ⟨⟨sz, m₂, d₂⟩, halloc, h⟩ := bind_eq_ok.mp h
            obtain ⟨hcons₁, -⟩ := allocuvm_spec halloc
            have hbuilt₂ := hbuilt₁.conserves hcons₁
            dsimp only at h
            split at h
            · exact .inl (bad_unlocked m₂ (some (pgdir, d₂)) hbuilt₂ h)
            · rename_i hne
              obtain ⟨d₃, hclear, h⟩ := bind_eq_ok.mp h
              have hloads : Loads s.mem (s.file ip) stackpages pgdir d₃ sz m₂ :=
                ⟨buf, hbuf, hmagic, d₀, m₀, hsetup, sz₁, m₁, d₁, hload, d₂, halloc, hne, hclear⟩
              obtain ⟨⟨x, m₃⟩, hpush, h⟩ := bind_eq_ok.mp h
              have hbuilt₃ := (hloads.guarded hpages).1.conserves (pushStack_conserves hpush)
              cases x with
              | none => exact .inl (bad_unlocked m₃ (some (pgdir, d₃)) hbuilt₃ h)
              | some sp => exact .inr ⟨ip, pgdir, d₃, sz, m₂, sp, m₃, hip, hloads, hpush⟩

/-- A call that gets there goes on with the image, at the entry point of the program. -/
theorem execWith_entry {m' : Mem} (hip : s.namei path = some ip)
    (hloads : Loads s.mem (s.file ip) stackpages pgdir d sz m)
    (hpush : pushStack d argv sz m = .ok (some sp, m')) :
    ∃ buf, readStruct (s.file ip) 0 ELFHDR = some buf ∧
      execWith s c path argv stackpages = execCommit
        (released (locking s ip m') (some ip)) c path pgdir d sz sp (elfHdr buf).entry := by
  obtain ⟨buf, hbuf, hmagic, d₀, m₀, hsetup, sz₁, m₁, d₁, hload, d₂, halloc, hne, hclear⟩ := hloads
  refine ⟨buf, hbuf, ?_⟩
  have hip' : (beginOp s).namei path = some ip := hip
  have hbuf' : readStruct ((igetLock (beginOp s) ip).file ip) 0 ELFHDR = some buf := hbuf
  unfold execWith
  dsimp only
  rw [hip']
  show execFile (igetLock (beginOp s) ip) c path argv stackpages ip = _
  unfold execFile
  rw [hbuf']
  dsimp only
  rw [if_neg (not_not.mpr hmagic)]
  refine (bind_of_ok hsetup _).trans ((bind_of_ok hload _).trans ?_)
  refine (bind_of_ok halloc _).trans ?_
  dsimp only
  rw [if_neg hne]
  exact (bind_of_ok hclear _).trans (bind_of_ok hpush _)

/-- A call that gets there goes on with the image. -/
theorem execWith_eq {m' : Mem} (hip : s.namei path = some ip)
    (hloads : Loads s.mem (s.file ip) stackpages pgdir d sz m)
    (hpush : pushStack d argv sz m = .ok (some sp, m')) :
    ∃ entry, execWith s c path argv stackpages = execCommit
      (released (locking s ip m') (some ip)) c path pgdir d sz sp entry := by
  obtain ⟨buf, -, heq⟩ := execWith_entry hip hloads hpush
  exact ⟨_, heq⟩

/-! ### From the commit on -/

section Commit

variable {k k' : Kernel} {old : Option Page}

/-- The loops that close files leave the image of `c` as it is. -/
theorem closeAll_image {n : Nat} (h : closeAll n k c = .ok k') :
    k'.kept = k.kept ∧ k'.view = k.view := by
  induction n generalizing k with
  | zero => cases h
  | succ n ih =>
    unfold closeAll at h
    split at h
    · cases h
      exact ⟨rfl, rfl⟩
    · obtain ⟨k₁, hk₁, h⟩ := bind_eq_ok.mp h
      obtain ⟨hkept, hview⟩ := ih h
      exact ⟨hkept.trans (Thread.kept_closeFiles hk₁), hview.trans (Thread.view_closeFiles hk₁)⟩

theorem pgdir_freeThreads {cond : Kernel → Slot → Bool} {n : Nat} {o : Option Slot}
    (h : Thread.freeThreads cond n k o = .ok k') (i : Slot) : (k'.proc i).pgdir = (k.proc i).pgdir := by
  induction n generalizing k o with
  | zero =>
    cases o with
    | none => cases h; rfl
    | some p => cases h
  | succ n ih =>
    cases o with
    | none => cases h; rfl
    | some p =>
      rw [Thread.freeThreads] at h
      rw [ih h]
      split
      · by_cases hi : i = p
        · subst hi
          simp [Thread.freeThread, Kernel.setProc, Kernel.setCall, Kernel.setWalk]
        · simp [Thread.freeThread, Kernel.setProc, Kernel.setCall, Kernel.setWalk, hi]
      · rfl

/-- At its end, `exec` returns 0, and the image of `c` is as it was. -/
theorem execFinish_image (h : Thread.execFinish k c old = .ok k') :
    (k'.proc c).eax = 0 ∧ (k'.proc c).pgdir = (k.proc c).pgdir ∧ (k'.proc c).sz = (k.proc c).sz := by
  have hkept := congrFun (Thread.kept_execFinish h) c
  rw [Function.update_self] at hkept
  obtain ⟨k₂, hk₂, h⟩ := bind_eq_ok.mp h
  obtain ⟨k₁, hk₁, hk₂⟩ := bind_eq_ok.mp hk₂
  cases hk₂
  obtain ⟨d, -, rfl⟩ := Thread.freevm_ok h
  refine ⟨?_, ?_, congrArg Thread.Kept.sz hkept⟩
  · simp [Kernel.ret, Kernel.setProc, Kernel.setCall, Kernel.setWalk]
  · rw [← pgdir_freeThreads hk₁ c]
    simp [Kernel.ret, Kernel.setProc, Kernel.setCall, Kernel.setWalk]

theorem execEnd_ok (h : execEnd t c old = .ok s') :
    ((s'.kernel.proc c).eax = 0 ∧ (s'.kernel.proc c).pgdir = (t.kernel.proc c).pgdir ∧
      (s'.kernel.proc c).sz = (t.kernel.proc c).sz) ∧ s'.tf = t.tf ∧
    ∃ p, old = some p ∧ s'.dir = Function.update t.dir p none := by
  unfold execEnd at h
  obtain ⟨k₁, hk₁, h⟩ := bind_eq_ok.mp h
  obtain ⟨hkept, hview⟩ := closeAll_image hk₁
  split at h
  · cases h
  · obtain ⟨mem, -, h⟩ := bind_eq_ok.mp h
    obtain ⟨k₂, hk₂, h⟩ := bind_eq_ok.mp h
    obtain ⟨⟨p, d⟩, hd, h⟩ := bind_eq_ok.mp h
    obtain ⟨mem₂, -, h⟩ := bind_eq_ok.mp h
    cases h
    obtain ⟨heax, hpgdir, hsz⟩ := execFinish_image hk₂
    refine ⟨⟨heax, hpgdir.trans (congrArg Thread.View.pgdir (congrFun hview c)),
      hsz.trans (congrArg Thread.Kept.sz (congrFun hkept c))⟩, rfl, p, ?_, rfl⟩
    unfold Machine.getDir at hd
    split at hd
    · cases hd
    · split at hd
      · cases hd
      · cases hd
        rfl

end Commit

/-- What `exec` does from the line on where it saves the name of the program: with the limit
    exceeded it returns -1, and else 0. -/
theorem execCommit_ok (h : execCommit t c path pgdir d sz sp entry = .ok s') :
    ∃ m, (t.kernel.proc c).mainThread = some m ∧
      (overLimit t.kernel m sz ∧ (s'.kernel.proc c).eax = -1 ∧ s'.mem = t.mem ∨
        ¬ overLimit t.kernel m sz ∧ ((s'.kernel.proc c).eax = 0 ∧
          (s'.kernel.proc c).pgdir = some pgdir ∧ (s'.kernel.proc c).sz = sz) ∧
          s'.tf c = ⟨entry, sp⟩ ∧
          ∃ p, (t.kernel.proc c).pgdir = some p ∧
            s'.dir = Function.update (Function.update t.dir pgdir (some d)) p none) := by
  unfold execCommit at h
  obtain ⟨k, hk, h⟩ := bind_eq_ok.mp h
  unfold Thread.execCommit at hk
  split at hk
  · cases hk
  obtain ⟨k₁, hk₁, hk⟩ := bind_eq_ok.mp hk
  obtain ⟨-, rfl⟩ := Thread.newDir_ok hk₁
  obtain ⟨m, hm, hk⟩ := bind_eq_ok.mp hk
  have hm := Thread.deref_ok hm
  rw [Thread.setProc_self] at hm
  refine ⟨m, hm, ?_⟩
  -- The commit leaves the limit as it is.
  generalize hk₂ : Kernel.setProc { t.kernel with dirs := pgdir :: t.kernel.dirs } c
    (fun q => { q with pgdir := some pgdir, sz := sz }) = k₂ at hk
  have hlimit : (k₂.proc m).memoryLimit = (t.kernel.proc m).memoryLimit := by
    rw [← hk₂]
    by_cases hmc : m = c
    · subst hmc
      rw [Thread.setProc_self]
    · rw [Thread.setProc_other hmc]
  have hover : overLimit k₂ m sz ↔ overLimit t.kernel m sz := by
    rw [overLimit, overLimit, hlimit]
  have hproc : (k₂.proc c).pgdir = some pgdir ∧ (k₂.proc c).sz = sz := by
    rw [← hk₂, Thread.setProc_self]
    exact ⟨rfl, rfl⟩
  split at hk
  · rename_i hlim
    cases hk
    have hcall : (k₂.ret c (-1)).call c = .user := by
      simp [Kernel.ret, Kernel.setCall]
    dsimp only at h
    rw [hcall] at h
    cases h
    refine .inl ⟨hover.mp hlim, ?_, rfl⟩
    simp [Kernel.ret, Kernel.setProc, Kernel.setCall]
  · rename_i hlim
    cases hk
    have hcall : ((k₂.setCall c (.exec (t.kernel.proc c).pgdir)).setWalk c (.at m)).call c =
        .exec (t.kernel.proc c).pgdir := by
      simp [Kernel.setWalk, Kernel.setCall]
    dsimp only at h
    rw [hcall] at h
    obtain ⟨⟨heax, hpgdir, hsz⟩, htf, p, hp, hdir⟩ := execEnd_ok h
    refine .inr ⟨fun hlim' => hlim (hover.mpr hlim'), ⟨heax, hpgdir.trans hproc.1, hsz.trans hproc.2⟩,
      ?_, p, hp, hdir⟩
    rw [htf]
    exact Function.update_self ..

/-! ### Failed calls -/

/-- The image of the program is built and the arguments fit in a page, but the memory limit of the
    process is below the size of the image. -/
def LimitStops (s : Machine) (c : Slot) (path : List Char) (argv : List (List UInt8))
    (stackpages : Nat) : Prop :=
  argv.length ≤ MAXARG ∧ argBytes argv ≤ PGSIZE ∧
  ∃ ip m, s.namei path = some ip ∧ (s.kernel.proc c).mainThread = some m ∧
    overLimit s.kernel m (imageSize (s.file ip) stackpages) ∧
    ∃ pgdir d sz mem, Loads s.mem (s.file ip) stackpages pgdir d sz mem

/-- A machine that has taken a page has not restored its free list. -/
theorem not_restored (hb : Built s.mem s'.mem pgdir d) : ¬ Restored s s' c := by
  intro hr
  have hlen := hb.pages.length_eq
  have hfree := hr.free.length_eq
  rw [List.length_append, List.length_cons] at hlen
  omega

/-- A failed call with some stack pages has changed nothing if and only if it has not failed at the
    limit check. -/
theorem execWith_unchanged (hpages : 2 ≤ stackpages)
    (h : execWith s c path argv stackpages = .ok s') (hfail : (s'.kernel.proc c).eax = -1) :
    Restored s s' c ↔ ¬ LimitStops s c path argv stackpages := by
  constructor
  · rintro hr ⟨hmax, hroom, ip, m, hip, hm, hover, pgdir, d, sz, mem, hloads⟩
    obtain ⟨hbuilt, hsz, hg⟩ := hloads.guarded hpages
    obtain ⟨sp, mem', hpush⟩ := (pushStack_iff (m := mem) hg).mpr ⟨hmax, hroom⟩
    obtain ⟨entry, heq⟩ := execWith_eq (c := c) hip hloads hpush
    rw [heq] at h
    obtain ⟨m', hm', ⟨-, -, hmem⟩ | ⟨hlim, -⟩⟩ := execCommit_ok h
    · have hend := hbuilt.conserves (pushStack_conserves hpush)
      exact not_restored (by rw [hmem]; exact hend) hr
    · obtain rfl := Option.some.inj (hm'.symm.trans hm)
      exact hlim (hsz ▸ hover)
  · intro hstop
    refine (execWith_restored hpages h).resolve_right ?_
    rintro ⟨ip, pgdir, d, sz, mem, sp, mem', hip, hloads, hpush⟩
    obtain ⟨hbuilt, hsz, hg⟩ := hloads.guarded hpages
    obtain ⟨hmax, hroom, -⟩ := pushStack_some hg hpush
    obtain ⟨entry, heq⟩ := execWith_eq (c := c) hip hloads hpush
    rw [heq] at h
    obtain ⟨m, hm, ⟨hover, -⟩ | ⟨-, ⟨heax, -⟩, -⟩⟩ := execCommit_ok h
    · exact hstop ⟨hmax, hroom, ip, m, hip, hm, hsz ▸ hover, pgdir, d, sz, mem, hloads⟩
    · rw [heax] at hfail
      exact absurd hfail (by decide)

/-- An `exec`, or an `exec2` with its number of stack pages, that fails has changed nothing if and
    only if it has not failed at the limit check. -/
theorem exec_restored {stacksize : Int}
    (h : exec s c path argv = .ok s' ∧ stacksize = 1 ∨ exec2 s c path argv stacksize = .ok s')
    (hfail : (s'.kernel.proc c).eax = -1) :
    Restored s s' c ↔ ¬ (1 ≤ stacksize ∧ stacksize ≤ 100 ∧
      LimitStops s c path argv (stacksize.toNat + 1)) := by
  have hexec2 : exec2 s c path argv stacksize = .ok s' := by
    rcases h with ⟨h, rfl⟩ | h
    · exact h
    · exact h
  unfold exec2 at hexec2
  split at hexec2
  · rename_i hsize
    cases hexec2
    refine iff_of_true ?_ (by omega)
    exact Same.fail ⟨s.locked, fun _ h => h, rfl⟩ ⟨.refl _, fun _ _ => rfl⟩
  · rename_i hsize
    rw [execWith_unchanged (by omega) hexec2 hfail]
    refine not_congr ⟨fun hstop => ⟨by omega, by omega, hstop⟩, fun hstop => hstop.2.2⟩

/-- A program without segments. -/
def emptyElf : List UInt8 :=
  word ELF_MAGIC ++ List.replicate 20 0 ++ word 0 ++ word 52 ++ List.replicate 20 0

/-- A machine whose only file is that program. -/
def oneFile (k : Kernel) (free : List Page) : Machine :=
  { onePage k free with
    namei := fun path => if path = ['a'] then some 5 else none
    file := fun ip => if ip = 5 then emptyElf else [] }

/-- There is no such file. -/
theorem exec_restored_noFile : ∃ s s' : Machine, exec s 0 [] [] = .ok s' ∧ Restored s s' 0 := by
  obtain ⟨k₀, h₀⟩ : ∃ k, Thread.userinit Thread.boot 7 = .ok k := ⟨_, rfl⟩
  obtain ⟨s', hs', heax⟩ : ∃ s', exec (oneFile k₀ []) 0 [] [] = .ok s' ∧
      (s'.kernel.proc 0).eax = -1 :=
    ⟨_, rfl, by simp [fail, Kernel.ret, Kernel.setProc, Kernel.setCall]⟩
  refine ⟨_, s', hs', (exec_restored (.inl ⟨hs', rfl⟩) heax).mpr ?_⟩
  rintro ⟨-, -, -, -, ip, m, hip, -⟩
  cases hip

/-- A process with a memory limit of 5000 bytes executes a program whose image has 8192 bytes: the
    call returns -1, but the process has got the new directory, the new size and the new name, and
    the pages are not given back. -/
theorem exec_limit : ∃ s s' : Machine,
    Reachable Thread.Init (Steps Thread.step fun _ _ => True) s.kernel ∧ s.kernel.cpuProc = some 0 ∧
    exec s 0 ['a'] [] = .ok s' ∧ (s'.kernel.proc 0).eax = -1 ∧ ¬ Restored s s' 0 ∧
    (s.kernel.proc 0).pgdir = some 7 ∧ (s'.kernel.proc 0).pgdir = some 200 ∧
    (s.kernel.proc 0).sz = 4096 ∧ (s'.kernel.proc 0).sz = 8192 ∧
    s'.name 0 = ['a'] ∧ s'.mem.free.length + 68 = s.mem.free.length := by
  obtain ⟨k₀, h₀⟩ : ∃ k, Thread.userinit Thread.boot 7 = .ok k := ⟨_, rfl⟩
  obtain ⟨k, hk, hp⟩ := exec_of_execTest Thread.step k₀ [.schedule, .setmemorylimit 1 5000] (fun k =>
    decide (k.cpuProc = some 0 ∧ (k.proc 0).pgdir = some 7 ∧ (k.proc 0).sz = 4096) &&
    match exec (oneFile k (List.range' 200 100)) 0 ['a'] [] with
    | .ok s' => decide ((s'.kernel.proc 0).eax = -1 ∧ (s'.kernel.proc 0).pgdir = some 200 ∧
        (s'.kernel.proc 0).sz = 8192 ∧ s'.name 0 = ['a'] ∧ s'.mem.free.length + 68 = 100)
    | .error _ => false)
    (by cases h₀; decide +kernel)
  rw [Bool.and_eq_true, decide_eq_true_eq] at hp
  obtain ⟨⟨hcpu, hdir, hsz⟩, hp⟩ := hp
  split at hp
  · rename_i s' hs'
    obtain ⟨heax, hdir', hsz', hname, hfree⟩ := of_decide_eq_true hp
    refine ⟨_, s', reachable_exec (.start ⟨7, h₀⟩) (fun _ _ _ => trivial) hk, hcpu, hs', heax,
      fun hr => ?_, hdir, hdir', hsz, hsz', hname, ?_⟩
    · have hlen := hr.free.length_eq
      have hlen₀ : (oneFile k (List.range' 200 100)).mem.free.length = 100 := List.length_range'
      omega
    · rw [hfree]
      exact List.length_range'.symm
  · cases hp

/-! ### The stack of `exec2` -/

/-- The stack that `exec2` should make: the pages of the stack and of the program are for the user,
    the page between them is not, and the stack pointer is in the stack. -/
structure Stacked (s : Machine) (c : Slot) (stacksize : Nat) : Prop where
  dir : ∃ pgdir d, (s.kernel.proc c).pgdir = some pgdir ∧ s.dir pgdir = some d ∧
    stacksize + 1 ≤ (s.kernel.proc c).sz / PGSIZE ∧
    (∀ b, b < (s.kernel.proc c).sz / PGSIZE → b ≠ (s.kernel.proc c).sz / PGSIZE - (stacksize + 1) →
      ∃ p, d.entry b = some ⟨p, true⟩) ∧
    ∃ p, d.entry ((s.kernel.proc c).sz / PGSIZE - (stacksize + 1)) = some ⟨p, false⟩
  align : (s.kernel.proc c).sz % PGSIZE = 0
  low : (s.kernel.proc c).sz - stacksize * PGSIZE ≤ (s.tf c).esp
  high : (s.tf c).esp < (s.kernel.proc c).sz

/-- The program at a path can be loaded, with some stack pages. -/
def Loadable (s : Machine) (path : List Char) (stackpages : Nat) : Prop :=
  ∃ ip pgdir d sz m, s.namei path = some ip ∧ Loads s.mem (s.file ip) stackpages pgdir d sz m

/-- The arguments for a program that can be loaded are accepted if and only if they fit in one
    page, whatever the number of stack pages is. -/
theorem accepts_iff (hpages : 2 ≤ stackpages) (hl : Loadable s path stackpages) :
    Accepts s path argv stackpages ↔ argv.length ≤ MAXARG ∧ argBytes argv ≤ PGSIZE := by
  constructor
  · rintro ⟨ip, pgdir, d, sz, m, sp, m', -, hloads, hpush⟩
    have hsome := pushStack_some (hloads.guarded hpages).2.2 hpush
    exact ⟨hsome.1, hsome.2.1⟩
  · intro hfit
    obtain ⟨ip, pgdir, d, sz, m, hip, hloads⟩ := hl
    obtain ⟨sp, m', hpush⟩ := (pushStack_iff (m := m) (hloads.guarded hpages).2.2).mpr hfit
    exact ⟨ip, pgdir, d, sz, m, sp, m', hip, hloads, hpush⟩

/-- A call that returns 0 has given the process an image whose guard page is two pages below its
    end. -/
theorem execWith_guarded (hpages : 2 ≤ stackpages)
    (hold : ∀ p, (s.kernel.proc c).pgdir = some p → p ∉ s.mem.free)
    (h : execWith s c path argv stackpages = .ok s') (hret : (s'.kernel.proc c).eax = 0) :
    ∃ pgdir d, (s'.kernel.proc c).pgdir = some pgdir ∧ s'.dir pgdir = some d ∧
      Guarded d (s'.kernel.proc c).sz ∧ stackpages * PGSIZE ≤ (s'.kernel.proc c).sz ∧
      (s'.kernel.proc c).sz - PGSIZE ≤ (s'.tf c).esp ∧ (s'.tf c).esp < (s'.kernel.proc c).sz := by
  rcases execWith_restored hpages h with hr | ⟨ip, pgdir, d, sz, m, sp, m', hip, hloads, hpush⟩
  · rw [hr.kernel] at hret
    simp [Kernel.ret, Kernel.setProc, Kernel.setCall] at hret
  · obtain ⟨hbuilt, hsize, hg⟩ := hloads.guarded hpages
    obtain ⟨entry, heq⟩ := execWith_eq (c := c) hip hloads hpush
    rw [heq] at h
    obtain ⟨m₁, -, ⟨-, heax, -⟩ | ⟨-, ⟨-, hpgdir, hsz⟩, htf, p, hp, hdir⟩⟩ := execCommit_ok h
    · rw [heax] at hret
      exact absurd hret (by decide)
    · have hne : pgdir ≠ p := by
        rintro rfl
        exact hold pgdir hp (hbuilt.pages.mem_iff.mp (by simp))
      obtain ⟨-, hroom, hsp⟩ := pushStack_some hg hpush
      have htwo := hg.two
      have hpos : 0 < argBytes argv := by
        rw [argBytes]
        omega
      refine ⟨pgdir, d, hpgdir, ?_, ?_, ?_, ?_⟩
      · rw [hdir, Function.update_of_ne hne, Function.update_self]
      · rwa [hsz]
      · obtain ⟨buf, hbuf, -⟩ := hloads
        rw [hsz, hsize]
        simp only [imageSize, hbuf]
        omega
      · rw [htf, hsz]
        dsimp only
        omega

/-- `exec2` makes the stack that it is asked for if and only if it is asked for one page; then it
    accepts all arguments that fit in the stack, and else only those that fit in one page. -/
theorem exec2_stack {stacksize : Int} (hlo : 1 ≤ stacksize) (hhi : stacksize ≤ 100)
    (hold : ∀ p, (s.kernel.proc c).pgdir = some p → p ∉ s.mem.free) :
    (∀ s', exec2 s c path argv stacksize = .ok s' → (s'.kernel.proc c).eax = 0 →
      (Stacked s' c stacksize.toNat ↔ stacksize = 1)) ∧
    (Loadable s path (stacksize.toNat + 1) → argv.length ≤ MAXARG →
      argBytes argv ≤ stacksize.toNat * PGSIZE →
      (Accepts s path argv (stacksize.toNat + 1) ↔ stacksize = 1 ∨ argBytes argv ≤ PGSIZE)) := by
  refine ⟨fun s' h hret => ?_, fun hl hmax hfit => ?_⟩
  · have hrun : execWith s c path argv (stacksize.toNat + 1) = .ok s' := by
      rwa [exec2, if_neg (by omega)] at h
    obtain ⟨pgdir, d, hpgdir, hd, hg, hsize, hlow, hhigh⟩ := execWith_guarded (by omega) hold hrun hret
    have htwo := hg.two
    constructor
    · rintro ⟨⟨pgdir', d', hpgdir', hd', hsz', huser, -⟩, -⟩
      obtain rfl := Option.some.inj (hpgdir.symm.trans hpgdir')
      obtain rfl := Option.some.inj (hd.symm.trans hd')
      -- In a larger stack, the guard page is one of the pages of the stack.
      by_contra hne
      obtain ⟨p, hp⟩ := huser ((s'.kernel.proc c).sz / PGSIZE - 2) (by omega) (by omega)
      obtain ⟨q, hq⟩ := hg.entry ((s'.kernel.proc c).sz / PGSIZE - 2) (by omega)
      rw [hp, Nat.sub_add_cancel (by omega)] at hq
      simp at hq
    · rintro rfl
      have htop : 2 ≤ (s'.kernel.proc c).sz / PGSIZE := by
        simp only [PGSIZE] at htwo ⊢
        omega
      refine ⟨⟨pgdir, d, hpgdir, hd, htop, fun b hb hne => ?_, ?_⟩, hg.align, ?_, hhigh⟩
      · obtain ⟨p, hp⟩ := hg.entry b hb
        have hother : b + 2 ≠ (s'.kernel.proc c).sz / PGSIZE := by
          simp only [Int.toNat_one] at hne
          omega
        exact ⟨p, by simpa [hother] using hp⟩
      · obtain ⟨p, hp⟩ := hg.entry ((s'.kernel.proc c).sz / PGSIZE - 2) (by omega)
        rw [Nat.sub_add_cancel htop] at hp
        exact ⟨p, by simpa using hp⟩
      · rw [Int.toNat_one, Nat.one_mul]
        exact hlow
  · rw [accepts_iff (by omega) hl]
    constructor
    · exact fun h => .inr h.2
    · rintro (rfl | h)
      · exact ⟨hmax, hfit⟩
      · exact ⟨hmax, h⟩

/-- The first process executes the program with a stack of one page. -/
theorem exec2_stack_first : ∃ s s' : Machine, exec2 s 0 ['a'] [] 1 = .ok s' ∧ Stacked s' 0 1 := by
  obtain ⟨k₀, h₀⟩ : ∃ k, Thread.userinit Thread.boot 7 = .ok k := ⟨_, rfl⟩
  have hrun : (match exec2 (oneFile k₀ (List.range' 200 100)) 0 ['a'] [] 1 with
      | .ok s' => decide ((s'.kernel.proc 0).eax = 0)
      | .error _ => false) = true := by cases h₀; decide +kernel
  have hdir : (k₀.proc 0).pgdir = some 7 := by cases h₀; decide +kernel
  split at hrun
  · rename_i s' hs'
    refine ⟨_, s', hs', ((exec2_stack (by decide) (by decide) fun p hp => ?_).1 s' hs'
      (of_decide_eq_true hrun)).mpr rfl⟩
    cases hdir.symm.trans hp
    show 7 ∉ List.range' 200 100
    decide +kernel
  · cases hrun

/-- `exec2` with two stack pages takes the lower one from the user instead of the page below it, and
    does not accept an argument of 5000 bytes, which fits in two pages. -/
theorem exec2_two : ∃ s s₁ s₂ : Machine, ∃ d,
    Reachable Thread.Init (Steps Thread.step fun _ _ => True) s.kernel ∧ s.kernel.cpuProc = some 0 ∧
    (exec2 s 0 ['a'] [] 2 = .ok s₁ ∧ (s₁.kernel.proc 0).eax = 0 ∧ (s₁.kernel.proc 0).sz = 12288 ∧
      (s₁.kernel.proc 0).pgdir.bind s₁.dir = some d ∧
      (d.entry 0).map Pte.user = some true ∧ (d.entry 1).map Pte.user = some false) ∧
    exec2 s 0 ['a'] [List.replicate 5000 1] 2 = .ok s₂ ∧ (s₂.kernel.proc 0).eax = -1 ∧
    argBytes [List.replicate 5000 1] ≤ 2 * PGSIZE := by
  obtain ⟨k₀, h₀⟩ : ∃ k, Thread.userinit Thread.boot 7 = .ok k := ⟨_, rfl⟩
  obtain ⟨k, hk, hp⟩ := exec_of_execTest Thread.step k₀ [.schedule] (fun k =>
    decide (k.cpuProc = some 0) &&
    (match exec2 (oneFile k (List.range' 200 100)) 0 ['a'] [] 2 with
    | .ok s₁ =>
      match (s₁.kernel.proc 0).pgdir.bind s₁.dir with
      | some d => decide ((s₁.kernel.proc 0).eax = 0 ∧ (s₁.kernel.proc 0).sz = 12288 ∧
          (d.entry 0).map Pte.user = some true ∧ (d.entry 1).map Pte.user = some false)
      | none => false
    | .error _ => false) &&
    match exec2 (oneFile k (List.range' 200 100)) 0 ['a'] [List.replicate 5000 1] 2 with
    | .ok s₂ => decide ((s₂.kernel.proc 0).eax = -1)
    | .error _ => false)
    (by cases h₀; decide +kernel)
  rw [Bool.and_eq_true, Bool.and_eq_true, decide_eq_true_eq] at hp
  obtain ⟨⟨hcpu, hsmall⟩, hlong⟩ := hp
  split at hsmall
  · rename_i s₁ hs₁
    split at hsmall
    · rename_i d hd
      obtain ⟨heax, hsz, hzero, hone⟩ := of_decide_eq_true hsmall
      split at hlong
      · rename_i s₂ hs₂
        exact ⟨_, s₁, s₂, d, reachable_exec (.start ⟨7, h₀⟩) (fun _ _ _ => trivial) hk, hcpu,
          ⟨hs₁, heax, hsz, hd, hzero, hone⟩, hs₂, of_decide_eq_true hlong, by decide +kernel⟩
      · cases hlong
    · cases hsmall
  · cases hsmall

end Xv6.Vm
