import Xv6.File.Lookup
import Xv6.File.Syscall
import Xv6.File.Target

namespace Xv6.File

open Xv6.Lib
open Xv6.Fs (Block BSIZE Stop)

/-!
# Files — `sys_symlink` stores the path of the target

`sys_symlink` is `create`, and then a copy of the path into the zeroed `addrs` of the new inode.

* `symlinkCreate` / `symlinkCopy` — the two parts;
* `wp_create_link` — in a sound file system the new inode is a link with zeroes in `addrs`;
* `symlink_stores` — the path is read back if and only if it is shorter than `addrs`.
-/

variable {S : Nat → Prop} {data data' : Nat → Block} {t t' : Mem} {ip dp : Ip} {q : Inode}
  {target link : List UInt8}

/-- `sys_symlink` up to the copy of the path. -/
def symlinkCreate (target link : List UInt8) : FsM (Option Ip) := do
  match ← namei target with
  | none => pure none
  | some ip => do
    ilock ip
    let q ← inodeOf ip
    if q.type = T_DIR then do
      iunlockput ip
      pure none
    else do
      iupdate ip
      iunlock ip
      create link T_SYMLINK 0 0

/-- The end of `sys_symlink`: the copy of the path into the new inode. -/
def symlinkCopy (target : List UInt8) : Option Ip → FsM Int
  | none => pure (-1)
  | some dp =>
    if ADDRSIZE < target.length then .stop .overrun
    else do
      setInode dp fun q =>
        { q with addrs := q.addrs.splice 0 target.length fun i => target.getD i 0 }
      iupdate dp
      iunlock dp
      pure 0

theorem sysSymlink_eq (target link : List UInt8) :
    sysSymlink target link = symlinkCreate target link >>= symlinkCopy target := by
  rw [sysSymlink, symlinkCreate, Prog.bind_assoc]
  congr 1
  funext r
  cases r with
  | none => rfl
  | some ip =>
    dsimp only
    rw [Prog.bind_assoc]
    congr 1
    funext u
    rw [Prog.bind_assoc]
    congr 1
    funext q
    rw [Prog.ite_bind]
    congr 1
    · rw [Prog.bind_assoc]
      rfl
    · rw [Prog.bind_assoc]
      congr 1
      funext u
      rw [Prog.bind_assoc]
      congr 1

/-! ### Writing an inode back -/

/-- The content of a file that is behind the bit map. -/
theorem follow_data {p : Nat} {is : List Nat} (h : Leads (DataBlock S t.sb) data p is)
    (hdata : ∀ b, t.sb.dataStart ≤ b → data' b = data b) :
    Leads (DataBlock S t.sb) data' p is ∧
      follow (entries data') p is = follow (entries data) p is := by
  induction is generalizing p with
  | nil => exact ⟨h, rfl⟩
  | cons i is ih =>
    obtain ⟨hne, hp, hrest⟩ := h
    have hentry : entries data' p i = entries data p i := by
      rw [entries, entries, hdata p hp.2]
    obtain ⟨hleads, hfollow⟩ := ih hrest
    rw [follow_cons hne, follow_cons hne, hentry]
    exact ⟨⟨hne, hp, hentry.symm ▸ hleads⟩, hfollow⟩

theorem fileBytes_data {off n : Nat} (h : Readable (DataBlock S t.sb) data q)
    (hsize : off + n ≤ q.size) (hdata : ∀ b, t.sb.dataStart ≤ b → data' b = data b) :
    fileBytes data' q off n = fileBytes data q off n := by
  refine List.map_congr_left fun i hi => ?_
  rw [List.mem_range] at hi
  obtain ⟨hleads, -⟩ := h.at (show off + i < q.size by omega)
  rw [fileByte, fileByte, blockOf, blockOf, (follow_data hleads hdata).2, hdata _ hleads.last.2]

/-- A write that changes no inode and nothing behind the bit map. -/
theorem Sound.congr (h : Sound S t data) (hstored : stored t.sb data' = stored t.sb data)
    (hdata : ∀ b, t.sb.dataStart ≤ b → data' b = data b) : Sound S t data' := by
  have hreached : ∀ {x}, Reached t data x → Reached t data' x := fun hx =>
    ⟨hx.lt, by rw [hstored]; exact hx.kept⟩
  refine ⟨h.layout, h.counted, h.range, by rw [hstored]; exact h.read, fun x hx hdir => ?_,
    hreached h.root⟩
  rw [hstored] at hdir
  obtain ⟨hread, hnamed⟩ := h.dir x hx hdir
  have hsame : (diskInode t.sb data' x).dinode = (diskInode t.sb data x).dinode := congrFun hstored x
  have hread' : Readable (DataBlock S t.sb) data' (diskInode t.sb data x) :=
    ⟨hread.size, fun bn hbn => (follow_data (hread.leads bn hbn) hdata).1⟩
  refine ⟨readable_congr hread' hsame, fun k hk => ?_⟩
  rw [show (diskInode t.sb data' x).size = _ from congrArg Dinode.size hsame] at hk
  rw [fileBytes_congr hsame, fileBytes_data hread hk hdata]
  exact fun hne => hreached (hnamed k hk hne)

/-! ### Creating the link -/

/-- An entry that has been read is not for a free inode. -/
theorem Got.unread {inum : Nat} (h : Got t inum ip t') (hs : Sound S t data)
    (hfree : (stored t.sb data (t'.inode ip).inum).type = 0) : (t'.inode ip).valid = false := by
  cases h with
  | hit hpos hinum =>
    rw [setEntry_self] at hfree ⊢
    by_contra hvalid
    obtain ⟨hdinode, htype⟩ := hs.read ip hpos (Bool.not_eq_false _ ▸ hvalid)
    exact htype ((congrArg Dinode.type hdinode).trans hfree)
  | miss => rw [setEntry_self]

theorem Got.ne_valid {inum : Nat} (h : Got t inum ip t') (hunread : (t'.inode ip).valid = false)
    (href : 0 < (t.inode dp).ref) (hvalid : (t.inode dp).valid = true) : ip ≠ dp := by
  rintro rfl
  cases h with
  | hit =>
    rw [setEntry_self] at hunread
    exact Bool.false_ne_true (hunread.symm.trans hvalid)
  | miss _ hzero => omega

section Create

variable [DecidablePred S]

/-- `iupdate` of an inode that agrees with the disk. -/
theorem wp_iupdate_same (hs : Sound S t data) (href : 0 < (t.inode ip).ref)
    (hvalid : (t.inode ip).valid = true) :
    wp ((iupdate ip).run (array S)) (fun _ s => ∃ data', s = (t, ⟨data', []⟩) ∧ Sound S t data')
      (fun _ _ => True) (t, ⟨data, []⟩) := by
  have hlt := hs.range ip href
  obtain ⟨hdinode, -⟩ := hs.read ip href hvalid
  refine wp_mono (wp_iupdate hs.layout hlt (hdinode ▸ stored_inRange _ _ _)) ?_ fun _ _ he => he
  rintro _ _ ⟨data', rfl, hstored, hblocks⟩
  refine ⟨data', rfl, hs.congr ?_ fun b hb => hblocks b ?_⟩
  · rw [hstored, hdinode, Function.update_eq_self]
  · have hlow := iblock_lt hs.layout hlt
    have hbmap := t.sb.bmapstart_lt
    omega

/-- The inode of a new link. -/
def newLink : Dinode := { type := T_SYMLINK, nlink := 1 }

/-- The new link in the inode cache. -/
structure Fresh (sb : Superblock) (t : Mem) (ip : Ip) : Prop where
  lt : (t.inode ip).inum < sb.ninodes
  sb : t.sb = sb
  dinode : (t.inode ip).dinode = newLink

theorem ensures_true {α : Type} {p : FsM α} : p.Ensures (fun _ _ => True) t := by
  induction p generalizing t with
  | ret a => trivial
  | get k ih => exact ih t
  | set t' k ih => exact ih
  | bread b k ih => exact fun d => ih d
  | store b d k ih => exact ih
  | brelse b k ih => exact ih
  | stop e => trivial

theorem ensures_ialloc {type : Nat} :
    (ialloc type).Ensures (fun ip t' => ∃ inum, Got t inum ip t') t := by
  have hloop : ∀ inums, (iallocLoop t.sb type inums).Ensures (fun ip t' => ∃ inum, Got t inum ip t') t := by
    intro inums
    induction inums with
    | nil => exact ensures_panic
    | cons inum inums ih =>
      refine ensures_bind.mpr (ensures_bread fun d => ensures_ite (fun _ => ?_) fun _ => ?_)
      · refine ensures_bind.mpr (ensures_store (ensures_bind.mpr (ensures_brelse ?_)))
        exact ensures_mono ensures_iget fun ip t' h => ⟨inum, h⟩
      · exact ensures_bind.mpr (ensures_brelse ih)
  exact hloop _

theorem ensures_lookupLoop {name : List UInt8} {offs : List Nat} :
    (lookupLoop dp name offs).Ensures (fun r t' => r = none → Local dp t t') t := by
  induction offs generalizing t with
  | nil => exact fun _ => local_refl
  | cons off offs ih =>
    refine ensures_bind.mpr (ensures_mono (isLocal_readDirent.ensures t) fun de t₁ h₁ => ?_)
    refine ensures_ite (fun _ => ?_) fun _ => ?_
    · exact ensures_bind.mpr (ensures_mono ensures_true fun _ _ _ => nofun)
    · exact ensures_mono ih fun r t' h hr => h₁.trans (h hr)

/-- `dirlink` that succeeds changes only the entry of the directory. -/
theorem ensures_dirlink {name : List UInt8} {inum : Nat} :
    (dirlink dp name inum).Ensures (fun r t' => 0 ≤ r → Local dp t t') t := by
  have hlookup : (dirlookup dp name).Ensures (fun r t' => r = none → Local dp t t') t :=
    ensures_ite (fun _ => ensures_panic) fun _ => ensures_lookupLoop
  refine ensures_bind.mpr (ensures_mono hlookup fun r t₁ h₁ => ?_)
  cases r with
  | some x =>
    refine ensures_bind.mpr (ensures_mono ensures_true fun _ _ _ hr => ?_)
    exact absurd hr (by decide)
  | none =>
    have hlink : IsLocal dp (do
        let q ← inodeOf dp
        let offs := direntOffs 0 q.size
        let off ← freeEntry dp (offs.length * DIRENTSIZE) offs
        let r ← writeData dp (fun i => (dirent name inum).getD i 0) off DIRENTSIZE
        if r = DIRENTSIZE then pure 0 else panic "dirlink" : FsM Int) :=
      isLocal_inodeOf.bind fun _ => (isLocal_freeEntry _ _).bind fun _ =>
        (isLocal_writeData _ _ _).bind fun _ => isLocal_ite (isLocal_pure _) isLocal_panic
    exact ensures_mono (hlink.ensures t₁) fun r t' h _ => (h₁ rfl).trans h

/-- The end of `create` changes only the entry of the directory. -/
theorem ensures_createEntry {name : List UInt8} : (createEntry dp ip name).Ensures
    (fun r t' => r = some ip ∧ t'.sb = t.sb ∧ ∀ j, j ≠ dp → t'.inode j = t.inode j) t := by
  rw [createEntry, ensures_bind, ensures_inodeOf, ensures_bind]
  refine ensures_mono ensures_dirlink fun r t₁ h₁ => ?_
  refine ensures_ite (fun _ => ensures_panic) fun hr => ?_
  have h₁ := h₁ (Int.not_lt.mp hr)
  rw [ensures_bind, iunlockput, ensures_bind]
  refine ensures_mono ensures_iunlock fun _ t₂ h₂ => ensures_mono ensures_iput fun _ t₃ h₃ => ?_
  obtain ⟨q₁, rfl, -, -⟩ := h₁
  obtain ⟨q₃, rfl, -⟩ := h₃
  subst h₂
  refine ⟨rfl, rfl, fun j hj => ?_⟩
  rw [setEntry_other hj, setEntry_other hj, setEntry_other hj]

/-- The inode of a new link: all of `addrs` is zero. -/
theorem wp_create_link (hs : Sound S t data) :
    wp ((create link T_SYMLINK 0 0).run (array S)) (fun r s => ∀ ip, r = some ip → Fresh t.sb s.1 ip)
      (fun _ _ => True) (t, ⟨data, []⟩) := by
  have hzero : ∀ j : Ip, 0 ≤ (fun _ => 0 : Ip → Int) j := fun _ => Int.le_refl 0
  rw [create, wp_run_bind]
  refine wp_mono (wp_namex hs) ?_ fun _ _ _ => trivial
  rintro r _ ⟨t₁, rfl, h₁⟩
  cases r with
  | none => exact fun _ => nofun
  | some x =>
    obtain ⟨dp, name⟩ := x
    have h₁ : Looking t data (fun j => 0 + one (some dp) j) t₁ := h₁.congr fun j => (Int.zero_add _).symm
    have ho : ∀ j, 0 ≤ 0 + one (some dp) j := fun j => Int.add_nonneg (hzero j) (one_nonneg _)
    refine wp_run_bind.mpr (wp_mono (h₁.ilock hs (h₁.pos hs hzero)) ?_ fun _ _ _ => trivial)
    rintro _ _ ⟨t₂, rfl, h₂, href, hvalid⟩
    rw [wp_run_bind]
    refine wp_mono (h₂.dirlookup hs ho href hvalid) ?_ fun _ _ _ => trivial
    rintro r s ⟨-, hsame⟩
    cases r with
    | some x =>
      -- the name exists
      obtain ⟨ip, off⟩ := x
      obtain ⟨t₃, dev⟩ := s
      have hnone : (do
          iunlockput dp
          ilock ip
          let q ← inodeOf ip
          if T_SYMLINK = T_FILE ∧ q.type = T_FILE then pure (some ip)
          else do
            iunlockput ip
            pure none : FsM (Option Ip)).Ensures (fun r _ => r = none) t₃ := by
        refine ensures_bind.mpr (ensures_mono ensures_true fun _ t₄ _ => ?_)
        refine ensures_bind.mpr (ensures_mono ensures_true fun _ t₅ _ => ?_)
        refine ensures_bind.mpr (ensures_ite (fun h => absurd h.1 (by decide)) fun _ => ?_)
        exact ensures_bind.mpr (ensures_mono ensures_true fun _ _ _ => rfl)
      refine wp_mono (hnone.run (array S) dev) ?_ fun _ _ _ => trivial
      rintro r _ rfl
      exact fun _ => nofun
    | none =>
      obtain rfl := hsame rfl
      have hl : Layout S t₂.sb := h₂.sb.symm ▸ hs.layout
      refine wp_run_bind.mpr (wp_mono (wp_and (wp_ialloc hl (by decide)) (ensures_ialloc.run (array S) _))
        ?_ fun _ _ _ => trivial)
      rintro ip _ ⟨⟨t₃, data₃, rfl, hsb, hlt, hfree, hstored⟩, inum, hgot⟩
      have hsound₂ : Sound S t₂ data := h₂.sound hs ho
      have hunread : (t₃.inode ip).valid = false := hgot.unread hsound₂ hfree
      have hne : ip ≠ dp := hgot.ne_valid hunread href hvalid
      have hl₃ : Layout S t₃.sb := hsb.symm ▸ hl
      have hlt₃ : (t₃.inode ip).inum < t₃.sb.ninodes := hsb.symm ▸ hlt
      rw [wp_run_bind]
      refine wp_mono (wp_ilock hl₃ hlt₃) ?_ fun _ _ _ => trivial
      rintro _ _ ⟨q, rfl, hinum, -, -, -, -, hdinode⟩
      rw [hunread, if_neg (by decide), hsb, hstored, Function.update_self] at hdinode
      -- What follows changes only the entry of the directory.
      have hrest : (do
          setInode ip fun q =>
            { q with major := 0 % 2 ^ 16, minor := 0 % 2 ^ 16, nlink := 1 }
          iupdate ip
          if T_SYMLINK = T_DIR then do
            incLink dp
            iupdate dp
            let q ← inodeOf ip
            let r ← dirlink ip dot q.inum
            if r < 0 then panic "create dots"
            else do
              let p ← inodeOf dp
              let r ← dirlink ip dotdot p.inum
              if r < 0 then panic "create dots" else createEntry dp ip name
          else createEntry dp ip name : FsM (Option Ip)).Ensures
          (fun r t' => ∀ ip', r = some ip' → Fresh t.sb t' ip') (t₃.setEntry ip q) := by
        rw [ensures_bind, ensures_setInode, ensures_bind]
        refine ensures_iupdate (ensures_ite (fun h => absurd h (by decide)) fun _ => ?_)
        refine ensures_mono ensures_createEntry ?_
        rintro _ t₄ ⟨rfl, hsb₄, hsame₄⟩ ip' heq
        cases heq
        have hentry := hsame₄ ip hne
        rw [setEntry_self, setEntry_self] at hentry
        have hfields : q.type = T_SYMLINK ∧ q.size = 0 ∧ q.addrs = fun _ => 0 :=
          ⟨congrArg Dinode.type hdinode, congrArg Dinode.size hdinode, congrArg Dinode.addrs hdinode⟩
        have hsb : t₃.sb = t.sb := hsb.trans h₂.sb
        refine ⟨?_, hsb₄.trans hsb, ?_⟩
        · rw [hentry]
          show q.inum < t.sb.ninodes
          rw [hinum, ← hsb]
          exact hlt₃
        · rw [hentry, newLink, Inode.dinode]
          dsimp only
          rw [hfields.1, hfields.2.1, hfields.2.2]
          rfl
      exact wp_mono (hrest.run (array S) _) (fun _ _ h => h) fun _ _ _ => trivial

theorem wp_symlinkCreate (hs : Sound S t data) :
    wp ((symlinkCreate target link).run (array S)) (fun r s => ∀ ip, r = some ip → Fresh t.sb s.1 ip)
      (fun _ _ => True) (t, ⟨data, []⟩) := by
  have hzero : ∀ j : Ip, 0 ≤ (fun _ => 0 : Ip → Int) j := fun _ => Int.le_refl 0
  rw [symlinkCreate, wp_run_bind]
  refine wp_mono (wp_namei hs) ?_ fun _ _ _ => trivial
  rintro r _ ⟨t₁, rfl, h₁⟩
  cases r with
  | none => exact fun _ => nofun
  | some ip =>
    have ho : ∀ j, 0 ≤ one (some ip) j := fun j => one_nonneg _
    have hpos : 0 < (t₁.inode ip).ref :=
      (h₁.congr fun j => (Int.zero_add _).symm : Looking t data (fun j => 0 + one (some ip) j) t₁).pos
        hs hzero
    rw [wp_run_bind]
    refine wp_mono (h₁.ilock hs hpos) ?_ fun _ _ _ => trivial
    rintro _ _ ⟨t₂, rfl, h₂, href, hvalid⟩
    rw [wp_run_bind, wp_run_inodeOf]
    refine wp_run_ite (fun _ => ?_) fun _ => ?_
    · rw [wp_run_bind]
      refine wp_mono (ensures_true.run (array S) _) ?_ fun _ _ _ => trivial
      exact fun _ _ _ _ => nofun
    · have hs₂ : Sound S t₂ data := h₂.sound hs ho
      rw [wp_run_bind]
      refine wp_mono (wp_iupdate_same hs₂ href hvalid) ?_ fun _ _ _ => trivial
      rintro _ _ ⟨data₃, rfl, hs₃⟩
      rw [wp_run_bind]
      refine wp_mono hs₃.looking.iunlock ?_ fun _ _ _ => trivial
      rintro _ _ ⟨t₄, rfl, h₄⟩
      refine wp_mono (wp_create_link (h₄.sound hs₃ hzero)) (fun _ _ h => ?_) fun _ _ _ => trivial
      rwa [h₄.sb, h₂.sb] at h

end Create

/-! ### The copy of the path -/

theorem length_cString {s : List UInt8} (h : 0 ∈ s) : (cString s).length < s.length := by
  induction s with
  | nil => cases h
  | cons ch s ih =>
    by_cases hch : ch = 0
    · rw [cString, List.takeWhile_cons_of_neg (by simp [hch])]
      exact Nat.succ_pos _
    · have hs : 0 ∈ s := (List.mem_cons.mp h).resolve_left (Ne.symm hch)
      rw [cString, List.takeWhile_cons_of_pos (by simp [hch])]
      exact Nat.succ_lt_succ (ih hs)

theorem cString_append {s : List UInt8} (h : 0 ∉ s) (n : Nat) :
    cString (s ++ List.replicate n 0) = s := by
  have hall : ∀ ch ∈ s, decide (ch ≠ 0) = true := fun ch hch =>
    decide_eq_true fun heq => h (heq ▸ hch)
  rw [cString, List.takeWhile_append_of_pos hall]
  cases n with
  | zero => exact List.append_nil s
  | succ n => simp [List.replicate_succ]

/-- A path in `addrs` has a zero byte behind it. -/
theorem path_length {s : List UInt8} (h : q.path = some s) : s.length < ADDRSIZE := by
  unfold Inode.path at h
  dsimp only at h
  split at h
  · rename_i hmem
    cases h
    have hlt := length_cString hmem
    rwa [List.length_map, List.length_range] at hlt
  · cases h

/-- A short path in front of zeroes. -/
theorem path_splice (hzero : q.addrs = fun _ => 0) (h : 0 ∉ target)
    (hlen : target.length < ADDRSIZE) :
    Inode.path { q with addrs := q.addrs.splice 0 target.length fun i => target.getD i 0 } =
      some target := by
  have hbytes : (List.range ADDRSIZE).map
      (q.addrs.splice 0 target.length fun i => target.getD i 0).get =
      target ++ List.replicate (ADDRSIZE - target.length) 0 := by
    refine List.ext_getElem (by simp; omega) fun i h1 h2 => ?_
    rw [List.length_map, List.length_range] at h1
    rw [List.getElem_map, List.getElem_range, List.getElem_append]
    split
    · rename_i hi
      have hget : (q.addrs.splice 0 target.length fun i => target.getD i 0).get (0 + i) =
          target.getD i 0 := Bytes.get_splice_self hi (by omega)
      rw [Nat.zero_add] at hget
      rw [hget, List.getD_eq_getElem?_getD, List.getElem?_eq_getElem hi]
      rfl
    · rw [Bytes.get_splice_of_lt (.inr (by omega)), hzero, List.getElem_replicate, Bytes.get]
      split
      · rfl
      · rfl
  have hmem : (0 : UInt8) ∈ target ++ List.replicate (ADDRSIZE - target.length) 0 :=
    List.mem_append_right _ (List.mem_replicate.mpr ⟨by omega, rfl⟩)
  unfold Inode.path
  dsimp only
  rw [hbytes, if_pos hmem, cString_append h]

/-- The link stores the path: it is read back from the cache, and from the disk into any entry that has
    been recycled for the inode, and the copy has changed only `addrs`. -/
structure StoresTarget (S : Nat → Prop) [DecidablePred S] (target : List UInt8) (ip : Ip) (t : Mem)
    (s : Mem × Flat Block) : Prop where
  cache : (s.1.inode ip).path = some target
  disk : ∀ t' data' j, t'.sb = s.1.sb → (t'.inode j).inum = (s.1.inode ip).inum →
    (t'.inode j).valid = false →
    stored s.1.sb data' (s.1.inode ip).inum = stored s.1.sb s.2.data (s.1.inode ip).inum →
    wp ((ilock j).run (array S)) (fun _ x => (x.1.inode j).path = some target) (fun _ _ => True)
      (t', ⟨data', []⟩)
  same : s.1 = t.setEntry ip { t.inode ip with addrs := (s.1.inode ip).addrs, locked := false }

variable [DecidablePred S]

/-- `iupdate` with any buffers locked. -/
theorem wp_iupdate_any {held : List Nat} (hrange : (t.inode ip).dinode.InRange) :
    wp ((iupdate ip).run (array S)) (fun _ s => s.1 = t ∧
      stored t.sb s.2.data (t.inode ip).inum = (t.inode ip).dinode) (fun e _ => e ≠ .overrun)
      (t, ⟨data, held⟩) := by
  rw [iupdate, wp_run_bind, wp_run_get, wp_run_bind]
  refine Flat.wp_bread_any (fun hb => ?_) (fun heq => by cases heq) (fun heq => by cases heq)
  rw [wp_run_bind]
  refine (Flat.wp_store List.mem_cons_self).mpr ?_
  refine (Flat.wp_brelse hb).mpr ⟨rfl, ?_⟩
  show dinodeAt (Function.update data _ _ _) _ = _
  rw [Function.update_self]
  exact dinodeAt_writeDinode _ hrange

/-- The copy of a path that is shorter than `addrs`. -/
theorem wp_symlinkCopy {sb : Superblock} {dev : Flat Block} (hfresh : Fresh sb t ip)
    (hl : Layout S sb) (hzero : 0 ∉ target) (hlen : target.length < ADDRSIZE) :
    wp ((symlinkCopy target (some ip)).run (array S))
      (fun r s => r = 0 ∧ StoresTarget S target ip t s) (fun e _ => e ≠ .overrun) (t, dev) := by
  obtain ⟨hlt, hsb, hdinode⟩ := hfresh
  have haddrs : (t.inode ip).addrs = fun _ => 0 := congrArg Dinode.addrs hdinode
  have hpath := path_splice haddrs hzero hlen
  obtain ⟨q, hq⟩ : ∃ q : Inode, q = { t.inode ip with
    addrs := (t.inode ip).addrs.splice 0 target.length fun i => target.getD i 0 } := ⟨_, rfl⟩
  rw [← hq] at hpath
  have hrange : q.dinode.InRange := by
    have htype : q.type = T_SYMLINK := by rw [hq]; exact congrArg Dinode.type hdinode
    have hmajor : q.major = 0 := by rw [hq]; exact congrArg Dinode.major hdinode
    have hminor : q.minor = 0 := by rw [hq]; exact congrArg Dinode.minor hdinode
    have hnlink : q.nlink = 1 := by rw [hq]; exact congrArg Dinode.nlink hdinode
    have hsize : q.size = 0 := by rw [hq]; exact congrArg Dinode.size hdinode
    constructor
    · exact htype.trans_lt (by decide)
    · exact hmajor.trans_lt (by decide)
    · exact hminor.trans_lt (by decide)
    · exact hnlink.trans_lt (by decide)
    · exact hsize.trans_lt (by decide)
  obtain ⟨data, held⟩ := dev
  rw [symlinkCopy, if_neg (Nat.not_lt.mpr hlen.le), wp_run_bind, wp_run_setInode, ← hq, wp_run_bind]
  show wp ((iupdate ip).run (array S)) _ _ (t.setEntry ip q, ⟨data, held⟩)
  refine wp_mono (wp_iupdate_any (by rwa [setEntry_self])) ?_ fun _ _ he => he
  rintro _ ⟨t₁, dev₁⟩ ⟨rfl, hstored⟩
  rw [wp_run_bind]
  refine wp_mono wp_iunlock ?_ fun e _ he => by rw [he]; nofun
  rintro _ _ rfl
  rw [wp_run_pure]
  rw [setEntry_self] at hstored ⊢
  rw [setEntry_twice]
  have hentry : (t.setEntry ip { q with locked := false }).inode ip = { q with locked := false } :=
    setEntry_self _
  refine ⟨rfl, ?_, fun t' data' j hsb' hinum hinvalid hsame => ?_, ?_⟩
  · rw [hentry]
    exact hpath
  · rw [hentry] at hinum hsame
    have hqinum : q.inum = (t.inode ip).inum := by rw [hq]
    have hsb'' : t'.sb = sb := hsb'.trans hsb
    have hlt' : (t'.inode j).inum < t'.sb.ninodes := by
      rw [hinum, hsb'', hqinum]
      exact hlt
    refine wp_mono (wp_ilock (hsb'' ▸ hl) hlt') ?_ fun _ _ _ => trivial
    rintro _ _ ⟨q', rfl, -, -, -, -, -, hread⟩
    rw [hinvalid, if_neg (by decide), hinum, hsb'] at hread
    have haddr : q'.addrs = q.addrs :=
      congrArg Dinode.addrs (hread.trans (hsame.trans hstored))
    dsimp only
    rw [Function.update_self, Inode.path, haddr]
    exact hpath
  · rw [hentry, hq]

/-- In a sound file system, when `sys_symlink` has created the link: the call returns 0 and the link
    stores the path of the target, with no other change, if and only if the path with its zero byte
    fits into `addrs`. -/
theorem symlink_stores {s₁ : Mem × Flat Block} (hs : Sound S t data) (hzero : 0 ∉ target)
    (hcreate : (symlinkCreate target link).run (array S) (t, ⟨data, []⟩) = .ok (some ip) s₁)
    (hend : (∃ s, (sysSymlink target link).run (array S) (t, ⟨data, []⟩) = .ok 0 s) ∨
      ∃ s, (sysSymlink target link).run (array S) (t, ⟨data, []⟩) = .error .overrun s) :
    (∃ s, (sysSymlink target link).run (array S) (t, ⟨data, []⟩) = .ok 0 s ∧
      StoresTarget S target ip s₁.1 s) ↔ target.length < ADDRSIZE := by
  have hrun : (sysSymlink target link).run (array S) (t, ⟨data, []⟩) =
      (symlinkCopy target (some ip)).run (array S) s₁ := by
    rw [sysSymlink_eq, run_bind, bind_ok hcreate]
  constructor
  · rintro ⟨s, -, hstores⟩
    exact path_length hstores.cache
  · intro hlen
    have hfresh := wp_ok (wp_symlinkCreate hs) hcreate ip rfl
    have hcopy : wp ((symlinkCopy target (some ip)).run (array S))
        (fun r s => r = 0 ∧ StoresTarget S target ip s₁.1 s) (fun e _ => e ≠ .overrun) s₁ :=
      wp_symlinkCopy hfresh hs.layout hzero hlen
    rcases hend with ⟨s, hs⟩ | ⟨s, hs⟩
    · rw [hrun] at hs ⊢
      exact ⟨s, hs, (wp_ok hcopy hs).2⟩
    · rw [hrun] at hs
      exact absurd rfl (wp_error hcopy hs)

/-! ### Links to a file of three bytes -/

/-- The inode cache with the working directory and an open file, which have not been read. -/
def openMem : Mem :=
  { linkMem {} with
    inode := fun j =>
      if j = 0 then { inum := 1, ref := 1 } else if j = 2 then { inum := 2, ref := 1 } else {} }

theorem openMem_sound : Sound (fun _ => True) openMem linkDisk where
  layout := ⟨by decide, by decide, fun _ _ _ => trivial⟩
  counted := ⟨by decide +kernel, by decide +kernel, by decide +kernel⟩
  range := by decide +kernel
  read := by
    have hinvalid : ∀ j, (openMem.inode j).valid = false := by decide +kernel
    intro j _ hvalid
    rw [hinvalid j] at hvalid
    cases hvalid
  dir := by
    have hroot : ∀ x < 4, (stored openMem.sb linkDisk x).type = T_DIR → x = 1 := by decide +kernel
    have hsize : (diskInode openMem.sb linkDisk 1).size = 16 := by decide +kernel
    intro x hx hdir
    obtain rfl := hroot x hx hdir
    refine ⟨⟨by rw [hsize]; decide, fun bn hbn => ?_⟩, fun k hk _ => ?_⟩
    · rw [hsize] at hbn
      have hzero : bn = 0 := by
        simp only [BSIZE] at hbn
        omega
      subst hzero
      exact ⟨by decide +kernel, trivial, by decide +kernel⟩
    · rw [hsize] at hk
      have hzero : k = 0 := by
        simp only [DIRENTSIZE, DIRSIZ] at hk
        omega
      subst hzero
      have hname : direntInum (fileBytes linkDisk (diskInode openMem.sb linkDisk 1)
          (0 * DIRENTSIZE) DIRENTSIZE) = 2 := by decide +kernel
      rw [hname]
      exact ⟨by decide, fun _ hnlink => absurd hnlink (by decide +kernel)⟩
  root := ⟨by decide, fun _ hnlink => absurd hnlink (by decide +kernel)⟩

/-- A path of 52 characters for `f`, which is in the root directory. -/
def longPath : List UInt8 := List.replicate 51 slash ++ [102]

/-- The type of an entry of the inode cache, and the path in it, after a system call that has returned
    0. -/
def linkAfter (m : EStateM Stop (Mem × Flat Block) Int) (s : Mem × Flat Block) (ip : Ip) :
    Option (Nat × Option (List UInt8)) :=
  match m s with
  | .ok 0 s' => some ((s'.1.inode ip).type, (s'.1.inode ip).path)
  | _ => none

/-- The link with a path of 52 characters is in the entry 1 and the path has no zero byte behind it:
    what follows in memory is the entry 2, which is in use. -/
theorem symlink_stores_unended : namesInode longPath 2 (openMem, ⟨linkDisk, []⟩) = true ∧
    linkAfter ((sysSymlink longPath [103]).run (array fun _ => True)) (openMem, ⟨linkDisk, []⟩) 1 =
      some (T_SYMLINK, none) := by
  constructor <;> decide +kernel

theorem symlink_stores_short : ∃ s t₁,
    (sysSymlink [102] [103]).run (array fun _ => True) (openMem, ⟨linkDisk, []⟩) = .ok 0 s ∧
      StoresTarget (fun _ => True) [102] 1 t₁ s := by
  obtain ⟨s₁, hcreate⟩ := exists_ok_of_value
    (show valueOf ((symlinkCreate [102] [103]).run (array fun _ => True))
      (openMem, ⟨linkDisk, []⟩) = some (some 1) by decide +kernel)
  have hend := exists_ok_of_value
    (show valueOf ((sysSymlink [102] [103]).run (array fun _ => True))
      (openMem, ⟨linkDisk, []⟩) = some 0 by decide +kernel)
  obtain ⟨s, hrun, hstores⟩ :=
    (symlink_stores openMem_sound (by decide) hcreate (.inl hend)).mpr (by decide)
  exact ⟨s, s₁.1, hrun, hstores⟩

end Xv6.File
