import Xv6.Lib.Wp

namespace Xv6.Lib

/-!
# Library — programs over a block device

A program reads and changes the blocks of a device, one locked block at a time, and keeps some
state `τ` of its own.  It is written once, as a tree of operations, and run on any device.

* `Prog` — programs: `bread` locks a block and gives its contents, `store` changes the contents
  of a locked block, `brelse` unlocks it, `stop` ends the program with an error;
* `Device` / `Prog.run` — an implementation of the three operations, and programs run on it;
* `run_bind` — running is compositional, so that the rules of `wp` apply to programs;
* `Flat` — the device that is an array of blocks with a list of locked ones;
* `Prog.simulate` — what a program does on one device it does on any device that implements the
  operations of the first, or it stops.
-/

/-- Programs with results in `α`, over blocks in `β`, with state in `τ` and errors in `ε`. -/
inductive Prog (τ β ε α : Type) where
  | ret (a : α)
  | get (k : τ → Prog τ β ε α)
  | set (t : τ) (k : Prog τ β ε α)
  | bread (b : Nat) (k : β → Prog τ β ε α)
  | store (b : Nat) (d : β) (k : Prog τ β ε α)
  | brelse (b : Nat) (k : Prog τ β ε α)
  | stop (e : ε)

variable {τ β ε σ σ' α γ : Type}

namespace Prog

/-- One program after the other. -/
def bind (p : Prog τ β ε α) (f : α → Prog τ β ε γ) : Prog τ β ε γ :=
  match p with
  | ret a => f a
  | get k => .get fun t => (k t).bind f
  | set t k => .set t (k.bind f)
  | bread b k => .bread b fun d => (k d).bind f
  | store b d k => .store b d (k.bind f)
  | brelse b k => .brelse b (k.bind f)
  | stop e => .stop e

instance : Monad (Prog τ β ε) where
  pure := .ret
  bind := Prog.bind

theorem bind_pure (p : Prog τ β ε α) : (p >>= pure) = p := by
  show p.bind .ret = p
  induction p with
  | ret a => rfl
  | get k ih => exact congrArg Prog.get (funext ih)
  | set t k ih => exact congrArg (Prog.set t) ih
  | bread b k ih => exact congrArg (Prog.bread b) (funext ih)
  | store b d k ih => exact congrArg (Prog.store b d) ih
  | brelse b k ih => exact congrArg (Prog.brelse b) ih
  | stop e => rfl

theorem bind_assoc {δ : Type} (p : Prog τ β ε α) (f : α → Prog τ β ε γ) (g : γ → Prog τ β ε δ) :
    (p >>= f) >>= g = p >>= fun a => f a >>= g := by
  show (p.bind f).bind g = p.bind fun a => (f a).bind g
  induction p with
  | ret a => rfl
  | get k ih => exact congrArg Prog.get (funext ih)
  | set t k ih => exact congrArg (Prog.set t) ih
  | bread b k ih => exact congrArg (Prog.bread b) (funext ih)
  | store b d k ih => exact congrArg (Prog.store b d) ih
  | brelse b k ih => exact congrArg (Prog.brelse b) ih
  | stop e => rfl

theorem ite_bind {c : Prop} [Decidable c] (p p' : Prog τ β ε α) (f : α → Prog τ β ε γ) :
    (if c then p else p') >>= f = if c then p >>= f else p' >>= f := by
  split
  · rfl
  · rfl

instance : MonadStateOf τ (Prog τ β ε) where
  get := .get .ret
  set t := .set t (.ret ⟨⟩)
  modifyGet f := .get fun t => .set (f t).2 (.ret (f t).1)

end Prog

/-- The operations of a device with state `σ`. -/
structure Device (β ε σ : Type) where
  bread : Nat → EStateM ε σ β
  store : Nat → β → EStateM ε σ Unit
  brelse : Nat → EStateM ε σ Unit

/-- An operation of the device beside the state of the program. -/
def onDevice (m : EStateM ε σ α) : EStateM ε (τ × σ) α := fun s =>
  match m s.2 with
  | .ok a s' => .ok a (s.1, s')
  | .error e s' => .error e (s.1, s')

/-- Run a program on a device. -/
def Prog.run (D : Device β ε σ) : Prog τ β ε α → EStateM ε (τ × σ) α
  | .ret a => pure a
  | .get k => fun s => (k s.1).run D s
  | .set t k => fun s => k.run D (t, s.2)
  | .bread b k => do
    let d ← onDevice (D.bread b)
    (k d).run D
  | .store b d k => do
    onDevice (D.store b d)
    k.run D
  | .brelse b k => do
    onDevice (D.brelse b)
    k.run D
  | .stop e => throw e

section Rules

variable {D : Device β ε σ} {Q : α → τ × σ → Prop} {E : ε → τ × σ → Prop} {s : τ × σ}

/-- Running is compositional. -/
theorem run_bind (p : Prog τ β ε α) (f : α → Prog τ β ε γ) :
    (p >>= f).run D = p.run D >>= fun a => (f a).run D := by
  show (p.bind f).run D = _
  induction p with
  | ret a => rfl
  | get k ih =>
    funext s
    exact congrFun (ih s.1) s
  | set t k ih =>
    funext s
    exact congrFun ih (t, s.2)
  | bread b k ih => simp only [Prog.bind, Prog.run, ih, bind_assoc]
  | store b d k ih => simp only [Prog.bind, Prog.run, ih, bind_assoc]
  | brelse b k ih => simp only [Prog.bind, Prog.run, ih, bind_assoc]
  | stop e => rfl

theorem wp_run_bind {p : Prog τ β ε α} {f : α → Prog τ β ε γ} {Q : γ → τ × σ → Prop} :
    wp ((p >>= f).run D) Q E s ↔ wp (p.run D) (fun a s' => wp ((f a).run D) Q E s') E s := by
  rw [run_bind, wp_bind]

theorem wp_run_pure {a : α} : wp ((pure a : Prog τ β ε α).run D) Q E s ↔ Q a s := Iff.rfl

theorem wp_run_stop {e : ε} : wp ((Prog.stop e : Prog τ β ε α).run D) Q E s ↔ E e s := Iff.rfl

theorem wp_run_get {Q : τ → τ × σ → Prop} :
    wp ((get : Prog τ β ε τ).run D) Q E s ↔ Q s.1 s := Iff.rfl

theorem wp_run_modify {Q : PUnit → τ × σ → Prop} (f : τ → τ) :
    wp ((modify f : Prog τ β ε PUnit).run D) Q E s ↔ Q ⟨⟩ (f s.1, s.2) := Iff.rfl

theorem wp_run_ite {c : Prop} [Decidable c] {p p' : Prog τ β ε α} (h : c → wp (p.run D) Q E s)
    (h' : ¬ c → wp (p'.run D) Q E s) : wp ((if c then p else p').run D) Q E s := by
  split
  · exact h ‹_›
  · exact h' ‹_›

theorem wp_onDevice {m : EStateM ε σ α} : wp (onDevice m) Q E s ↔
    wp m (fun a s' => Q a (s.1, s')) (fun e s' => E e (s.1, s')) s.2 := by
  cases hm : m s.2 with
  | ok a s' => rw [wp, onDevice, hm, wp_of_ok hm]
  | error e s' => rw [wp, onDevice, hm, wp_of_error hm]

end Rules

/-! ### The array of blocks -/

/-- An array of blocks, and the blocks that are locked. -/
structure Flat (β : Type) where
  data : Nat → β
  held : List Nat

namespace Flat

/-- The array as a device that offers the blocks `S`.  A lock that is taken twice stops the
    program with `dead`, any other misuse with `bad`. -/
def device (S : Nat → Prop) [DecidablePred S] (dead bad : ε) : Device β ε (Flat β) where
  bread b := fun s =>
    if b ∈ s.held then .error dead s
    else if S b then .ok (s.data b) { s with held := b :: s.held }
    else .error bad s
  store b d := fun s =>
    if b ∈ s.held then .ok () { s with data := Function.update s.data b d }
    else .error bad s
  brelse b := fun s =>
    if b ∈ s.held then .ok () { s with held := s.held.filter fun b' => b' ≠ b }
    else .error bad s

section Rules

variable {S : Nat → Prop} [DecidablePred S] {dead bad : ε} {E : ε → τ × Flat β → Prop} {t : τ}
  {data : Nat → β} {held : List Nat} {b : Nat}

theorem wp_bread (hS : S b) (hb : b ∉ held) {Q : β → τ × Flat β → Prop} :
    wp ((Prog.bread b .ret : Prog τ β ε β).run (device S dead bad)) Q E (t, ⟨data, held⟩) ↔
      Q (data b) (t, ⟨data, b :: held⟩) := by
  have hrun : (device S dead bad : Device β ε (Flat β)).bread b ⟨data, held⟩ =
      .ok (data b) ⟨data, b :: held⟩ := by
    simp [device, hb, hS]
  rw [Prog.run, wp_bind, wp_onDevice]
  exact wp_of_ok hrun

/-- `bread` of any block: it stops at a lock that is taken and outside the device. -/
theorem wp_bread_any {Q : β → τ × Flat β → Prop}
    (h : b ∉ held → Q (data b) (t, ⟨data, b :: held⟩))
    (hdead : E dead (t, ⟨data, held⟩)) (hbad : E bad (t, ⟨data, held⟩)) :
    wp ((Prog.bread b .ret : Prog τ β ε β).run (device S dead bad)) Q E (t, ⟨data, held⟩) := by
  rw [Prog.run, wp_bind, wp_onDevice]
  simp only [device, wp]
  split_ifs with hb
  · exact hdead
  · exact h hb
  · exact hbad

theorem wp_store {d : β} {Q : Unit → τ × Flat β → Prop} (hb : b ∈ held) :
    wp ((Prog.store b d (.ret ()) : Prog τ β ε Unit).run (device S dead bad)) Q E
      (t, ⟨data, held⟩) ↔ Q () (t, ⟨Function.update data b d, held⟩) := by
  have hrun : (device S dead bad : Device β ε (Flat β)).store b d ⟨data, held⟩ =
      .ok () ⟨Function.update data b d, held⟩ := by
    simp [device, hb]
  rw [Prog.run, wp_bind, wp_onDevice]
  exact wp_of_ok hrun

theorem wp_brelse (hb : b ∉ held) {Q : Unit → τ × Flat β → Prop} :
    wp ((Prog.brelse b (.ret ()) : Prog τ β ε Unit).run (device S dead bad)) Q E
      (t, ⟨data, b :: held⟩) ↔ Q () (t, ⟨data, held⟩) := by
  have hrun : (device S dead bad : Device β ε (Flat β)).brelse b ⟨data, b :: held⟩ =
      .ok () ⟨data, held⟩ := by
    have hfilter : held.filter (fun b' => b' ≠ b) = held := by
      rw [List.filter_eq_self]
      intro x hx
      have hne : x ≠ b := fun h => hb (h ▸ hx)
      simpa using hne
    simp only [device, List.mem_cons, true_or, if_true]
    rw [List.filter_cons_of_neg (by simp), hfilter]
  rw [Prog.run, wp_bind, wp_onDevice]
  exact wp_of_ok hrun

end Rules

end Flat

/-! ### Simulation -/

/-- `D'` implements the operations of `D`, with states related by `R`, except that it may stop
    with an error in `E`. -/
structure Implements (D : Device β ε σ) (D' : Device β ε σ') (R : σ → σ' → Prop)
    (E : ε → Prop) : Prop where
  bread : ∀ {s s' t d} b, R s s' → D.bread b s = .ok d t →
    wp (D'.bread b) (fun d' t' => d' = d ∧ R t t') (fun e _ => E e) s'
  store : ∀ {s s' t} b d, R s s' → D.store b d s = .ok () t →
    wp (D'.store b d) (fun _ t' => R t t') (fun e _ => E e) s'
  brelse : ∀ {s s' t} b, R s s' → D.brelse b s = .ok () t →
    wp (D'.brelse b) (fun _ t' => R t t') (fun e _ => E e) s'

/-- A program that returns on `D` returns the same on a device that implements `D`, or stops. -/
theorem Prog.simulate {D : Device β ε σ} {D' : Device β ε σ'} {R : σ → σ' → Prop} {E : ε → Prop}
    (h : Implements D D' R E) (p : Prog τ β ε α) {s : σ} {s' : σ'} {u t : τ} {v : σ} {a : α}
    (hR : R s s') (hp : p.run D (u, s) = .ok a (t, v)) :
    wp (p.run D') (fun a' x => a' = a ∧ x.1 = t ∧ R v x.2) (fun e _ => E e) (u, s') := by
  induction p generalizing s s' u with
  | ret b =>
    cases hp
    exact ⟨rfl, rfl, hR⟩
  | get k ih => exact ih u hR hp
  | set t' k ih => exact ih hR hp
  | bread b k ih =>
    obtain ⟨d, w, hd, hk⟩ := bind_eq_ok_state.mp hp
    rw [Prog.run, wp_bind, wp_onDevice]
    rw [onDevice] at hd
    split at hd
    · rename_i d₀ s₁ hb
      cases hd
      refine wp_mono (h.bread b hR hb) (fun d' t' ht => ?_) fun _ _ he => he
      rw [ht.1]
      exact ih d ht.2 hk
    · cases hd
  | store b d k ih =>
    obtain ⟨_, w, hd, hk⟩ := bind_eq_ok_state.mp hp
    rw [Prog.run, wp_bind, wp_onDevice]
    rw [onDevice] at hd
    split at hd
    · rename_i s₁ hb
      cases hd
      exact wp_mono (h.store b d hR hb) (fun _ t' ht => ih ht hk) fun _ _ he => he
    · cases hd
  | brelse b k ih =>
    obtain ⟨_, w, hd, hk⟩ := bind_eq_ok_state.mp hp
    rw [Prog.run, wp_bind, wp_onDevice]
    rw [onDevice] at hd
    split at hd
    · rename_i s₁ hb
      cases hd
      exact wp_mono (h.brelse b hR hb) (fun _ t' ht => ih ht hk) fun _ _ he => he
    · cases hd
  | stop e => cases hp

end Xv6.Lib
