import Xv6.Lib.Device

namespace Xv6.Lib

/-!
# Library — the state of a program, whatever the device does

Some facts about a program over a block device concern its own state only, and hold whatever the
blocks contain and whichever device it runs on.

* `Prog.Ensures` — from a state the program returns only with a postcondition, whatever `bread`
  gives; it has the rules of a weakest precondition, without any state of the device;
* `Ensures.run` — what is ensured holds on every device;
* `Prog.Alike` — two programs make the same calls of the device, and return with related results
  and states;
* `Alike.run` — on every device such programs end in the same way.
-/

variable {τ β ε σ α γ : Type}

/-- An operation of the device, and what follows it. -/
theorem onDevice_bind {δ : Type} {m : EStateM ε σ δ} {f : δ → EStateM ε (τ × σ) α} {t : τ} {s : σ} :
    (onDevice m >>= f) (t, s) =
      match m s with
      | .ok d s' => f d (t, s')
      | .error e s' => .error e (t, s') := by
  cases hm : m s with
  | ok d s' => exact bind_ok (by simp only [onDevice, hm])
  | error e s' => exact bind_error (by simp only [onDevice, hm])

/-! ### Postconditions -/

/-- Started in `t`, the program returns only with `Q`, or it stops. -/
def Prog.Ensures : Prog τ β ε α → (α → τ → Prop) → τ → Prop
  | .ret a, Q, t => Q a t
  | .get k, Q, t => (k t).Ensures Q t
  | .set t' k, Q, _ => k.Ensures Q t'
  | .bread _ k, Q, t => ∀ d, (k d).Ensures Q t
  | .store _ _ k, Q, t => k.Ensures Q t
  | .brelse _ k, Q, t => k.Ensures Q t
  | .stop _, _, _ => True

section Rules

variable {p : Prog τ β ε α} {Q Q' : α → τ → Prop} {t : τ}

theorem ensures_mono (h : p.Ensures Q t) (hQ : ∀ a t', Q a t' → Q' a t') : p.Ensures Q' t := by
  induction p generalizing t with
  | ret a => exact hQ a t h
  | get k ih => exact ih t h
  | set t' k ih => exact ih h
  | bread b k ih => exact fun d => ih d (h d)
  | store b d k ih => exact ih h
  | brelse b k ih => exact ih h
  | stop e => trivial

theorem ensures_bind {f : α → Prog τ β ε γ} {Q : γ → τ → Prop} :
    (p >>= f).Ensures Q t ↔ p.Ensures (fun a t' => (f a).Ensures Q t') t := by
  show (p.bind f).Ensures Q t ↔ _
  induction p generalizing t with
  | ret a => exact Iff.rfl
  | get k ih => exact ih t
  | set t' k ih => exact ih
  | bread b k ih => exact forall_congr' fun d => ih d
  | store b d k ih => exact ih
  | brelse b k ih => exact ih
  | stop e => exact Iff.rfl

theorem ensures_pure {a : α} : (pure a : Prog τ β ε α).Ensures Q t ↔ Q a t := Iff.rfl

theorem ensures_get {Q : τ → τ → Prop} : (get : Prog τ β ε τ).Ensures Q t ↔ Q t t := Iff.rfl

theorem ensures_modify {Q : PUnit → τ → Prop} (f : τ → τ) :
    (modify f : Prog τ β ε PUnit).Ensures Q t ↔ Q ⟨⟩ (f t) := Iff.rfl

theorem ensures_ite {c : Prop} [Decidable c] {p p' : Prog τ β ε α} (h : c → p.Ensures Q t)
    (h' : ¬ c → p'.Ensures Q t) : (if c then p else p').Ensures Q t := by
  split
  · exact h ‹_›
  · exact h' ‹_›

theorem wp_anyDevice {δ : Type} {m : EStateM ε σ δ} {f : δ → EStateM ε (τ × σ) α} {s : σ}
    {Q : α → τ × σ → Prop} (h : ∀ d s', wp (f d) Q (fun _ _ => True) (t, s')) :
    wp (onDevice m >>= f) Q (fun _ _ => True) (t, s) := by
  rw [wp, onDevice_bind]
  cases m s with
  | ok d s' => exact h d s'
  | error e s' => trivial

/-- What a program ensures holds when it returns, on every device. -/
theorem Prog.Ensures.run (h : p.Ensures Q t) (D : Device β ε σ) (s : σ) :
    wp (p.run D) (fun a x => Q a x.1) (fun _ _ => True) (t, s) := by
  induction p generalizing t s with
  | ret a => exact h
  | get k ih => exact ih t h s
  | set t' k ih => exact ih h s
  | bread b k ih => exact wp_anyDevice fun d s' => ih d (h d) s'
  | store b d k ih => exact wp_anyDevice fun _ s' => ih h s'
  | brelse b k ih => exact wp_anyDevice fun _ s' => ih h s'
  | stop e => trivial

end Rules

/-! ### Programs that make the same calls -/

/-- The programs make the same calls of the device, and what they return is related by `Q`. -/
inductive Prog.Alike (Q : α → τ → α → τ → Prop) :
    Prog τ β ε α → τ → Prog τ β ε α → τ → Prop
  | ret {a a' : α} {t t' : τ} (h : Q a t a' t') : Alike Q (.ret a) t (.ret a') t'
  | get_left {k : τ → Prog τ β ε α} {p : Prog τ β ε α} {t t' : τ} (h : Alike Q (k t) t p t') :
      Alike Q (.get k) t p t'
  | get_right {k : τ → Prog τ β ε α} {p : Prog τ β ε α} {t t' : τ} (h : Alike Q p t (k t') t') :
      Alike Q p t (.get k) t'
  | set_left {u : τ} {k p : Prog τ β ε α} {t t' : τ} (h : Alike Q k u p t') :
      Alike Q (.set u k) t p t'
  | set_right {u : τ} {k p : Prog τ β ε α} {t t' : τ} (h : Alike Q p t k u) :
      Alike Q p t (.set u k) t'
  | bread {b : Nat} {k k' : β → Prog τ β ε α} {t t' : τ} (h : ∀ d, Alike Q (k d) t (k' d) t') :
      Alike Q (.bread b k) t (.bread b k') t'
  | store {b : Nat} {d : β} {k k' : Prog τ β ε α} {t t' : τ} (h : Alike Q k t k' t') :
      Alike Q (.store b d k) t (.store b d k') t'
  | brelse {b : Nat} {k k' : Prog τ β ε α} {t t' : τ} (h : Alike Q k t k' t') :
      Alike Q (.brelse b k) t (.brelse b k') t'
  | stop {e : ε} {t t' : τ} : Alike Q (.stop e) t (.stop e) t'

/-- Two runs that end in the same way: with related results and states of the programs and the same
    state of the device, or with the same error. -/
inductive SameEnd (Q : α → τ → α → τ → Prop) :
    EStateM.Result ε (τ × σ) α → EStateM.Result ε (τ × σ) α → Prop
  | ok {a a' : α} {t t' : τ} {s : σ} (h : Q a t a' t') : SameEnd Q (.ok a (t, s)) (.ok a' (t', s))
  | error {e : ε} {t t' : τ} {s : σ} : SameEnd Q (.error e (t, s)) (.error e (t', s))

section Alike

variable {Q : α → τ → α → τ → Prop} {p p' : Prog τ β ε α} {t t' : τ}

theorem SameEnd.mono {Q' : α → τ → α → τ → Prop} {x y : EStateM.Result ε (τ × σ) α}
    (h : SameEnd Q x y) (hQ : ∀ a t a' t', Q a t a' t' → Q' a t a' t') : SameEnd Q' x y := by
  cases h with
  | ok h => exact .ok (hQ _ _ _ _ h)
  | error => exact .error

theorem SameEnd.related {a a' : α} {x x' : τ × σ}
    (h : SameEnd Q (EStateM.Result.ok a x : EStateM.Result ε (τ × σ) α) (.ok a' x')) :
    Q a x.1 a' x'.1 := by
  cases h with
  | ok h => exact h

theorem alike_bind {f f' : α → Prog τ β ε γ} {Q' : γ → τ → γ → τ → Prop} (h : Prog.Alike Q p t p' t')
    (hf : ∀ a t a' t', Q a t a' t' → Prog.Alike Q' (f a) t (f' a') t') :
    Prog.Alike Q' (p >>= f) t (p' >>= f') t' := by
  show Prog.Alike Q' (p.bind f) t (p'.bind f') t'
  induction h with
  | ret h => exact hf _ _ _ _ h
  | get_left _ ih => exact .get_left ih
  | get_right _ ih => exact .get_right ih
  | set_left _ ih => exact .set_left ih
  | set_right _ ih => exact .set_right ih
  | bread _ ih => exact .bread ih
  | store _ ih => exact .store ih
  | brelse _ ih => exact .brelse ih
  | stop => exact .stop

theorem alike_ite {c : Prop} [Decidable c] {r r' : Prog τ β ε α} (h : c → Prog.Alike Q p t p' t')
    (h' : ¬ c → Prog.Alike Q r t r' t') :
    Prog.Alike Q (if c then p else r) t (if c then p' else r') t' := by
  split
  · exact h ‹_›
  · exact h' ‹_›

/-- The same start of two programs does not matter. -/
theorem alike_same {f f' : α → Prog τ β ε γ} {Q' : γ → τ → γ → τ → Prop} (p : Prog τ β ε α) (t : τ)
    {R : α → τ → Prop} (hp : p.Ensures R t)
    (hf : ∀ a t', R a t' → Prog.Alike Q' (f a) t' (f' a) t') :
    Prog.Alike Q' (p >>= f) t (p >>= f') t := by
  show Prog.Alike Q' (p.bind f) t (p.bind f') t
  induction p generalizing t with
  | ret a => exact hf a t hp
  | get k ih => exact .get_left (.get_right (ih t t hp))
  | set t' k ih => exact .set_left (.set_right (ih t' hp))
  | bread b k ih => exact .bread fun d => ih d t (hp d)
  | store b d k ih => exact .store (ih t hp)
  | brelse b k ih => exact .brelse (ih t hp)
  | stop e => exact .stop

/-- Alike programs end in the same way on every device. -/
theorem Prog.Alike.run (h : Prog.Alike Q p t p' t') (D : Device β ε σ) (s : σ) :
    SameEnd Q (p.run D (t, s)) (p'.run D (t', s)) := by
  induction h generalizing s with
  | ret h => exact .ok h
  | get_left _ ih => exact ih s
  | get_right _ ih => exact ih s
  | set_left _ ih => exact ih s
  | set_right _ ih => exact ih s
  | @bread b k k' t t' _ ih =>
    rw [Prog.run, Prog.run, onDevice_bind, onDevice_bind]
    cases D.bread b s with
    | ok d s' => exact ih d s'
    | error e s' => exact .error
  | @store b d k k' t t' _ ih =>
    rw [Prog.run, Prog.run, onDevice_bind, onDevice_bind]
    cases D.store b d s with
    | ok u s' => exact ih s'
    | error e s' => exact .error
  | @brelse b k k' t t' _ ih =>
    rw [Prog.run, Prog.run, onDevice_bind, onDevice_bind]
    cases D.brelse b s with
    | ok u s' => exact ih s'
    | error e s' => exact .error
  | stop => exact .error

end Alike

end Xv6.Lib
