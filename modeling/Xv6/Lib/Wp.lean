import Mathlib

namespace Xv6.Lib

/-!
# Library — weakest preconditions for stateful programs that may stop

A program `m : EStateM ε σ α` returns a value in a new state, or stops with an error in the
state it had reached.  `wp m Q E s` says that `m`, started in `s`, returns with `Q` or stops
with `E`.

* `wp_bind`, `wp_pure`, `wp_throw`, `wp_ite` — the rules for the program constructs;
* `wp_mono` — the rule of consequence;
* `forUpTo` / `wp_forUpTo` — a counted loop and its rule, with an invariant indexed by the
  counter.
-/

variable {ε σ α β : Type}

/-- `m` started in `s` returns with `Q` or stops with `E`. -/
def wp (m : EStateM ε σ α) (Q : α → σ → Prop) (E : ε → σ → Prop) (s : σ) : Prop :=
  match m s with
  | .ok a s' => Q a s'
  | .error e s' => E e s'

variable {Q Q' : α → σ → Prop} {E E' : ε → σ → Prop} {s s' : σ}

theorem wp_of_ok {m : EStateM ε σ α} {a : α} (h : m s = .ok a s') : wp m Q E s ↔ Q a s' := by
  rw [wp, h]

theorem wp_of_error {m : EStateM ε σ α} {e : ε} (h : m s = .error e s') :
    wp m Q E s ↔ E e s' := by
  rw [wp, h]

/-- What is known about a program that returned. -/
theorem wp_ok {m : EStateM ε σ α} {a : α} (h : wp m Q E s) (hm : m s = .ok a s') : Q a s' :=
  (wp_of_ok hm).mp h

theorem wp_error {m : EStateM ε σ α} {e : ε} (h : wp m Q E s) (hm : m s = .error e s') : E e s' :=
  (wp_of_error hm).mp h

/-- A program that never stops returns. -/
theorem wp_returns {m : EStateM ε σ α} (h : wp m Q (fun _ _ => False) s) :
    ∃ a s', m s = .ok a s' ∧ Q a s' := by
  rw [wp] at h
  cases hm : m s with
  | ok a s' =>
    rw [hm] at h
    exact ⟨a, s', rfl, h⟩
  | error e s' =>
    rw [hm] at h
    exact h.elim

theorem wp_mono {m : EStateM ε σ α} (h : wp m Q E s) (hQ : ∀ a s', Q a s' → Q' a s')
    (hE : ∀ e s', E e s' → E' e s') : wp m Q' E' s := by
  rw [wp] at h ⊢
  cases hm : m s with
  | ok a s' => rw [hm] at h; exact hQ a s' h
  | error e s' => rw [hm] at h; exact hE e s' h

theorem wp_and {m : EStateM ε σ α} (h : wp m Q E s) (h' : wp m Q' E' s) :
    wp m (fun a s' => Q a s' ∧ Q' a s') (fun e s' => E e s' ∧ E' e s') s := by
  rw [wp] at h h' ⊢
  cases hm : m s with
  | ok a s' =>
    rw [hm] at h h'
    exact ⟨h, h'⟩
  | error e s' =>
    rw [hm] at h h'
    exact ⟨h, h'⟩

@[simp] theorem wp_pure (a : α) : wp (pure a : EStateM ε σ α) Q E s ↔ Q a s := Iff.rfl

@[simp] theorem wp_throw (e : ε) : wp (throw e : EStateM ε σ α) Q E s ↔ E e s := Iff.rfl

@[simp] theorem wp_modify {Q : Unit → σ → Prop} (f : σ → σ) :
    wp (modify f : EStateM ε σ Unit) Q E s ↔ Q ⟨⟩ (f s) := Iff.rfl

@[simp] theorem wp_get {Q : σ → σ → Prop} : wp (get : EStateM ε σ σ) Q E s ↔ Q s s := Iff.rfl

@[simp] theorem wp_set {Q : PUnit → σ → Prop} (t : σ) :
    wp (set t : EStateM ε σ PUnit) Q E s ↔ Q ⟨⟩ t := Iff.rfl

theorem bind_ok {m : EStateM ε σ α} {f : α → EStateM ε σ β} {a : α} (h : m s = .ok a s') :
    (m >>= f) s = f a s' := by
  show EStateM.bind m f s = _
  rw [EStateM.bind, h]

theorem bind_error {m : EStateM ε σ α} {f : α → EStateM ε σ β} {e : ε} (h : m s = .error e s') :
    (m >>= f) s = .error e s' := by
  show EStateM.bind m f s = _
  rw [EStateM.bind, h]

@[simp] theorem wp_bind {m : EStateM ε σ α} {f : α → EStateM ε σ β} {Q : β → σ → Prop} :
    wp (m >>= f) Q E s ↔ wp m (fun a s' => wp (f a) Q E s') E s := by
  cases hm : m s with
  | ok a s' => rw [wp, bind_ok hm, wp_of_ok hm, wp]
  | error e s' => rw [wp, bind_error hm, wp_of_error hm]

/-- Both parts of a sequence that returned have returned. -/
theorem bind_eq_ok_state {m : EStateM ε σ α} {f : α → EStateM ε σ β} {b : β} :
    (m >>= f) s = .ok b s' ↔ ∃ a t, m s = .ok a t ∧ f a t = .ok b s' := by
  cases hm : m s with
  | ok a t => rw [bind_ok hm]; simp
  | error e t => rw [bind_error hm]; simp

/-- Does `m` return when it is started in `s`? -/
def returns (m : EStateM ε σ α) (s : σ) : Bool :=
  match m s with
  | .ok _ _ => true
  | .error _ _ => false

theorem exists_ok_of_returns {m : EStateM ε σ α} (h : returns m s = true) :
    ∃ a s', m s = .ok a s' := by
  rw [returns] at h
  split at h
  · exact ⟨_, _, ‹_›⟩
  · cases h

theorem wp_ite {c : Prop} [Decidable c] {m m' : EStateM ε σ α} (h : c → wp m Q E s)
    (h' : ¬ c → wp m' Q E s) : wp (if c then m else m') Q E s := by
  split
  · exact h ‹_›
  · exact h' ‹_›

/-- `for (i = 0; i < n; i++) f(i)`. -/
def forUpTo : Nat → (Nat → EStateM ε σ Unit) → EStateM ε σ Unit
  | 0, _ => pure ()
  | n + 1, f => do forUpTo n f; f n

/-- A counted loop: the invariant `I i` holds before round `i`. -/
theorem wp_forUpTo {n : Nat} {f : Nat → EStateM ε σ Unit} {I : Nat → σ → Prop} (h0 : I 0 s)
    (hstep : ∀ i s, i < n → I i s → wp (f i) (fun _ s' => I (i + 1) s') E s) :
    wp (forUpTo n f) (fun _ s' => I n s') E s := by
  induction n with
  | zero => exact h0
  | succ n ih =>
    have ih' := ih fun i s hi => hstep i s (by omega)
    rw [forUpTo, wp_bind]
    exact wp_mono ih' (fun _ s' hs => hstep n s' (by omega) hs) fun _ _ h => h

end Xv6.Lib
