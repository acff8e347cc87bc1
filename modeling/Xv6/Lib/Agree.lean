import Xv6.Lib.Wp

namespace Xv6.Lib

/-!
# Library — programs that agree on some states

Two programs agree on the states with `I` if from such a state they do the same, and return only
into states with `I`.  A part of a program that is never entered from another state can then be
replaced by any part that agrees with it.

* `AgreeOn.bind`, `AgreeOn.forUpTo` — agreement goes through sequences and counted loops;
* `AgreeOn.of_wp` — a program that keeps `I` agrees with itself.
-/

variable {ε σ α β : Type} {I : σ → Prop}

/-- From a state with `I` the programs do the same, and `I` holds again when they return. -/
def AgreeOn (I : σ → Prop) (x y : EStateM ε σ α) : Prop :=
  ∀ s, I s → x s = y s ∧ ∀ a s', x s = .ok a s' → I s'

theorem AgreeOn.of_wp {x : EStateM ε σ α}
    (h : ∀ s, I s → wp x (fun _ s' => I s') (fun _ _ => True) s) : AgreeOn I x x :=
  fun s hs => ⟨rfl, fun _ _ hx => wp_ok (h s hs) hx⟩

/-- What follows a part has to agree only on the states into which the part returns. -/
theorem AgreeOn.bind_eq {x y : EStateM ε σ α} {f g : α → EStateM ε σ β} (h : AgreeOn I x y)
    (hf : ∀ a s, I s → f a s = g a s) {s : σ} (hs : I s) : (x >>= f) s = (y >>= g) s := by
  obtain ⟨hxy, hkeep⟩ := h s hs
  cases hx : x s with
  | ok a s' =>
    rw [bind_ok hx, bind_ok (hxy ▸ hx)]
    exact hf a s' (hkeep a s' hx)
  | error e s' => rw [bind_error hx, bind_error (hxy ▸ hx)]

theorem AgreeOn.bind {x y : EStateM ε σ α} {f g : α → EStateM ε σ β} (h : AgreeOn I x y)
    (hf : ∀ a, AgreeOn I (f a) (g a)) : AgreeOn I (x >>= f) (y >>= g) := by
  intro s hs
  refine ⟨h.bind_eq (fun a s' hs' => (hf a s' hs').1) hs, fun b s'' hb => ?_⟩
  obtain ⟨a, s', hx, hfa⟩ := bind_eq_ok_state.mp hb
  exact (hf a s' ((h s hs).2 a s' hx)).2 b s'' hfa

theorem AgreeOn.forUpTo {n : Nat} {f g : Nat → EStateM ε σ Unit} (h : ∀ i, AgreeOn I (f i) (g i)) :
    AgreeOn I (forUpTo n f) (forUpTo n g) := by
  induction n with
  | zero => exact AgreeOn.of_wp fun _ hs => hs
  | succ n ih => exact ih.bind fun _ => h n

end Xv6.Lib
