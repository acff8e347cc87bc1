import Mathlib

namespace Xv6.Lib

/-!
# Library — runs of a transition system

A system is a step function `step : σ → ε → Except E σ` over states `σ` and labels `ε`; an
error means that the step does not lead to a further state.

* `Steps step G` — one step whose label meets the guard `G` in the state before it;
* `Reachable init R` — the states of all runs that start in `init`;
* `Reachable.invariant` — the induction rule: what holds initially and is kept by every step
  holds in every reachable state;
* `exec` / `reachable_exec` — running a given list of labels reaches a state;
* `execTest` / `reachTest` — decidable tests of the state at the end of such a run;
* `foldlM_ok` / `foldlM_invariant` — the same rule for a loop over a list inside one step.
-/

variable {σ ε E : Type*}

/-! ### Sequencing -/

@[simp] theorem ok_bind {α β : Type _} (a : α) (f : α → Except E β) :
    (Except.ok a >>= f) = f a := rfl

@[simp] theorem error_bind {α β : Type _} (e : E) (f : α → Except E β) :
    ((Except.error e : Except E α) >>= f) = .error e := rfl

theorem bind_of_ok {α β : Type _} {x : Except E α} {a : α} (h : x = .ok a) (f : α → Except E β) :
    (x >>= f) = f a := by
  rw [h, ok_bind]

/-- Both parts of a sequence that succeeds succeed. -/
theorem bind_eq_ok {α β : Type _} {x : Except E α} {f : α → Except E β} {b : β} :
    (x >>= f) = .ok b ↔ ∃ a, x = .ok a ∧ f a = .ok b := by
  cases x with
  | error e => simp
  | ok a => simp

/-! ### Runs -/

/-- One step of `step` with a label that meets the guard. -/
def Steps (step : σ → ε → Except E σ) (G : σ → ε → Prop) (s t : σ) : Prop :=
  ∃ e, G s e ∧ step s e = .ok t

/-- The states of all runs of `R` that start in a state of `init`. -/
inductive Reachable (init : σ → Prop) (R : σ → σ → Prop) : σ → Prop
  | start {s : σ} : init s → Reachable init R s
  | step {s t : σ} : Reachable init R s → R s t → Reachable init R t

variable {init : σ → Prop} {R R' : σ → σ → Prop}

/-- What holds initially and is kept by every step holds in every reachable state. -/
theorem Reachable.invariant {I : σ → Prop} {s : σ} (h : Reachable init R s)
    (hinit : ∀ s, init s → I s) (hstep : ∀ s t, I s → R s t → I t) : I s := by
  induction h with
  | start h0 => exact hinit _ h0
  | step _ hr ih => exact hstep _ _ ih hr

/-- Fewer steps reach fewer states. -/
theorem Reachable.mono {s : σ} (h : Reachable init R s) (hR : ∀ s t, R s t → R' s t) :
    Reachable init R' s := by
  induction h with
  | start h0 => exact .start h0
  | step _ hr ih => exact .step ih (hR _ _ hr)

/-- Run a list of labels. -/
def exec (step : σ → ε → Except E σ) : σ → List ε → Except E σ
  | s, [] => .ok s
  | s, e :: es => (step s e).bind fun t => exec step t es

theorem exec_cons_eq_ok {step : σ → ε → Except E σ} {s t : σ} {e : ε} {es : List ε} :
    exec step s (e :: es) = .ok t ↔ ∃ u, step s e = .ok u ∧ exec step u es = .ok t := bind_eq_ok

theorem exec_append (step : σ → ε → Except E σ) (s : σ) (es fs : List ε) :
    exec step s (es ++ fs) = (exec step s es).bind fun t => exec step t fs := by
  induction es generalizing s with
  | nil => rfl
  | cons e es ih =>
    rw [List.cons_append, exec, exec]
    cases step s e with
    | error e => rfl
    | ok t => exact ih t

/-- A run whose labels all meet the guard ends in a reachable state. -/
theorem reachable_exec {step : σ → ε → Except E σ} {G : σ → ε → Prop} {s t : σ} {es : List ε}
    (hs : Reachable init (Steps step G) s) (hG : ∀ s, ∀ e ∈ es, G s e)
    (he : exec step s es = .ok t) : Reachable init (Steps step G) t := by
  induction es generalizing s with
  | nil => cases he; exact hs
  | cons e es ih =>
    rw [exec] at he
    cases hst : step s e with
    | error x => rw [hst] at he; cases he
    | ok u =>
      rw [hst] at he
      have hu : Reachable init (Steps step G) u :=
        hs.step ⟨e, hG s e (by simp), hst⟩
      exact ih hu (fun s e' he' => hG s e' (by simp [he'])) he

/-- Does the run of the labels succeed and end in a state that passes the test? -/
def execTest (step : σ → ε → Except E σ) (s : σ) (es : List ε) (p : σ → Bool) : Bool :=
  match exec step s es with
  | .ok t => p t
  | .error _ => false

theorem exec_of_execTest (step : σ → ε → Except E σ) (s : σ) (es : List ε) (p : σ → Bool)
    (h : execTest step s es p = true) : ∃ t, exec step s es = .ok t ∧ p t = true := by
  rw [execTest] at h
  split at h
  · exact ⟨_, ‹_›, h⟩
  · cases h

/-- Does the run of the labels succeed, with labels that all meet the guard, and end in a state
    that passes the test? -/
def reachTest (step : σ → ε → Except E σ) (G : σ → ε → Prop) [∀ s e, Decidable (G s e)]
    (p : σ → Bool) : σ → List ε → Bool
  | s, [] => p s
  | s, e :: es => decide (G s e) &&
    match step s e with
    | .ok t => reachTest step G p t es
    | .error _ => false

theorem reachable_of_reachTest (step : σ → ε → Except E σ) (G : σ → ε → Prop)
    [∀ s e, Decidable (G s e)] (p : σ → Bool) {s : σ} (es : List ε)
    (hs : Reachable init (Steps step G) s) (h : reachTest step G p s es = true) :
    ∃ t, Reachable init (Steps step G) t ∧ p t = true := by
  induction es generalizing s with
  | nil => exact ⟨s, hs, h⟩
  | cons e es ih =>
    rw [reachTest, Bool.and_eq_true, decide_eq_true_eq] at h
    obtain ⟨hG, h⟩ := h
    split at h
    · rename_i t ht
      exact ih (hs.step ⟨e, hG, ht⟩) h
    · cases h

/-! ### Loops -/

/-- A loop whose body keeps `I`, and succeeds from `I` on all items of the list, succeeds and keeps `I`. -/
theorem foldlM_ok_of_mem {α : Type*} {I : σ → Prop} {f : σ → α → Except E σ} {xs : List α}
    (hf : ∀ s, ∀ a ∈ xs, I s → ∃ t, f s a = .ok t ∧ I t) {s : σ} (hs : I s) :
    ∃ t, xs.foldlM f s = .ok t ∧ I t := by
  induction xs generalizing s with
  | nil => exact ⟨s, rfl, hs⟩
  | cons a xs ih =>
    obtain ⟨u, hu, hIu⟩ := hf s a List.mem_cons_self hs
    obtain ⟨t, ht, hIt⟩ := ih (fun s b hb => hf s b (List.mem_cons_of_mem a hb)) hIu
    refine ⟨t, ?_, hIt⟩
    rw [List.foldlM_cons, hu]
    exact ht

/-- A loop whose body keeps `I` and always succeeds from `I` succeeds and keeps `I`. -/
theorem foldlM_ok {α : Type*} {I : σ → Prop} {f : σ → α → Except E σ}
    (hf : ∀ s a, I s → ∃ t, f s a = .ok t ∧ I t) (xs : List α) {s : σ} (hs : I s) :
    ∃ t, xs.foldlM f s = .ok t ∧ I t := foldlM_ok_of_mem (fun s a _ => hf s a) hs

/-- A loop whose body establishes `P` for its own item and keeps it for all other ones establishes it
    for all items. -/
theorem foldlM_each {α : Type*} {P : σ → α → Prop} {f : σ → α → Except E σ} {xs : List α}
    (hself : ∀ s, ∀ a ∈ xs, ∀ t, f s a = .ok t → P t a)
    (hkeep : ∀ s, ∀ a ∈ xs, ∀ t b, f s a = .ok t → P s b → P t b) {s t : σ}
    (ht : xs.foldlM f s = .ok t) :
    (∀ a ∈ xs, P t a) ∧ ∀ b, P s b → P t b := by
  induction xs generalizing s with
  | nil =>
    cases ht
    exact ⟨by simp, fun _ h => h⟩
  | cons a xs ih =>
    rw [List.foldlM_cons] at ht
    obtain ⟨u, hu, ht⟩ := bind_eq_ok.mp ht
    obtain ⟨hall, hold⟩ := ih (fun s b hb => hself s b (by simp [hb]))
      (fun s b hb => hkeep s b (by simp [hb])) ht
    refine ⟨?_, fun b hb => hold b (hkeep s a (by simp) u b hu hb)⟩
    rintro b (_ | ⟨_, hb⟩)
    · exact hold a (hself s a (by simp) u hu)
    · exact hall b hb

/-- A loop whose body keeps `I` when it succeeds keeps `I` when it succeeds. -/
theorem foldlM_invariant {α : Type*} {I : σ → Prop} {f : σ → α → Except E σ}
    (hf : ∀ s a t, I s → f s a = .ok t → I t) {xs : List α} {s t : σ} (hs : I s)
    (ht : xs.foldlM f s = .ok t) : I t := by
  induction xs generalizing s with
  | nil => cases ht; exact hs
  | cons a xs ih =>
    rw [List.foldlM_cons] at ht
    cases hu : f s a with
    | error e => rw [hu] at ht; cases ht
    | ok u =>
      rw [hu] at ht
      exact ih (hf s a u hs hu) ht

end Xv6.Lib
