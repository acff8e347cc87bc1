import Mathlib

namespace Xv6.Lib

/-!
# Library — systems with visible events

A system has initial states and steps, and a step may show an event to the outside.

* `System.Trace` — a run from an initial state with the events that it has shown;
* `System.ofStep` — the system of a step function with labels, which may fail;
* `Trace.invariant` — the induction rule for runs;
* `runTest` — a decidable test of the events and the state at the end of a run;
* `Simulates` / `Simulates.trace` — forward simulation: what a system shows, a more abstract one that
  simulates it shows as well.
-/

variable {σ τ ω ε E : Type*}

/-- Initial states, and steps with the event that they show, if any. -/
structure System (σ ω : Type*) where
  init : σ → Prop
  step : σ → Option ω → σ → Prop

/-- The system of a step function, with the labels that meet a guard; a step that fails does not lead
    anywhere. -/
def System.ofStep (init : σ → Prop) (step : σ → ε → Except E (Option ω × σ)) (G : σ → ε → Prop) :
    System σ ω where
  init := init
  step s o t := ∃ e, G s e ∧ step s e = .ok (o, t)

/-- A run from an initial state to `s` that shows the events `es`. -/
inductive System.Trace (A : System σ ω) : List ω → σ → Prop
  | start {s : σ} : A.init s → Trace A [] s
  | step {es : List ω} {s t : σ} {o : Option ω} : Trace A es s → A.step s o t →
      Trace A (es ++ o.toList) t

/-- Steps from `s` to `t` that show the events `es`. -/
inductive System.Path (A : System σ ω) (s : σ) : List ω → σ → Prop
  | refl : Path A s [] s
  | step {es : List ω} {t u : σ} {o : Option ω} : Path A s es t → A.step t o u →
      Path A s (es ++ o.toList) u

variable {A : System σ ω} {s t u : σ} {es fs : List ω} {o : Option ω}

theorem System.Path.single (h : A.step s o t) : A.Path s o.toList t := by
  have hstep := System.Path.refl.step h
  rwa [List.nil_append] at hstep

/-- A run goes on along a path. -/
theorem System.Trace.path (h : A.Trace es s) (hp : A.Path s fs t) : A.Trace (es ++ fs) t := by
  induction hp with
  | refl => rwa [List.append_nil]
  | step _ hstep ih =>
    rw [← List.append_assoc]
    exact ih.step hstep

/-- What holds initially and is kept by every step holds in every state that is reached. -/
theorem System.Trace.invariant {I : σ → Prop} (h : A.Trace es s) (hinit : ∀ s, A.init s → I s)
    (hstep : ∀ s o t, I s → A.step s o t → I t) : I s := by
  induction h with
  | start h0 => exact hinit _ h0
  | step _ hs ih => exact hstep _ _ _ ih hs

/-- The same rule for a property of the events and the state. -/
theorem System.Trace.history {I : List ω → σ → Prop} (h : A.Trace es s)
    (hinit : ∀ s, A.init s → I [] s)
    (hstep : ∀ es s o t, I es s → A.step s o t → I (es ++ o.toList) t) : I es s := by
  induction h with
  | start h0 => exact hinit _ h0
  | step _ hs ih => exact hstep _ _ _ _ ih hs

/-- Run a list of labels from `s`, behind the events `es`; do all steps succeed, and do the events and the
    state at the end pass the test? -/
def runTest (step : σ → ε → Except E (Option ω × σ)) (p : List ω → σ → Bool) :
    List ω → σ → List ε → Bool
  | es, s, [] => p es s
  | es, s, x :: xs =>
    match step s x with
    | .ok (o, t) => runTest step p (es ++ o.toList) t xs
    | .error _ => false

/-- A test that is passed has found a run. -/
theorem System.Trace.of_runTest {init : σ → Prop} {step : σ → ε → Except E (Option ω × σ)}
    {G : σ → ε → Prop} {p : List ω → σ → Bool} {xs : List ε}
    (h : (System.ofStep init step G).Trace es s) (hG : ∀ s, ∀ x ∈ xs, G s x)
    (htest : runTest step p es s xs = true) :
    ∃ fs t, (System.ofStep init step G).Trace fs t ∧ p fs t = true := by
  induction xs generalizing es s with
  | nil => exact ⟨es, s, h, htest⟩
  | cons x xs ih =>
    rw [runTest] at htest
    split at htest
    · rename_i o t hstep
      exact ih (h.step ⟨x, hG s x List.mem_cons_self, hstep⟩)
        (fun s y hy => hG s y (List.mem_cons_of_mem x hy)) htest
    · cases htest

/-- Every step of `C` is some steps of `A` that show the same event. -/
structure Simulates (C : System σ ω) (A : System τ ω) (R : σ → τ → Prop) : Prop where
  init : ∀ s, C.init s → ∃ a, A.init a ∧ R s a
  step : ∀ s a o t, R s a → C.step s o t → ∃ b, A.Path a o.toList b ∧ R t b

/-- What a system shows, the system that simulates it shows as well. -/
theorem Simulates.trace {C : System σ ω} {A : System τ ω} {R : σ → τ → Prop} (h : Simulates C A R)
    (hs : C.Trace es s) : ∃ a, A.Trace es a ∧ R s a := by
  induction hs with
  | start h0 =>
    obtain ⟨a, ha, hR⟩ := h.init _ h0
    exact ⟨a, .start ha, hR⟩
  | step _ hstep ih =>
    obtain ⟨a, ha, hR⟩ := ih
    obtain ⟨b, hpath, hR⟩ := h.step _ _ _ _ hR hstep
    exact ⟨b, ha.path hpath, hR⟩

end Xv6.Lib
