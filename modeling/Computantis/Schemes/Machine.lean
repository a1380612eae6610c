import Mathlib.Data.List.Induction
import Mathlib.Tactic.Common

/-! @scheme machine | name:Runs of a deterministic machine | family:transition

    A machine is a step function on a state and an event; everything the environment decides is in
    the event. `run` folds the step over a list of events. The rules below turn a fact about one
    step into a fact about every run: `run_invariant` for steps from any state, `run_invariant_along`
    for runs each of whose steps meets a condition on the state before it and its event, and `run_history`
    for facts about the events so far. -/

namespace Schemes

variable {σ ε : Type} (step : σ → ε → σ)

/-- The state after a list of events. -/
def run (s : σ) (es : List ε) : σ := es.foldl step s

@[simp] theorem run_nil (s : σ) : run step s [] = s := rfl

@[simp] theorem run_cons (s : σ) (e : ε) (es : List ε) : run step s (e :: es) = run step (step s e) es := rfl

theorem run_append (s : σ) (es fs : List ε) : run step s (es ++ fs) = run step (run step s es) fs :=
  List.foldl_append ..

/-- Every step of the run meets the condition `P`. -/
def Along (P : σ → ε → Prop) : σ → List ε → Prop
  | _, [] => True
  | s, e :: es => P s e ∧ Along P (step s e) es

instance decidableAlong (P : σ → ε → Prop) [∀ s e, Decidable (P s e)] :
    ∀ (s : σ) (es : List ε), Decidable (Along step P s es)
  | _, [] => isTrue trivial
  | s, e :: es =>
    have := decidableAlong P (step s e) es
    inferInstanceAs (Decidable (P s e ∧ Along step P (step s e) es))

variable {step} {P Q : σ → ε → Prop} {s : σ} {I : σ → Prop}

theorem run_invariant_along (hstep : ∀ s e, P s e → I s → I (step s e)) {es : List ε} (hP : Along step P s es)
    (h : I s) : I (run step s es) := by
  induction es generalizing s with
  | nil => exact h
  | cons e es ih => exact ih hP.2 (hstep s e hP.1 h)

theorem run_invariant (hstep : ∀ s e, I s → I (step s e)) (es : List ε) (h : I s) : I (run step s es) := by
  induction es generalizing s with
  | nil => exact h
  | cons e es ih => exact ih (hstep s e h)

/-- INDUCTION over the history: what holds of no events and the start, and is kept by one event more, holds
    of every list of events and the state after it. -/
theorem run_history {I : List ε → σ → Prop} (h : I [] s)
    (hstep : ∀ es e, I es (run step s es) → I (es ++ [e]) (step (run step s es) e)) (es : List ε) :
    I es (run step s es) := by
  induction es using List.reverseRecOn with
  | nil => exact h
  | append_singleton es e ih =>
    rw [run_append]
    exact hstep es e ih

theorem along_of_always : ∀ {es : List ε}, (∀ e ∈ es, ∀ s, P s e) → ∀ s : σ,
    Along step P s es
  | [], _, _ => trivial
  | e :: _, h, s => ⟨h e (List.mem_cons_self ..) s,
      along_of_always (fun f hf => h f (List.mem_cons_of_mem _ hf)) (step s e)⟩

theorem along_of_forall {P : ε → Prop} {es : List ε} (h : ∀ e ∈ es, P e) (s : σ) :
    Along step (fun _ e => P e) s es := along_of_always (fun e he _ => h e he) s

theorem Along.and : ∀ {s : σ} {es : List ε}, Along step P s es →
    Along step Q s es → Along step (fun s e => P s e ∧ Q s e) s es
  | _, [], _, _ => trivial
  | _, _ :: _, hP, hQ => ⟨⟨hP.1, hQ.1⟩, hP.2.and hQ.2⟩

theorem Along.mono (h : ∀ s e, P s e → Q s e) : ∀ {s : σ} {es : List ε},
    Along step P s es → Along step Q s es
  | _, [], _ => trivial
  | s, e :: _, hP => ⟨h s e hP.1, hP.2.mono h⟩

theorem Along.append : ∀ {s : σ} {es fs : List ε}, Along step P s es →
    Along step P (run step s es) fs → Along step P s (es ++ fs)
  | _, [], _, _, hf => hf
  | _, _ :: _, _, he, hf => ⟨he.1, he.2.append hf⟩

theorem Along.append_left : ∀ {s : σ} {es fs : List ε},
    Along step P s (es ++ fs) → Along step P s es
  | _, [], _, _ => trivial
  | _, _ :: _, _, h => ⟨h.1, h.2.append_left⟩

end Schemes
