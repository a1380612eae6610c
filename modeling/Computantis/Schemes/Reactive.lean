import Computantis.Schemes.Machine
import Mathlib.Data.List.Forall2

/-! @scheme reactive | name:Machines that answer | family:transition

    A reactive machine answers every event. Two of them are compared by a relation between their states
    that every event keeps while the answers agree (`simulates`). -/

namespace Schemes

variable {σ τ ε ω ω' : Type}

/-- The state after a list of events. -/
def reach (step : σ → ε → σ × ω) (s : σ) (es : List ε) : σ := run (fun s e => (step s e).1) s es

/-- The answers to a list of events. -/
def answers (step : σ → ε → σ × ω) : σ → List ε → List ω
  | _, [] => []
  | s, e :: es => (step s e).2 :: answers step (step s e).1 es

@[simp] theorem reach_nil (step : σ → ε → σ × ω) (s : σ) : reach step s [] = s := rfl

@[simp] theorem reach_cons (step : σ → ε → σ × ω) (s : σ) (e : ε) (es : List ε) :
    reach step s (e :: es) = reach step (step s e).1 es := rfl

theorem answers_append (step : σ → ε → σ × ω) (es fs : List ε) : ∀ s : σ,
    answers step s (es ++ fs) = answers step s es ++ answers step (reach step s es) fs := by
  induction es with
  | nil => exact fun _ => rfl
  | cons e es ih =>
    intro s
    rw [List.cons_append, answers, ih, answers, reach_cons, List.cons_append]

theorem answers_length (step : σ → ε → σ × ω) (es : List ε) : ∀ s : σ,
    (answers step s es).length = es.length := by
  induction es with
  | nil => exact fun _ => rfl
  | cons e es ih =>
    intro s
    rw [answers, List.length_cons, List.length_cons, ih]

/-- DELETION: the answers to all other events are those without the event, exactly when the rest is
    answered alike in the state before it and in the state after it. -/
theorem answers_without_iff (step : σ → ε → σ × ω) (s : σ) (es : List ε) (e : ε) (fs : List ε) :
    (answers step s (es ++ e :: fs)).eraseIdx es.length = answers step s (es ++ fs) ↔
      answers step (step (reach step s es) e).1 fs = answers step (reach step s es) fs := by
  have hlen := answers_length step es s
  rw [answers_append, answers_append, answers, List.eraseIdx_append_of_length_le (Nat.le_of_eq hlen), hlen,
    Nat.sub_self, List.eraseIdx_cons_zero, List.append_cancel_left_eq]

theorem simulates {step : σ → ε → σ × ω} {step' : τ → ε → τ × ω'} {R : σ → τ → Prop} {A : ω → ω' → Prop}
    (hstep : ∀ s t e, R s t → R (step s e).1 (step' t e).1 ∧ A (step s e).2 (step' t e).2) (es : List ε) :
    ∀ {s : σ} {t : τ}, R s t →
      R (reach step s es) (reach step' t es) ∧ List.Forall₂ A (answers step s es) (answers step' t es) := by
  induction es with
  | nil => exact fun h => ⟨h, .nil⟩
  | cons e es ih =>
    intro s t h
    obtain ⟨hR, hA⟩ := hstep s t e h
    obtain ⟨hreach, hanswers⟩ := ih hR
    exact ⟨hreach, .cons hA hanswers⟩

end Schemes
