import Mathlib.Data.List.Basic
import Mathlib.Tactic.Common

/-! @scheme observed | name:Runs that are watched | family:transition

    A step may end the machine for good, and may be seen from outside or not. Two machines are compared by what
    is seen of them: one simulates the other if it can answer each step with some steps of its own that show
    the same (`observe_simulates`). What is in the state and what has been seen are related by an invariant of
    both (`observe_history`). -/

namespace Schemes

variable {σ τ ε φ ω : Type}

/-- The state after a list of events and what was seen, unless the machine has ended. -/
def observe (step : σ → ε → Option (σ × Option ω)) : σ → List ε → Option (σ × List ω)
  | s, [] => some (s, [])
  | s, e :: es =>
    match step s e with
    | none => none
    | some (s', o) =>
      match observe step s' es with
      | none => none
      | some (s'', os) => some (s'', o.toList ++ os)

section Runs

variable {step : σ → ε → Option (σ × Option ω)}

theorem observe_cons {s s'' : σ} {e : ε} {es : List ε} {os : List ω} :
    observe step s (e :: es) = some (s'', os) ↔ ∃ s' o os', step s e = some (s', o) ∧
      observe step s' es = some (s'', os') ∧ os = o.toList ++ os' := by
  rw [observe]
  cases hstep : step s e with
  | none => simp
  | some r =>
    obtain ⟨s', o⟩ := r
    simp only [Option.some.injEq, Prod.mk.injEq]
    cases hrest : observe step s' es with
    | none =>
      simp only [reduceCtorEq, false_iff]
      rintro ⟨t, p, os', ⟨rfl, rfl⟩, hos, -⟩
      rw [hrest] at hos
      cases hos
    | some r =>
      obtain ⟨t, os'⟩ := r
      simp only [Option.some.injEq, Prod.mk.injEq]
      constructor
      · rintro ⟨rfl, rfl⟩
        exact ⟨s', o, os', ⟨rfl, rfl⟩, hrest, rfl⟩
      · rintro ⟨u, p, os'', ⟨rfl, rfl⟩, hos, rfl⟩
        rw [hrest] at hos
        cases hos
        exact ⟨rfl, rfl⟩

theorem observe_append {es fs : List ε} : ∀ {s s' s'' : σ} {os os' : List ω},
    observe step s es = some (s', os) → observe step s' fs = some (s'', os') →
      observe step s (es ++ fs) = some (s'', os ++ os') := by
  induction es with
  | nil =>
    intro s s' s'' os os' h h'
    cases h
    exact h'
  | cons e es ih =>
    intro s s' s'' os os' h h'
    obtain ⟨t, o, os₁, hstep, hrest, rfl⟩ := observe_cons.mp h
    rw [List.append_assoc, List.cons_append]
    exact observe_cons.mpr ⟨t, o, os₁ ++ os', hstep, ih hrest h', rfl⟩

/-- INDUCTION over what is seen: what one step keeps of the state and of what has been seen, a run keeps. -/
theorem observe_history {I : σ → List ω → Prop}
    (hstep : ∀ s os e s' o, I s os → step s e = some (s', o) → I s' (os ++ o.toList)) {es : List ε} :
    ∀ {s s' : σ} {os os' : List ω}, I s os → observe step s es = some (s', os') → I s' (os ++ os') := by
  induction es with
  | nil =>
    intro s s' os os' h hrun
    cases hrun
    rwa [List.append_nil]
  | cons e es ih =>
    intro s s' os os' h hrun
    obtain ⟨t, o, os₁, he, hrest, rfl⟩ := observe_cons.mp hrun
    rw [← List.append_assoc]
    exact ih (hstep s os e t o h he) hrest

theorem observe_invariant {I : σ → Prop} (hstep : ∀ s e s' o, I s → step s e = some (s', o) → I s') {es : List ε}
    {s s' : σ} {os : List ω} (h : I s) (hrun : observe step s es = some (s', os)) : I s' := by
  have hI : ∀ s (os : List ω) e s' o, I s → step s e = some (s', o) → I s' := fun s _ e s' o => hstep s e s' o
  exact @observe_history _ _ _ _ (fun s _ => I s) hI es s s' [] os h hrun

theorem observe_simulates {step' : τ → φ → Option (τ × Option ω)} {R : σ → τ → Prop} {P : ε → Prop} {Q : φ → Prop}
    (hstep : ∀ s t e s' o, P e → R s t → step s e = some (s', o) →
      ∃ fs t', (∀ f ∈ fs, Q f) ∧ observe step' t fs = some (t', o.toList) ∧ R s' t') {es : List ε}
    (hes : ∀ e ∈ es, P e) : ∀ {s s' : σ} {t : τ} {os : List ω}, R s t → observe step s es = some (s', os) →
      ∃ fs t', (∀ f ∈ fs, Q f) ∧ observe step' t fs = some (t', os) ∧ R s' t' := by
  induction es with
  | nil =>
    intro s s' t os hR h
    cases h
    exact ⟨[], t, by simp, rfl, hR⟩
  | cons e es ih =>
    intro s s' t os hR h
    obtain ⟨s₁, o, os₁, he, hrest, rfl⟩ := observe_cons.mp h
    obtain ⟨fs, t₁, hfs, hobs, hR₁⟩ := hstep s t e s₁ o (hes e (List.mem_cons_self ..)) hR he
    obtain ⟨gs, t₂, hgs, hobs', hR₂⟩ := ih (fun f hf => hes f (List.mem_cons_of_mem _ hf)) hR₁ hrest
    refine ⟨fs ++ gs, t₂, fun f hf => ?_, observe_append hobs hobs', hR₂⟩
    rcases List.mem_append.mp hf with hf | hf
    · exact hfs f hf
    · exact hgs f hf

end Runs

end Schemes
