import Computantis.Schemes.Machine
import Mathlib.Order.Defs.PartialOrder
import Mathlib.Logic.Function.Basic

/-! @scheme lease | name:A table of leases | family:transition

    A table holds one value under each key, and every value has a deadline. A grant replaces the value of its
    key; a sweep drops what is past its deadline, whenever somebody comes to it. To the reader, who checks the
    deadline as well, no sweep makes a difference: what is live is the last grant, if it is not overdue. -/

namespace Schemes.Lease

variable {κ α τ : Type}

/-- What happens to a table; an idle event is one of its surroundings. -/
inductive Act (κ α τ : Type) where
  | grant (k : κ) (a : α)
  | sweep (now : τ)
  | idle

/-- The values that are not past their deadline. -/
def sweep [LE τ] [DecidableLE τ] (deadline : α → τ) (now : τ) (table : κ → Option α) : κ → Option α :=
  fun k => (table k).filter fun a => decide (now ≤ deadline a)

variable [DecidableEq κ]

def act [LE τ] [DecidableLE τ] (deadline : α → τ) (table : κ → Option α) : Act κ α τ → κ → Option α
  | .grant k a => Function.update table k (some a)
  | .sweep now => sweep deadline now table
  | .idle => table

/-- The last grant of the key. -/
def last (k : κ) (acts : List (Act κ α τ)) : Option α :=
  acts.foldl (fun found e => match e with
    | .grant k' a => if k' = k then some a else found
    | _ => found) none

theorem last_concat (k : κ) (acts : List (Act κ α τ)) (e : Act κ α τ) :
    last k (acts ++ [e]) = match e with
      | .grant k' a => if k' = k then some a else last k acts
      | _ => last k acts := by
  rw [last, List.foldl_append]
  rfl

theorem last_eq_some_iff {k : κ} {a : α} {acts : List (Act κ α τ)} :
    last k acts = some a ↔ ∃ before after, acts = before ++ .grant k a :: after ∧ ∀ b, .grant k b ∉ after := by
  induction acts using List.reverseRecOn with
  | nil => simp [last]
  | append_singleton acts e ih =>
    rw [last_concat]
    -- an event that is no grant of the key goes behind the last one
    have hskip (he : ∀ b, e ≠ .grant k b) : last k acts = some a ↔
        ∃ before after, acts ++ [e] = before ++ .grant k a :: after ∧ ∀ b, .grant k b ∉ after := by
      rw [ih]
      constructor
      · rintro ⟨before, after, rfl, hafter⟩
        refine ⟨before, after ++ [e], by simp, fun b hb => ?_⟩
        rcases List.mem_append.mp hb with hb | hb
        · exact hafter b hb
        · exact he b (List.mem_singleton.mp hb).symm
      · rintro ⟨before, after, heq, hafter⟩
        rcases List.eq_nil_or_concat after with rfl | ⟨after, f, rfl⟩
        · exact absurd (List.append_inj' heq rfl).2 (by simpa using he a)
        · rw [List.concat_eq_append, ← List.cons_append, ← List.append_assoc] at heq
          have hacts := (List.append_inj' heq rfl).1
          exact ⟨before, after, hacts, fun b hb => hafter b (by simp [hb])⟩
    cases e with
    | grant k' b =>
      by_cases hk : k' = k
      · subst hk
        simp only [if_true, Option.some.injEq]
        constructor
        · rintro rfl
          exact ⟨acts, [], rfl, fun _ h => (List.not_mem_nil h)⟩
        · rintro ⟨before, after, heq, hafter⟩
          rcases List.eq_nil_or_concat after with rfl | ⟨after, f, rfl⟩
          · simpa using (List.append_inj' heq rfl).2
          · rw [List.concat_eq_append, ← List.cons_append, ← List.append_assoc] at heq
            have hf := (List.append_inj' heq rfl).2
            simp only [List.cons.injEq, and_true] at hf
            exact absurd (by simp [← hf]) (hafter b)
      · simp only [if_neg hk]
        exact hskip fun _ h => hk (by cases h; rfl)
    | sweep now => exact hskip fun _ h => nomatch h
    | idle => exact hskip fun _ h => nomatch h

variable [Preorder τ] [DecidableLE τ] (deadline : α → τ)

omit [DecidableEq κ] in
theorem sweep_sweep {then' now : τ} (h : then' ≤ now) (table : κ → Option α) :
    sweep deadline now (sweep deadline then' table) = sweep deadline now table := by
  funext k
  unfold sweep
  cases table k with
  | none => rfl
  | some a =>
    by_cases hnow : now ≤ deadline a
    · simp [Option.filter, hnow, le_trans h hnow]
    · by_cases hthen : then' ≤ deadline a <;> simp [Option.filter, hnow, hthen]

theorem live_run {acts : List (Act κ α τ)} {now : τ} (hacts : ∀ t, .sweep t ∈ acts → t ≤ now) (k : κ) :
    sweep deadline now (run (act deadline) (fun _ => none) acts) k =
      (last k acts).filter fun a => decide (now ≤ deadline a) := by
  induction acts using List.reverseRecOn with
  | nil => rfl
  | append_singleton acts e ih =>
    have ih := ih fun t ht => hacts t (List.mem_append_left _ ht)
    rw [run_append, run_cons, run_nil, last_concat]
    cases e with
    | grant k' a =>
      by_cases hk : k' = k
      · subst hk
        simp [act, sweep]
      · simp only [if_neg hk, ← ih]
        simp [act, sweep, Function.update_of_ne (Ne.symm hk)]
    | sweep t =>
      simp only [act]
      rw [sweep_sweep deadline (hacts t (by simp))]
      exact ih
    | idle => exact ih

end Schemes.Lease
