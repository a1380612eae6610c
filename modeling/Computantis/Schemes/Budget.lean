import Computantis.Schemes.Machine
import Mathlib.Algebra.GroupWithZero.Nat
import Mathlib.Algebra.Order.BigOperators.Group.List
import Mathlib.Algebra.Order.Ring.Nat

/-! @scheme budget | name:Steps that are paid for | family:measure

    Every step costs something and may be given something. If the cost and what is put aside after the step are
    covered by what was put aside before and what the step is given, then a whole run costs no more than it is
    given on top of what was put aside in the beginning (`run_budget`).

    A thing of rank `k` that is used up and leaves at most `d` things of lower rank behind is paid for in
    advance with `cascade d k`, for it cannot cause more than `1 + d + … + d ^ k` such uses. -/

namespace Schemes

variable {σ ε α : Type}

/-- A quantity added up along a run. -/
def total (step : σ → ε → σ) (f : σ → ε → ℕ) : σ → List ε → ℕ
  | _, [] => 0
  | s, e :: es => f s e + total step f (step s e) es

theorem run_budget {step : σ → ε → σ} {I : σ → Prop} {P : ε → Prop} {put : σ → ℕ} {cost given : σ → ε → ℕ}
    (hkeep : ∀ s e, P e → I s → I (step s e))
    (hstep : ∀ s e, P e → I s → cost s e + put (step s e) ≤ put s + given s e) :
    ∀ {es : List ε} {s : σ}, (∀ e ∈ es, P e) → I s →
      total step cost s es + put (run step s es) ≤ put s + total step given s es := by
  intro es
  induction es with
  | nil => exact fun _ _ => by simp [total]
  | cons e es ih =>
    intro s hP hI
    obtain ⟨he, hes⟩ := List.forall_mem_cons.mp hP
    have hone := hstep s e he hI
    have hrest := ih hes (hkeep s e he hI)
    rw [run_cons, total, total]
    omega

theorem total_eq_count {step : σ → ε → σ} (p : ε → Bool) (c : ℕ) : ∀ (es : List ε) (s : σ),
    total step (fun _ e => if p e then c else 0) s es = es.countP p * c
  | [], _ => by simp [total]
  | e :: es, s => by
    rw [total, total_eq_count p c es, List.countP_cons]
    split
    · rw [Nat.add_mul, Nat.one_mul, Nat.add_comm]
    · rw [Nat.zero_add, Nat.add_zero]

theorem total_add (step : σ → ε → σ) (f g : σ → ε → ℕ) : ∀ (es : List ε) (s : σ),
    total step (fun s e => f s e + g s e) s es = total step f s es + total step g s es
  | [], _ => rfl
  | e :: es, s => by
    rw [total, total, total, total_add step f g es]
    omega

/-- All uses that a thing of rank `k` may cause: `1 + d + … + d ^ k`. -/
def cascade (d : ℕ) : ℕ → ℕ
  | 0 => 1
  | k + 1 => 1 + d * cascade d k

theorem cascade_pos (d k : ℕ) : 1 ≤ cascade d k := by
  cases k with
  | zero => exact Nat.le_refl 1
  | succ k => exact Nat.le_add_right ..

theorem cascade_mono (d : ℕ) : Monotone (cascade d) := by
  refine monotone_nat_of_le_succ fun k => ?_
  induction k with
  | zero => exact cascade_pos d 1
  | succ k ih => exact Nat.add_le_add_left (Nat.mul_le_mul_left d ih) 1

theorem sum_cascade_le {d k : ℕ} (rank : α → ℕ) {xs : List α} (hlen : xs.length ≤ d)
    (hrank : ∀ x ∈ xs, rank x ≤ k) : (xs.map fun x => cascade d (rank x)).sum ≤ d * cascade d k := by
  have hall : ∀ n ∈ xs.map (fun x => cascade d (rank x)), n ≤ cascade d k := by
    intro n hn
    obtain ⟨x, hx, rfl⟩ := List.mem_map.mp hn
    exact cascade_mono d (hrank x hx)
  have hsum : (xs.map fun x => cascade d (rank x)).sum ≤ xs.length * cascade d k := by
    have := List.sum_le_card_nsmul _ _ hall
    rwa [List.length_map, Nat.nsmul_eq_mul] at this
  exact hsum.trans (Nat.mul_le_mul_right _ hlen)

theorem sum_cascade_lt {d k : ℕ} (rank : α → ℕ) {xs : List α} (hlen : xs.length ≤ d)
    (hrank : ∀ x ∈ xs, rank x < k) : 1 + (xs.map fun x => cascade d (rank x)).sum ≤ cascade d k := by
  cases k with
  | zero =>
    have hnil : xs = [] := List.eq_nil_iff_forall_not_mem.mpr fun x hx => absurd (hrank x hx) (Nat.not_lt_zero _)
    simp [hnil, cascade]
  | succ k =>
    exact Nat.add_le_add_left (sum_cascade_le rank hlen fun x hx => Nat.le_of_lt_succ (hrank x hx)) 1

end Schemes
