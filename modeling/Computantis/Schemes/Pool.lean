import Computantis.Schemes.Machine

/-! @scheme pool | name:Threads over a shared memory | family:transition

    Threads take atomic steps on one memory, in any order; new threads join, and the memory may change
    from outside. `locally_step` is the rule for assertions at the single threads: each step keeps the
    assertion of the thread that takes it, and does not interfere with the assertions of the others. -/

namespace Schemes

variable {μ θ β ε δ : Type}

/-- The memory and the threads, each as what it still has to do. -/
structure Pool (μ θ : Type) where
  shared : μ
  threads : List θ

/-- A thread joins, thread `i` takes its next step, or something happens to the memory. -/
inductive PoolEvent (β ε δ : Type) where
  | spawn (b : β)
  | step (i : ℕ) (e : ε)
  | outside (d : δ)

namespace Pool

/-- `start` is how a thread joins, `act` one step of a thread, `env` what happens from outside. -/
def step (start : β → θ) (act : ε → μ → θ → μ × θ) (env : δ → μ → μ) (p : Pool μ θ) :
    PoolEvent β ε δ → Pool μ θ
  | .spawn b => { p with threads := p.threads ++ [start b] }
  | .step i e =>
    match p.threads[i]? with
    | none => p
    | some t => ⟨(act e p.shared t).1, p.threads.set i (act e p.shared t).2⟩
  | .outside d => { p with shared := env d p.shared }

variable {start : β → θ} {act : ε → μ → θ → μ × θ} {env : δ → μ → μ} {i j : ℕ} {ts : List θ} {t u : θ}

theorem step_of_thread {p : Pool μ θ} (h : p.threads[i]? = some t) (e : ε) :
    p.step start act env (.step i e) = ⟨(act e p.shared t).1, p.threads.set i (act e p.shared t).2⟩ := by
  simp only [step, h]

theorem get_moved (h : (ts.set i t)[j]? = some u) : (j = i ∧ u = t) ∨ (j ≠ i ∧ ts[j]? = some u) := by
  by_cases hij : i = j
  · subst hij
    rw [List.getElem?_set] at h
    simp only [if_true] at h
    split at h
    · cases h
      exact Or.inl ⟨rfl, rfl⟩
    · cases h
  · rw [List.getElem?_set_ne hij] at h
    exact Or.inr ⟨fun heq => hij heq.symm, h⟩

theorem get_other (h : ts[j]? = some u) (hij : j ≠ i) (t : θ) : (ts.set i t)[j]? = some u := by
  rw [List.getElem?_set_ne (Ne.symm hij)]
  exact h

theorem get_self (h : ts[i]? = some u) (t : θ) : (ts.set i t)[i]? = some t := by
  rw [List.getElem?_set_self (List.getElem?_eq_some_iff.mp h).1]

theorem get_joined (h : (ts ++ [t])[j]? = some u) :
    (j = ts.length ∧ u = t) ∨ (j < ts.length ∧ ts[j]? = some u) := by
  rcases Nat.lt_or_ge j ts.length with hj | hj
  · rw [List.getElem?_append_left hj] at h
    exact Or.inr ⟨hj, h⟩
  · rw [List.getElem?_append_right hj] at h
    cases hsub : j - ts.length with
    | zero =>
      rw [hsub] at h
      cases h
      exact Or.inl ⟨by omega, rfl⟩
    | succ n =>
      rw [hsub] at h
      cases h

section Local

variable {I : μ → Prop} {J : μ → θ → Prop} {P : PoolEvent β ε δ → Prop}

theorem locally_step (hact : ∀ e m t, I m → J m t → I (act e m t).1 ∧ J (act e m t).1 (act e m t).2)
    (hother : ∀ e m t u, I m → J m t → J m u → J (act e m t).1 u)
    (hspawn : ∀ m b, P (.spawn b) → I m → J m (start b))
    (henv : ∀ d m, I m → I (env d m) ∧ ∀ t, J m t → J (env d m) t)
    (p : Pool μ θ) (e : PoolEvent β ε δ) (he : P e) (h : I p.shared ∧ ∀ t ∈ p.threads, J p.shared t) :
    I (p.step start act env e).shared ∧
      ∀ t ∈ (p.step start act env e).threads, J (p.step start act env e).shared t := by
  obtain ⟨hI, hJ⟩ := h
  cases e with
  | spawn b =>
    refine ⟨hI, fun u hu => ?_⟩
    rcases List.mem_append.mp hu with hu | hu
    · exact hJ u hu
    · rw [List.mem_singleton.mp hu]
      exact hspawn _ b he hI
  | step i e =>
    cases hi : p.threads[i]? with
    | none =>
      have hsame : p.step start act env (.step i e) = p := by simp only [step, hi]
      rw [hsame]
      exact ⟨hI, hJ⟩
    | some t =>
      have ht : J p.shared t := hJ t (List.mem_of_getElem? hi)
      rw [step_of_thread hi]
      obtain ⟨hI', ht'⟩ := hact e p.shared t hI ht
      refine ⟨hI', fun u hu => ?_⟩
      rcases List.mem_or_eq_of_mem_set hu with hu | rfl
      · exact hother e p.shared t u hI ht (hJ u hu)
      · exact ht'
  | outside d =>
    obtain ⟨hI', hJ'⟩ := henv d p.shared hI
    exact ⟨hI', fun u hu => hJ' u (hJ u hu)⟩

end Local

theorem counted_step {q : θ → Bool} {n : μ → ℕ} (p : Pool μ θ) (e : PoolEvent β ε δ)
    (hact : ∀ e, ∀ t ∈ p.threads, n p.shared + (if q (act e p.shared t).2 then 1 else 0) ≤
      n (act e p.shared t).1 + if q t then 1 else 0)
    (hspawn : ∀ b, q (start b) = false) (henv : ∀ d, n p.shared ≤ n (env d p.shared))
    (h : p.threads.countP q ≤ n p.shared) :
    (p.step start act env e).threads.countP q ≤ n (p.step start act env e).shared := by
  cases e with
  | spawn b =>
    show (p.threads ++ [start b]).countP q ≤ n p.shared
    rw [List.countP_append, List.countP_singleton, hspawn b]
    simpa using h
  | step i e =>
    cases hi : p.threads[i]? with
    | none =>
      have hsame : p.step start act env (.step i e) = p := by simp only [step, hi]
      rwa [hsame]
    | some t =>
      obtain ⟨hlt, ht⟩ := List.getElem?_eq_some_iff.mp hi
      have hmove := hact e t (List.mem_of_getElem? hi)
      have hone : (if q t = true then 1 else 0) ≤ p.threads.countP q := by
        split
        next hq => exact List.countP_pos_iff.mpr ⟨t, List.mem_of_getElem? hi, hq⟩
        next => exact Nat.zero_le _
      rw [step_of_thread hi]
      simp only [List.countP_set hlt, ht]
      omega
  | outside d => exact Nat.le_trans h (henv d)

end Pool

end Schemes
