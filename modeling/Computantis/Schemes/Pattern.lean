import Mathlib.Computability.RegularExpressions

/-! @scheme pattern | name:Bracket expressions and bounded repetition | family:encoding

    What the notation of the regular expressions of a C library adds to the algebra of Mathlib: a bracket, a
    literal word, and a repetition with an upper bound. Each of them is said as a language of words. -/

namespace Schemes.Pattern

open RegularExpression

variable {α : Type} {cs w : List α} {P : RegularExpression α}

/-- One of the symbols. -/
def oneOf (cs : List α) : RegularExpression α := cs.foldr (fun c P => char c + P) 0

/-- The word itself. -/
def word (w : List α) : RegularExpression α := w.foldr (fun c P => char c * P) 1

/-- At most `n` times. -/
def atMost (P : RegularExpression α) : ℕ → RegularExpression α
  | 0 => 1
  | n + 1 => 1 + P * atMost P n

theorem mem_oneOf : w ∈ (oneOf cs).matches' ↔ ∃ c ∈ cs, w = [c] := by
  induction cs with
  | nil => simp [oneOf, Language.notMem_zero]
  | cons c cs ih =>
    rw [oneOf, List.foldr_cons, ← oneOf, matches'_add, Language.mem_add, matches'_char, ih,
      List.exists_mem_cons_iff]
    exact Iff.rfl

theorem mem_word {v : List α} : v ∈ (word w).matches' ↔ v = w := by
  induction w generalizing v with
  | nil => exact Language.mem_one v
  | cons c w ih =>
    rw [word, List.foldr_cons, ← word, matches'_mul, Language.mem_mul, matches'_char]
    constructor
    · rintro ⟨a, rfl, b, hb, rfl⟩
      rw [ih.mp hb, List.singleton_append]
    · rintro rfl
      exact ⟨[c], rfl, w, ih.mpr rfl, rfl⟩

theorem mem_oneOf_mul : w ∈ (oneOf cs * P).matches' ↔ ∃ c ∈ cs, ∃ v ∈ P.matches', w = c :: v := by
  rw [matches'_mul, Language.mem_mul]
  constructor
  · rintro ⟨a, ha, v, hv, rfl⟩
    obtain ⟨c, hc, rfl⟩ := mem_oneOf.mp ha
    exact ⟨c, hc, v, hv, rfl⟩
  · rintro ⟨c, hc, v, hv, rfl⟩
    exact ⟨[c], mem_oneOf.mpr ⟨c, hc, rfl⟩, v, hv, rfl⟩

theorem mem_word_mul {u : List α} : w ∈ (word u * P).matches' ↔ ∃ v ∈ P.matches', w = u ++ v := by
  rw [matches'_mul, Language.mem_mul]
  constructor
  · rintro ⟨a, ha, v, hv, rfl⟩
    rw [mem_word.mp ha]
    exact ⟨v, hv, rfl⟩
  · rintro ⟨v, hv, rfl⟩
    exact ⟨u, mem_word.mpr rfl, v, hv, rfl⟩

theorem mem_oneOf_atMost {n : ℕ} : w ∈ (atMost (oneOf cs) n).matches' ↔ w.length ≤ n ∧ ∀ c ∈ w, c ∈ cs := by
  induction n generalizing w with
  | zero =>
    rw [atMost, matches'_epsilon, Language.mem_one]
    constructor
    · rintro rfl
      exact ⟨le_rfl, fun c hc => nomatch hc⟩
    · rintro ⟨hlen, -⟩
      exact List.length_eq_zero_iff.mp (Nat.le_zero.mp hlen)
  | succ n ih =>
    rw [atMost, matches'_add, Language.mem_add, matches'_epsilon, Language.mem_one, mem_oneOf_mul]
    cases w with
    | nil => simp
    | cons c w => simp [ih, and_left_comm]

theorem mem_oneOf_star : w ∈ ((oneOf cs).star).matches' ↔ ∀ c ∈ w, c ∈ cs := by
  rw [matches'_star, Language.mem_kstar]
  constructor
  · rintro ⟨L, rfl, hL⟩ c hc
    obtain ⟨v, hv, hcv⟩ := List.mem_flatten.mp hc
    obtain ⟨d, hd, rfl⟩ := mem_oneOf.mp (hL v hv)
    rwa [List.mem_singleton.mp hcv]
  · intro h
    refine ⟨w.map fun c => [c], (List.flatMap_singleton' w).symm, fun v hv => ?_⟩
    obtain ⟨c, hc, rfl⟩ := List.mem_map.mp hv
    exact mem_oneOf.mpr ⟨c, h c hc, rfl⟩

end Schemes.Pattern
