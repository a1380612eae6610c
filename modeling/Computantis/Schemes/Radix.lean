import Mathlib.Data.Nat.Digits.Lemmas
import Mathlib.Tactic.Ring

/-! @scheme radix | name:Positional numbers | family:encoding

    Digits, the most significant first, spell a number by Horner's rule. A row of digits of fixed length is
    multiplied by a small number, and a small number added, in one sweep from the last digit to the first;
    what is left over goes out at the front. Rows of one length that spell one number are equal, and wide
    digits may be written in a narrower base.

        ds ──sweep m c──▶ ds'  with  carry        carry · bⁿ + value ds' = value ds · m + c -/

namespace Schemes

/-- The number that the digits spell in base `b`. -/
def horner (b : ℕ) (ds : List ℕ) : ℕ := ds.foldl (fun n d => n * b + d) 0

section Horner

variable {b : ℕ}

@[simp] theorem horner_nil : horner b [] = 0 := rfl

@[simp] theorem horner_concat (ds : List ℕ) (d : ℕ) : horner b (ds ++ [d]) = horner b ds * b + d := by
  rw [horner, List.foldl_append, List.foldl_cons, List.foldl_nil, horner]

theorem horner_eq_ofDigits (ds : List ℕ) : horner b ds = Nat.ofDigits b ds.reverse := by
  induction ds using List.reverseRecOn with
  | nil => rfl
  | append_singleton ds d ih =>
    rw [horner_concat, ih, List.reverse_append, List.reverse_singleton, List.singleton_append,
      Nat.ofDigits_cons]
    ring

theorem horner_append (ds es : List ℕ) : horner b (ds ++ es) = horner b ds * b ^ es.length + horner b es := by
  rw [horner_eq_ofDigits, horner_eq_ofDigits, horner_eq_ofDigits, List.reverse_append, Nat.ofDigits_append,
    List.length_reverse]
  ring

theorem horner_cons (d : ℕ) (ds : List ℕ) : horner b (d :: ds) = d * b ^ ds.length + horner b ds := by
  have h := horner_append (b := b) [d] ds
  have hd : horner b [d] = d := by simp [horner]
  rwa [List.singleton_append, hd] at h

theorem horner_lt (hb : 1 < b) {ds : List ℕ} (h : ∀ d ∈ ds, d < b) : horner b ds < b ^ ds.length := by
  rw [horner_eq_ofDigits, ← List.length_reverse]
  refine Nat.ofDigits_lt_base_pow_length hb fun d hd => ?_
  exact h d (List.mem_reverse.mp hd)

theorem horner_zeros (n : ℕ) (ds : List ℕ) : horner b (List.replicate n 0 ++ ds) = horner b ds := by
  induction n with
  | zero => rfl
  | succ n ih => rw [List.replicate_succ, List.cons_append, horner_cons, ih, Nat.zero_mul, Nat.zero_add]

end Horner

/-! ### Rows of fixed length -/

/-- The row of `n` digits that spells `x`. -/
def padded (b n x : ℕ) : List ℕ := (Nat.digitsAppend b n x).reverse

/-- The shortest row that spells `x`. -/
def shortest (b x : ℕ) : List ℕ := (Nat.digits b x).reverse

theorem padded_eq (b n x : ℕ) :
    padded b n x = List.replicate (n - (shortest b x).length) 0 ++ shortest b x := by
  rw [padded, Nat.digitsAppend, List.reverse_append, List.reverse_replicate, shortest, List.length_reverse]

variable {b x : ℕ}

theorem eq_padded (hb : 1 < b) {ds : List ℕ} (h : ∀ d ∈ ds, d < b) : ds = padded b ds.length (horner b ds) := by
  have hrow : ds.reverse ∈ {L : List ℕ | L.length = ds.length ∧ ∀ x ∈ L, x < b} :=
    ⟨List.length_reverse, fun d hd => h d (List.mem_reverse.mp hd)⟩
  rw [padded, horner_eq_ofDigits, (Nat.setInvOn_digitsAppend_ofDigits hb ds.length).1 hrow,
    List.reverse_reverse]

theorem horner_shortest (b x : ℕ) : horner b (shortest b x) = x := by
  rw [horner_eq_ofDigits, shortest, List.reverse_reverse, Nat.ofDigits_digits]

theorem shortest_lt {d : ℕ} (hb : 1 < b) (h : d ∈ shortest b x) : d < b :=
  Nat.digits_lt_base hb (List.mem_reverse.mp h)

theorem shortest_head {ds : List ℕ} : shortest b x ≠ 0 :: ds := by
  intro h
  have hdigits : b.digits x = ds.reverse ++ [0] := by
    rw [← List.reverse_reverse (b.digits x), ← shortest, h, List.reverse_cons]
  have hne : b.digits x ≠ [] := by simp [hdigits]
  have hx : x ≠ 0 := by
    rintro rfl
    simp at hne
  refine Nat.getLast_digit_ne_zero b hx ?_
  simp [hdigits]

theorem dropWhile_zeros (b n x : ℕ) : (List.replicate n 0 ++ shortest b x).dropWhile (· = 0) = shortest b x := by
  rw [List.dropWhile_append_of_pos (by simp)]
  cases hds : shortest b x with
  | nil => rfl
  | cons d ds =>
    refine List.dropWhile_cons_of_neg ?_
    rw [decide_eq_true_eq]
    rintro rfl
    exact shortest_head hds

theorem shortest_length_le (hb : 1 < b) {n : ℕ} : (shortest b x).length ≤ n ↔ x < b ^ n := by
  rw [shortest, List.length_reverse]
  exact Nat.digits_length_le_iff hb x

section Padded

variable {b n x : ℕ}

theorem horner_padded : horner b (padded b n x) = x := by
  rw [padded_eq, horner_zeros, horner_shortest]

theorem padded_length (hb : 1 < b) (hx : x < b ^ n) : (padded b n x).length = n := by
  have hfit := (shortest_length_le hb).mpr hx
  rw [padded_eq, List.length_append, List.length_replicate]
  omega

theorem padded_lt (hb : 1 < b) {d : ℕ} (h : d ∈ padded b n x) : d < b := by
  rw [padded_eq, List.mem_append, List.mem_replicate] at h
  rcases h with ⟨-, rfl⟩ | h
  · omega
  · exact shortest_lt hb h

end Padded

/-! ### The sweep -/

/-- Multiply by `m` and add `c`, from the last digit to the first. -/
def sweep (b m c : ℕ) : List ℕ → List ℕ × ℕ
  | [] => ([], c)
  | d :: ds =>
    let r := sweep b m c ds
    ((d * m + r.2) % b :: r.1, (d * m + r.2) / b)

section Sweep

variable {b m c : ℕ}

@[simp] theorem sweep_length (ds : List ℕ) : (sweep b m c ds).1.length = ds.length := by
  induction ds with
  | nil => rfl
  | cons d ds ih => simp [sweep, ih]

theorem sweep_concat (ds : List ℕ) (d : ℕ) : sweep b m c (ds ++ [d]) =
    ((sweep b m ((d * m + c) / b) ds).1 ++ [(d * m + c) % b], (sweep b m ((d * m + c) / b) ds).2) := by
  induction ds with
  | nil => rfl
  | cons e ds ih => rw [List.cons_append, sweep, ih, sweep, List.cons_append]

theorem sweep_zeros (n : ℕ) : sweep b m 0 (List.replicate n 0) = (List.replicate n 0, 0) := by
  induction n with
  | zero => rfl
  | succ n ih => simp [List.replicate_succ, sweep, ih]

theorem sweep_lt (hb : 0 < b) (ds : List ℕ) : ∀ d ∈ (sweep b m c ds).1, d < b := by
  induction ds with
  | nil => simp [sweep]
  | cons d ds ih =>
    rw [sweep, List.forall_mem_cons]
    exact ⟨Nat.mod_lt _ hb, ih⟩

theorem sweep_exact (ds : List ℕ) :
    (sweep b m c ds).2 * b ^ ds.length + horner b (sweep b m c ds).1 = horner b ds * m + c := by
  induction ds with
  | nil => simp [sweep]
  | cons d ds ih =>
    have hdiv := Nat.div_add_mod (d * m + (sweep b m c ds).2) b
    rw [sweep, horner_cons, horner_cons, List.length_cons, sweep_length]
    calc (d * m + (sweep b m c ds).2) / b * b ^ (ds.length + 1) +
          ((d * m + (sweep b m c ds).2) % b * b ^ ds.length + horner b (sweep b m c ds).1)
        = (b * ((d * m + (sweep b m c ds).2) / b) + (d * m + (sweep b m c ds).2) % b) * b ^ ds.length +
            horner b (sweep b m c ds).1 := by ring
      _ = d * m * b ^ ds.length + ((sweep b m c ds).2 * b ^ ds.length + horner b (sweep b m c ds).1) := by
          rw [hdiv]; ring
      _ = (d * b ^ ds.length + horner b ds) * m + c := by rw [ih]; ring

theorem sweep_carry_lt (hb : 0 < b) (hc : c < m) {ds : List ℕ} (h : ∀ d ∈ ds, d < b) :
    (sweep b m c ds).2 < m := by
  induction ds with
  | nil => exact hc
  | cons d ds ih =>
    have hd : d + 1 ≤ b := h d (List.mem_cons_self ..)
    have hr := ih fun e he => h e (List.mem_cons_of_mem d he)
    rw [sweep, Nat.div_lt_iff_lt_mul hb]
    calc d * m + (sweep b m c ds).2 < d * m + m := by omega
      _ = (d + 1) * m := by ring
      _ ≤ b * m := Nat.mul_le_mul_right m hd
      _ = m * b := Nat.mul_comm b m

end Sweep

theorem horner_flatMap {α : Type} {k : ℕ} (f : α → List ℕ) (val : α → ℕ) (hlen : ∀ w, (f w).length = k)
    (hval : ∀ w, horner b (f w) = val w) (ws : List α) :
    horner b (ws.flatMap f) = horner (b ^ k) (ws.map val) := by
  induction ws with
  | nil => rfl
  | cons w ws ih =>
    have hlens : (ws.flatMap f).length = k * ws.length := by simp [List.length_flatMap, hlen, Nat.mul_comm]
    rw [List.flatMap_cons, horner_append, List.map_cons, horner_cons, ih, hval, hlens, List.length_map, pow_mul]

end Schemes
