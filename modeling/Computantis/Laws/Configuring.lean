import Computantis.Model.Config
import Computantis.Schemes.Decimal
import Mathlib.Tactic.IntervalCases

/-! @law configuring | name:What the C client makes of its configuration | family:parser | about:Model/Config

    The pattern of the URLs spells the numbers from 1 to 65535 digit by digit; it is compared here with the
    numbers themselves. A file that lists settings as the client's own default file does is read to its end,
    and each value is where it belongs. Whether the client reads it back is another question: nothing ends
    the value but what was in the memory behind it.

        garbage:   x x x x x x x x 0        value:   h t t p         read:   h t t p x x x x -/

namespace Computantis.Client

open Schemes Schemes.CString Schemes.Pattern RegularExpression

/-! ### The pattern of the ports -/

theorem mem_allBytes (c : UInt8) : c ∈ allBytes :=
  List.mem_map.mpr ⟨c.toNat, List.mem_range.mpr c.toNat_lt, UInt8.ofNat_toNat⟩

/-- A row of digits, each between its bounds. -/
def DigitRow (bounds : List (ℕ × ℕ)) (w : Bytes) : Prop :=
  ∃ ds, List.Forall₂ (fun b d => b.1 ≤ d ∧ d ≤ b.2) bounds ds ∧ w = Decimal.text ds

variable {w : Bytes} {n : ℕ} {bounds : List (ℕ × ℕ)} {P : RegularExpression UInt8}

theorem row_cons {b : ℕ × ℕ} :
    DigitRow (b :: bounds) w ↔ ∃ d, b.1 ≤ d ∧ d ≤ b.2 ∧ ∃ v, DigitRow bounds v ∧ w = Decimal.char d :: v := by
  constructor
  · rintro ⟨ds, hds, rfl⟩
    cases hds with
    | cons hd hds => exact ⟨_, hd.1, hd.2, _, ⟨_, hds, rfl⟩, rfl⟩
  · rintro ⟨d, hl, hh, v, ⟨ds, hds, rfl⟩, rfl⟩
    exact ⟨d :: ds, .cons ⟨hl, hh⟩ hds, rfl⟩

section Brackets

variable {lo hi : Char} (a b : ℕ) (hlo : lo.toNat = 48 + a) (hhi : hi.toNat = 48 + b) (hb : b < 10)
include hlo hhi hb

theorem mem_digits {c : UInt8} : c ∈ allBytes.filter (fun c => decide (lo.toNat ≤ c.toNat ∧ c.toNat ≤ hi.toNat)) ↔
    ∃ d, a ≤ d ∧ d ≤ b ∧ c = Decimal.char d := by
  rw [List.mem_filter, decide_eq_true_eq]
  constructor
  · rintro ⟨-, hl, hh⟩
    refine ⟨c.toNat - 48, by omega, by omega, ?_⟩
    rw [Decimal.char, Nat.add_sub_cancel' (by omega), UInt8.ofNat_toNat]
  · rintro ⟨d, hl, hh, rfl⟩
    rw [Decimal.char_toNat (by omega)]
    exact ⟨mem_allBytes _, by omega, by omega⟩

theorem range_mul_row (hP : ∀ v, v ∈ P.matches' ↔ DigitRow bounds v) (w : Bytes) :
    w ∈ (range lo hi * P).matches' ↔ DigitRow ((a, b) :: bounds) w := by
  rw [range, mem_oneOf_mul, row_cons]
  constructor
  · rintro ⟨c, hc, v, hv, rfl⟩
    obtain ⟨d, hl, hh, rfl⟩ := (mem_digits a b hlo hhi hb).mp hc
    exact ⟨d, hl, hh, v, (hP v).mp hv, rfl⟩
  · rintro ⟨d, hl, hh, v, hv, rfl⟩
    exact ⟨_, (mem_digits a b hlo hhi hb).mpr ⟨d, hl, hh, rfl⟩, v, (hP v).mpr hv, rfl⟩

theorem range_row (w : Bytes) : w ∈ (range lo hi).matches' ↔ DigitRow [(a, b)] w := by
  rw [range, mem_oneOf, row_cons]
  constructor
  · rintro ⟨c, hc, rfl⟩
    obtain ⟨d, hl, hh, rfl⟩ := (mem_digits a b hlo hhi hb).mp hc
    exact ⟨d, hl, hh, [], ⟨[], .nil, rfl⟩, rfl⟩
  · rintro ⟨d, hl, hh, v, ⟨ds, hds, rfl⟩, rfl⟩
    cases hds
    exact ⟨_, (mem_digits a b hlo hhi hb).mpr ⟨d, hl, hh, rfl⟩, rfl⟩

end Brackets

theorem word_mul_row (ks : List ℕ) (hP : ∀ v, v ∈ P.matches' ↔ DigitRow bounds v) (w : Bytes) :
    w ∈ (word (Decimal.text ks) * P).matches' ↔ DigitRow (ks.map (fun k => (k, k)) ++ bounds) w := by
  rw [mem_word_mul]
  induction ks generalizing w with
  | nil => simp [Decimal.text, hP]
  | cons k ks ih =>
    rw [List.map_cons, List.cons_append, row_cons]
    constructor
    · rintro ⟨v, hv, rfl⟩
      exact ⟨k, le_rfl, le_rfl, _, (ih _).mp ⟨v, hv, rfl⟩, rfl⟩
    · rintro ⟨d, hl, hh, u, hu, rfl⟩
      obtain ⟨v, hv, rfl⟩ := (ih u).mpr hu
      cases le_antisymm hl hh
      exact ⟨v, hv, rfl⟩

theorem atMost_digits : w ∈ (atMost (range '0' '9') n).matches' ↔
    ∃ ds : List ℕ, ds.length ≤ n ∧ (∀ d ∈ ds, d < 10) ∧ w = Decimal.text ds := by
  rw [range, mem_oneOf_atMost]
  constructor
  · rintro ⟨hlen, hw⟩
    induction w generalizing n with
    | nil => exact ⟨[], Nat.zero_le n, by simp, rfl⟩
    | cons c w ih =>
      rw [List.length_cons] at hlen
      obtain ⟨n, rfl⟩ : ∃ m, n = m + 1 := ⟨n - 1, by omega⟩
      obtain ⟨ds, hds, hlt, rfl⟩ := ih (Nat.le_of_succ_le_succ hlen) fun c hc => hw c (List.mem_cons_of_mem _ hc)
      obtain ⟨d, -, hd, rfl⟩ := (mem_digits 0 9 rfl rfl (by decide)).mp (hw c (List.mem_cons_self ..))
      refine ⟨d :: ds, Nat.succ_le_succ hds, ?_, rfl⟩
      intro e he
      rcases List.mem_cons.mp he with rfl | he
      · exact Nat.lt_succ_of_le hd
      · exact hlt e he
  · rintro ⟨ds, hlen, hds, rfl⟩
    refine ⟨by rwa [Decimal.text, List.length_map], fun c hc => ?_⟩
    obtain ⟨d, hd, rfl⟩ := List.mem_map.mp hc
    exact (mem_digits 0 9 rfl rfl (by decide)).mpr ⟨d, Nat.zero_le d, Nat.le_of_lt_succ (hds d hd), rfl⟩

theorem short_row : w ∈ (range '1' '9' * atMost (range '0' '9') 3).matches' ↔
    ∃ d ds, 0 < d ∧ (∀ e ∈ d :: ds, e < 10) ∧ ds.length ≤ 3 ∧ w = Decimal.text (d :: ds) := by
  change w ∈ (oneOf _ * _).matches' ↔ _
  rw [mem_oneOf_mul]
  constructor
  · rintro ⟨c, hc, v, hv, rfl⟩
    obtain ⟨d, hl, hh, rfl⟩ := (mem_digits 1 9 rfl rfl (by decide)).mp hc
    obtain ⟨ds, hlen, hds, rfl⟩ := atMost_digits.mp hv
    refine ⟨d, ds, hl, ?_, hlen, rfl⟩
    intro e he
    rcases List.mem_cons.mp he with rfl | he
    · exact Nat.lt_succ_of_le hh
    · exact hds e he
  · rintro ⟨d, ds, hd, hlt, hlen, rfl⟩
    have hdlt := hlt d (List.mem_cons_self ..)
    exact ⟨_, (mem_digits 1 9 rfl rfl (by decide)).mpr ⟨d, hd, Nat.le_of_lt_succ hdlt, rfl⟩, _,
      atMost_digits.mpr ⟨ds, hlen, fun e he => hlt e (List.mem_cons_of_mem _ he), rfl⟩, rfl⟩

theorem five_digits {a b c d e : ℕ} (hb : b < 10) (hc : c < 10) (hd : d < 10) (he : e < 10) :
    0 < a ∧ horner 10 [a, b, c, d, e] ≤ 65535 ↔
      (1 ≤ a ∧ a ≤ 5) ∨ (a = 6 ∧ b ≤ 4) ∨ (a = 6 ∧ b = 5 ∧ c ≤ 4) ∨ (a = 6 ∧ b = 5 ∧ c = 5 ∧ d ≤ 2) ∨
        (a = 6 ∧ b = 5 ∧ c = 5 ∧ d = 3 ∧ e ≤ 5) := by
  simp only [horner, List.foldl_cons, List.foldl_nil]
  omega

theorem row_five {b₁ b₂ b₃ b₄ b₅ : ℕ × ℕ} : DigitRow [b₁, b₂, b₃, b₄, b₅] w ↔ ∃ a b c d e,
    (b₁.1 ≤ a ∧ a ≤ b₁.2) ∧ (b₂.1 ≤ b ∧ b ≤ b₂.2) ∧ (b₃.1 ≤ c ∧ c ≤ b₃.2) ∧ (b₄.1 ≤ d ∧ d ≤ b₄.2) ∧
      (b₅.1 ≤ e ∧ e ≤ b₅.2) ∧ w = Decimal.text [a, b, c, d, e] := by
  constructor
  · rintro ⟨ds, hds, rfl⟩
    obtain _ | ⟨ha, _ | ⟨hb, _ | ⟨hc, _ | ⟨hd, _ | ⟨he, hnil⟩⟩⟩⟩⟩ := hds
    cases hnil
    exact ⟨_, _, _, _, _, ha, hb, hc, hd, he, rfl⟩
  · rintro ⟨a, b, c, d, e, ha, hb, hc, hd, he, rfl⟩
    exact ⟨_, .cons ha (.cons hb (.cons hc (.cons hd (.cons he .nil)))), rfl⟩

theorem mem_portRe : w ∈ portRe.matches' ↔
    ∃ d ds, 0 < d ∧ (∀ e ∈ d :: ds, e < 10) ∧ horner 10 (d :: ds) ≤ 65535 ∧ w = Decimal.text (d :: ds) := by
  have h1 (v : Bytes) : v ∈ (range '0' '9').matches' ↔ DigitRow [(0, 9)] v := range_row 0 9 rfl rfl (by decide) v
  have h2 (v : Bytes) : v ∈ (range '0' '9' * range '0' '9').matches' ↔ DigitRow [(0, 9), (0, 9)] v :=
    range_mul_row 0 9 rfl rfl (by decide) h1 v
  have h3 (v : Bytes) : v ∈ (range '0' '9' * (range '0' '9' * range '0' '9')).matches' ↔
      DigitRow [(0, 9), (0, 9), (0, 9)] v := range_mul_row 0 9 rfl rfl (by decide) h2 v
  have h4 (v : Bytes) : v ∈ (range '0' '9' * (range '0' '9' * (range '0' '9' * range '0' '9'))).matches' ↔
      DigitRow [(0, 9), (0, 9), (0, 9), (0, 9)] v := range_mul_row 0 9 rfl rfl (by decide) h3 v
  have hfive : w ∈ portRe.matches' ↔ w ∈ (range '1' '9' * atMost (range '0' '9') 3).matches' ∨
      DigitRow [(1, 5), (0, 9), (0, 9), (0, 9), (0, 9)] w ∨ DigitRow [(6, 6), (0, 4), (0, 9), (0, 9), (0, 9)] w ∨
      DigitRow [(6, 6), (5, 5), (0, 4), (0, 9), (0, 9)] w ∨ DigitRow [(6, 6), (5, 5), (5, 5), (0, 2), (0, 9)] w ∨
      DigitRow [(6, 6), (5, 5), (5, 5), (3, 3), (0, 5)] w := by
    simp only [portRe, matches'_add, Language.mem_add, or_assoc]
    refine or_congr Iff.rfl (or_congr ?_ (or_congr ?_ (or_congr ?_ (or_congr ?_ ?_))))
    · exact range_mul_row 1 5 rfl rfl (by decide) h4 w
    · exact word_mul_row [6] (range_mul_row 0 4 rfl rfl (by decide) h3) w
    · exact word_mul_row [6, 5] (range_mul_row 0 4 rfl rfl (by decide) h2) w
    · exact word_mul_row [6, 5, 5] (range_mul_row 0 2 rfl rfl (by decide) h1) w
    · exact word_mul_row [6, 5, 5, 3] (range_row 0 5 rfl rfl (by decide)) w
  rw [hfive, short_row]
  simp only [row_five]
  constructor
  · -- five digits are taken together, whichever of the brackets they come from
    have hmk {a b c d e : ℕ} (hb : b < 10) (hc : c < 10) (hd : d < 10) (he : e < 10) (h : (1 ≤ a ∧ a ≤ 5) ∨
        (a = 6 ∧ b ≤ 4) ∨ (a = 6 ∧ b = 5 ∧ c ≤ 4) ∨ (a = 6 ∧ b = 5 ∧ c = 5 ∧ d ≤ 2) ∨
        (a = 6 ∧ b = 5 ∧ c = 5 ∧ d = 3 ∧ e ≤ 5)) (hw : w = Decimal.text [a, b, c, d, e]) :
        ∃ d ds, 0 < d ∧ (∀ e ∈ d :: ds, e < 10) ∧ horner 10 (d :: ds) ≤ 65535 ∧ w = Decimal.text (d :: ds) := by
      obtain ⟨hpos, hle⟩ := (five_digits hb hc hd he).mpr h
      refine ⟨a, [b, c, d, e], hpos, ?_, hle, hw⟩
      simp only [List.mem_cons, List.not_mem_nil, or_false, forall_eq_or_imp, forall_eq]
      omega
    rintro (⟨d, ds, hd, hlt, hlen, rfl⟩ | ⟨a, b, c, d, e, ha, hb, hc, hd, he, hw⟩ |
      ⟨a, b, c, d, e, ha, hb, hc, hd, he, hw⟩ | ⟨a, b, c, d, e, ha, hb, hc, hd, he, hw⟩ |
      ⟨a, b, c, d, e, ha, hb, hc, hd, he, hw⟩ | ⟨a, b, c, d, e, ha, hb, hc, hd, he, hw⟩)
    · refine ⟨d, ds, hd, hlt, ?_, rfl⟩
      have hval := horner_lt (by decide) hlt
      have hpow : 10 ^ (d :: ds).length ≤ 10 ^ 4 := Nat.pow_le_pow_right (by decide) (Nat.succ_le_succ hlen)
      omega
    all_goals exact hmk (by omega) (by omega) (by omega) (by omega) (by omega) hw
  · rintro ⟨a, ds, hpos, hlt, hle, rfl⟩
    have hcons := horner_cons (b := 10) a ds
    by_cases hshort : ds.length ≤ 3
    · exact Or.inl ⟨a, ds, hpos, hlt, hshort, rfl⟩
    · have hlen : ds.length = 4 := by
        by_contra hne
        have hpow : 10 ^ 5 ≤ 10 ^ ds.length := Nat.pow_le_pow_right (by decide) (by omega)
        have hmul : 1 * 10 ^ ds.length ≤ a * 10 ^ ds.length := Nat.mul_le_mul_right _ hpos
        omega
      obtain _ | ⟨b, _ | ⟨c, _ | ⟨d, _ | ⟨e, _ | ⟨f, ds⟩⟩⟩⟩⟩ := ds <;> simp only [List.length_cons,
        List.length_nil] at hlen <;> try omega
      simp only [List.mem_cons, List.not_mem_nil, or_false, forall_eq_or_imp, forall_eq] at hlt
      obtain ⟨-, hb, hc, hd, he⟩ := hlt
      refine Or.inr ?_
      rcases (five_digits hb hc hd he).mp ⟨hpos, hle⟩ with h | h | h | h | h
      · exact Or.inl ⟨a, b, c, d, e, h, by omega, by omega, by omega, by omega, rfl⟩
      · exact Or.inr (Or.inl ⟨a, b, c, d, e, by omega, by omega, by omega, by omega, by omega, rfl⟩)
      · exact Or.inr (Or.inr (Or.inl ⟨a, b, c, d, e, by omega, by omega, by omega, by omega, by omega, rfl⟩))
      · exact Or.inr (Or.inr (Or.inr (Or.inl ⟨a, b, c, d, e, by omega, by omega, by omega, by omega, by omega, rfl⟩)))
      · exact Or.inr (Or.inr (Or.inr (Or.inr ⟨a, b, c, d, e, by omega, by omega, by omega, by omega, by omega, rfl⟩)))

theorem portRe_iff : w ∈ portRe.matches' ↔ ∃ n, 1 ≤ n ∧ n ≤ 65535 ∧ w = Decimal.numeral n := by
  rw [mem_portRe]
  constructor
  · rintro ⟨d, ds, hd, hlt, hle, rfl⟩
    refine ⟨horner 10 (d :: ds), ?_, hle, (Decimal.numeral_horner hd hlt).symm⟩
    rw [horner_cons]
    exact Nat.add_pos_left (Nat.mul_pos hd (Nat.pow_pos (by decide))) _
  · rintro ⟨n, hn, hle, rfl⟩
    obtain ⟨d, ds, hrow, hd⟩ := Decimal.row_pos hn
    refine ⟨d, ds, hd, fun e he => Decimal.row_lt (n := n) (hrow ▸ he), ?_, by rw [Decimal.numeral, hrow]⟩
    rw [← hrow, Decimal.horner_row]
    exact hle

/-! ### The pattern of the URLs -/

/-- A URL as the client wants it: with or without TLS, some host, and a port. -/
def UrlShape (url : Bytes) : Prop :=
  ∃ scheme host n, (scheme = ascii ['h', 't', 't', 'p'] ∨ scheme = ascii ['h', 't', 't', 'p', 's']) ∧ host ≠ [] ∧
    (∀ c ∈ host, isspace c = false) ∧ 1 ≤ n ∧ n ≤ 65535 ∧
    url = scheme ++ ascii [':', '/', '/'] ++ host ++ ascii [':'] ++ Decimal.numeral n

theorem mem_host : w ∈ (nonSpace * nonSpace.star).matches' ↔ w ≠ [] ∧ ∀ c ∈ w, isspace c = false := by
  have hclass (c : UInt8) : c ∈ allBytes.filter (fun c => !isspace c) ↔ isspace c = false := by
    simp [List.mem_filter, mem_allBytes]
  rw [nonSpace, mem_oneOf_mul]
  simp only [mem_oneOf_star, hclass]
  constructor
  · rintro ⟨c, hc, v, hv, rfl⟩
    exact ⟨List.cons_ne_nil c v, List.forall_mem_cons.mpr ⟨hc, hv⟩⟩
  · rintro ⟨hne, hw⟩
    cases w with
    | nil => exact absurd rfl hne
    | cons c v =>
      obtain ⟨hc, hv⟩ := List.forall_mem_cons.mp hw
      exact ⟨c, hc, v, hv, rfl⟩

theorem mem_optional {u : Bytes} : w ∈ (atMost (word u) 1 * P).matches' ↔ ∃ v ∈ P.matches', w = v ∨ w = u ++ v := by
  have hopt (a : Bytes) : a ∈ (atMost (word u) 1).matches' ↔ a = [] ∨ a = u := by
    rw [atMost, matches'_add, Language.mem_add, matches'_epsilon, Language.mem_one, mem_word_mul, atMost,
      matches'_epsilon]
    simp [Language.mem_one]
  rw [matches'_mul, Language.mem_mul]
  constructor
  · rintro ⟨a, ha, v, hv, rfl⟩
    rcases (hopt a).mp ha with rfl | rfl
    · exact ⟨v, hv, Or.inl rfl⟩
    · exact ⟨v, hv, Or.inr rfl⟩
  · rintro ⟨v, hv, rfl | rfl⟩
    · exact ⟨[], (hopt _).mpr (Or.inl rfl), w, hv, rfl⟩
    · exact ⟨u, (hopt _).mpr (Or.inr rfl), v, hv, rfl⟩

/-- EXACT (URLs): the check takes `http` or `https`, a host without white space, and the numeral of a port
    without zeros in front, whatever else is in the host. -/
theorem valid_url_iff (url : Bytes) : isValidUrl url = true ↔ UrlShape (contents url) := by
  rw [isValidUrl, rmatch_iff_matches', urlRe, mem_word_mul]
  simp only [mem_optional, mem_word_mul]
  -- what stands behind the scheme
  have hrest (v : Bytes) : v ∈ (nonSpace * nonSpace.star * (word (ascii [':']) * portRe)).matches' ↔
      ∃ host n, (host ≠ [] ∧ ∀ c ∈ host, isspace c = false) ∧ (1 ≤ n ∧ n ≤ 65535) ∧
        v = host ++ (ascii [':'] ++ Decimal.numeral n) := by
    rw [matches'_mul, Language.mem_mul]
    constructor
    · rintro ⟨host, hhost, u, hu, rfl⟩
      obtain ⟨p, hp, rfl⟩ := mem_word_mul.mp hu
      obtain ⟨n, hn, hle, rfl⟩ := portRe_iff.mp hp
      exact ⟨host, n, mem_host.mp hhost, ⟨hn, hle⟩, rfl⟩
    · rintro ⟨host, n, hhost, hn, rfl⟩
      exact ⟨host, mem_host.mpr hhost, _, mem_word_mul.mpr ⟨_, portRe_iff.mpr ⟨n, hn.1, hn.2, rfl⟩, rfl⟩, rfl⟩
  constructor
  · rintro ⟨t, ⟨u, ⟨v, hv, rfl⟩, ht⟩, hurl⟩
    obtain ⟨host, n, hhost, hn, rfl⟩ := (hrest v).mp hv
    rcases ht with rfl | rfl
    · exact ⟨_, host, n, Or.inl rfl, hhost.1, hhost.2, hn.1, hn.2, by simp [hurl]⟩
    · exact ⟨_, host, n, Or.inr rfl, hhost.1, hhost.2, hn.1, hn.2, by simp [hurl, ascii]⟩
  · rintro ⟨scheme, host, n, hscheme, hne, hhost, hn, hle, hurl⟩
    have hv := (hrest _).mpr ⟨host, n, ⟨hne, hhost⟩, ⟨hn, hle⟩, rfl⟩
    rcases hscheme with rfl | rfl
    · exact ⟨_, ⟨_, ⟨_, hv, rfl⟩, Or.inl rfl⟩, by simp [hurl]⟩
    · exact ⟨_, ⟨_, ⟨_, hv, rfl⟩, Or.inr rfl⟩, by simp [hurl, ascii]⟩

/-! ### Settings -/

/-- One setting. -/
inductive Setting where
  | port (n : ℕ)
  | text (f : Field) (value : Bytes)

/-- The value is a string of one line that fits its array, with its zero byte, and has no white space at its
    ends. -/
structure Plain (v : Bytes) : Prop where
  ne_nil : v ≠ []
  zero : 0 ∉ v
  newline : 10 ∉ v
  first : isspace (v.head ne_nil) = false
  last : isspace (v.getLast ne_nil) = false
  fits : v.length < maxString

namespace Setting

/-- The key of the setting in the file. -/
def key : Setting → Bytes
  | .port _ => ascii ['p', 'o', 'r', 't']
  | .text .nodePublicUrl _ => ascii ['n', 'o', 'd', 'e', '_', 'p', 'u', 'b', 'l', 'i', 'c', '_', 'u', 'r', 'l']
  | .text .validatorUrl _ => ascii ['v', 'a', 'l', 'i', 'd', 'a', 't', 'o', 'r', '_', 'u', 'r', 'l']
  | .text .pemFile _ => ascii ['p', 'e', 'm', '_', 'f', 'i', 'l', 'e']

/-- The text of the value. -/
def value : Setting → Bytes
  | .port n => Decimal.numeral n
  | .text _ v => v

/-- The line of the setting, in the layout of the default file. -/
def line (s : Setting) : Bytes := s.key ++ ascii [' ', ':', ' '] ++ s.value ++ [10]

def Valid : Setting → Prop
  | .port n => 1 ≤ n ∧ n ≤ 65535
  | .text f v => Plain v ∧ (f ≠ .pemFile → UrlShape v)

end Setting

/-- A file of settings. -/
def render (ss : List Setting) : Bytes := ss.flatMap Setting.line

/-- What a setting does to the structure. -/
def Config.set (cfg : Config) : Setting → Config
  | .port n => { cfg with port := n }
  | .text f v =>
    match cfg.copy f v with
    | .loaded cfg => cfg
    | _ => cfg

/-! ### Strings and lines -/

theorem trim_eq {before v after : Bytes} (hbefore : ∀ c ∈ before, isspace c = true)
    (hafter : ∀ c ∈ after, isspace c = true) (hzero : 0 ∉ before ++ v ++ after) (hne : v ≠ [])
    (hfirst : isspace (v.head hne) = false) (hlast : isspace (v.getLast hne) = false) :
    trimWhiteSpace (before ++ v ++ after) = v := by
  obtain ⟨c, u, rfl⟩ := List.exists_cons_of_ne_nil hne
  rw [trimWhiteSpace, contents_of_zero_free hzero, List.append_assoc, List.dropWhile_append_of_pos hbefore,
    List.cons_append, List.dropWhile_cons_of_neg (by simpa using hfirst), ← List.cons_append, List.rdropWhile,
    List.reverse_append, List.dropWhile_append_of_pos (fun c hc => hafter c (List.mem_reverse.mp hc)),
    ← List.rdropWhile]
  exact List.rdropWhile_eq_self_iff.mpr fun _ => by simpa using hlast

theorem strtok_colon {name rest : Bytes} (hne : name ≠ []) (hcolon : 58 ∉ name) :
    strtok (· = 58) (name ++ 58 :: rest) = some (name, rest) := by
  have hall : ∀ c ∈ name, (!decide (c = 58)) = true := by
    intro c hc
    simpa using fun h : c = 58 => hcolon (h ▸ hc)
  obtain ⟨c, u, rfl⟩ := List.exists_cons_of_ne_nil hne
  have hc := hall c (List.mem_cons_self ..)
  have hdrop : (c :: u ++ 58 :: rest).dropWhile (fun c => decide (c = 58)) = c :: u ++ 58 :: rest := by
    rw [List.cons_append, List.dropWhile_cons_of_neg (by simpa using hc)]
  rw [strtok, hdrop, if_neg (by simp), List.takeWhile_append_of_pos hall, List.dropWhile_append_of_pos hall]
  simp

theorem strtok_rest {rest : Bytes} (hne : rest ≠ []) : strtok (fun _ => false) rest = some (rest, []) := by
  have hkeep : rest.dropWhile (fun _ => false) = rest := by
    cases rest with
    | nil => rfl
    | cons c u => exact List.dropWhile_cons_of_neg (by simp)
  have hall : ∀ c ∈ rest, (fun _ : UInt8 => !false) c = true := fun _ _ => rfl
  rw [strtok, hkeep, if_neg hne, List.takeWhile_eq_self_iff.mpr hall, List.dropWhile_eq_nil_iff.mpr hall,
    List.drop_nil]

/-! ### Numbers -/

theorem char_digit {d : ℕ} (h : d < 10) : isdigit (Decimal.char d) = true ∧ isspace (Decimal.char d) = false ∧
    Decimal.char d ≠ 0 ∧ Decimal.char d ≠ 10 ∧ Decimal.char d ≠ 43 ∧ Decimal.char d ≠ 45 := by
  interval_cases d <;> decide

theorem numeral_digit {c : UInt8} (hc : c ∈ Decimal.numeral n) : ∃ d, d < 10 ∧ c = Decimal.char d := by
  obtain ⟨d, hd, rfl⟩ := List.mem_map.mp hc
  exact ⟨d, Decimal.row_lt hd, rfl⟩

theorem numeral_plain (hle : n ≤ 65535) : Plain (Decimal.numeral n) := by
  have hne : Decimal.numeral n ≠ [] := by simpa [Decimal.numeral, Decimal.text] using Decimal.row_ne_nil n
  have hchar (c : UInt8) (hc : c ∈ Decimal.numeral n) : isspace c = false ∧ c ≠ 0 ∧ c ≠ 10 := by
    obtain ⟨d, hd, rfl⟩ := numeral_digit hc
    exact ⟨(char_digit hd).2.1, (char_digit hd).2.2.1, (char_digit hd).2.2.2.1⟩
  have hlen : (Decimal.row n).length ≤ 5 := by
    rw [Decimal.row]
    split
    · simp
    · exact (shortest_length_le (by decide)).mpr (by omega)
  refine ⟨hne, fun h => (hchar 0 h).2.1 rfl, fun h => (hchar 10 h).2.2 rfl, (hchar _ (List.head_mem hne)).1,
    (hchar _ (List.getLast_mem hne)).1, ?_⟩
  rw [Decimal.numeral, Decimal.text, List.length_map, maxString]
  omega

theorem foldl_digits (ds : List ℕ) (hds : ∀ d ∈ ds, d < 10) (n : ℕ) :
    (Decimal.text ds).foldl (fun (n : ℤ) c => n * 10 + (c.toNat - 48 : ℕ)) n =
      (ds.foldl (fun n d => n * 10 + d) n : ℕ) := by
  induction ds generalizing n with
  | nil => rfl
  | cons d ds ih =>
    have hd := hds d (List.mem_cons_self ..)
    rw [Decimal.text, List.map_cons, List.foldl_cons, ← Decimal.text, Decimal.char_toNat hd, List.foldl_cons,
      ← ih (fun e he => hds e (List.mem_cons_of_mem _ he))]
    congr 1
    push_cast
    omega

theorem atoi_numeral (hle : n ≤ 65535) : atoi (Decimal.numeral n) = n := by
  have hplain := numeral_plain hle
  obtain ⟨d, ds, hrow⟩ : ∃ d ds, Decimal.row n = d :: ds := List.exists_cons_of_ne_nil (Decimal.row_ne_nil n)
  have hlt : ∀ e ∈ d :: ds, e < 10 := fun e he => Decimal.row_lt (n := n) (hrow ▸ he)
  obtain ⟨-, hspace, -, -, hplus, hminus⟩ := char_digit (hlt d (List.mem_cons_self ..))
  have htext : Decimal.numeral n = Decimal.char d :: Decimal.text ds := by rw [Decimal.numeral, hrow]; rfl
  have hdigits : (Decimal.numeral n).takeWhile isdigit = Decimal.numeral n := by
    rw [List.takeWhile_eq_self_iff]
    intro c hc
    obtain ⟨e, he, rfl⟩ := numeral_digit hc
    exact (char_digit he).1
  have hvalue := foldl_digits (Decimal.row n) (fun e he => Decimal.row_lt he) 0
  rw [← horner, Decimal.horner_row, ← Decimal.numeral] at hvalue
  have hdrop : (Decimal.numeral n).dropWhile isspace = Decimal.numeral n := by
    rw [htext, List.dropWhile_cons_of_neg (by simpa using hspace)]
  have hhead : (Decimal.numeral n).head? = some (Decimal.char d) := by rw [htext]; rfl
  simp only [atoi, contents_of_zero_free hplain.zero, hdrop, hhead, Option.some.injEq, hplus, hminus, or_self, if_false,
    hdigits, decide_false, Bool.false_eq_true]
  rw [show (0 : ℤ) = ((0 : ℕ) : ℤ) from rfl, hvalue, min_eq_left (by omega)]
  exact Int.bmod_eq_of_le (by omega) (by omega)

/-! ### One line -/

section Lines

variable {cfg : Config} {s : Setting}

theorem Setting.Valid.plain (h : s.Valid) : Plain s.value := by
  cases s with
  | port n => exact numeral_plain h.2
  | text f v => exact h.1

theorem Setting.key_facts (s : Setting) : s.key ≠ [] ∧ 0 ∉ s.key ∧ 10 ∉ s.key ∧ 58 ∉ s.key ∧
    (∀ c ∈ s.key, isspace c = false) ∧ s.key.length ≤ 15 := by
  cases s with
  | port n => rw [Setting.key]; decide +kernel
  | text f v => cases f <;> rw [Setting.key] <;> decide +kernel

theorem copy_fits (cfg : Config) (f : Field) {v : Bytes} (hv : v.length < maxString) :
    cfg.copy f v = .loaded (cfg.set (.text f v)) := by
  have hfits : f.offset + v.length ≤ 3 * maxString := by
    cases f <;> simp only [Field.offset] <;> omega
  simp only [Config.set, Config.copy, dif_pos hfits]

theorem assign_line (h : s.Valid) (cfg : Config) :
    assignToConfig cfg (s.key ++ [32]) (32 :: s.value) = .loaded (cfg.set s) := by
  obtain ⟨hkne, hkzero, -, -, hkspace, -⟩ := s.key_facts
  have hplain := h.plain
  have hspace : ∀ c ∈ [(32 : UInt8)], isspace c = true := by decide +kernel
  have hname : trimWhiteSpace (s.key ++ [32]) = s.key := by
    have hzero : 0 ∉ [] ++ s.key ++ [32] := by simp [hkzero]
    exact trim_eq (by simp) hspace hzero hkne (hkspace _ (List.head_mem hkne)) (hkspace _ (List.getLast_mem hkne))
  have htoken : trimWhiteSpace (32 :: s.value) = s.value := by
    have hzero : 0 ∉ [32] ++ s.value ++ [] := by simp [hplain.zero]
    have htrim := trim_eq hspace (by simp) hzero hplain.ne_nil hplain.first hplain.last
    rwa [List.append_nil, List.singleton_append] at htrim
  have hlen : ¬ s.value.length > maxTokenValueLength := by
    have hfits := hplain.fits
    simp only [maxString, maxTokenValueLength] at hfits ⊢
    omega
  simp only [assignToConfig, hname, htoken, if_neg hlen]
  cases s with
  | port n =>
    obtain ⟨hn, hle⟩ := h
    simp only [Setting.key, if_true, Setting.value, atoi_numeral hle]
    rw [if_neg (by omega)]
    rfl
  | text f v =>
    have hurl : f ≠ .pemFile → isValidUrl v = true := by
      intro hf
      rw [valid_url_iff, contents_of_zero_free h.1.zero]
      exact h.2 hf
    cases f with
    | nodePublicUrl =>
      rw [Setting.key, if_neg (by decide), if_pos rfl, Setting.value, if_pos (hurl (by decide)), copy_fits _ _ h.1.fits]
    | validatorUrl =>
      rw [Setting.key, if_neg (by decide), if_neg (by decide), if_pos rfl, Setting.value, if_pos (hurl (by decide)),
        copy_fits _ _ h.1.fits]
    | pemFile =>
      rw [Setting.key, if_neg (by decide), if_neg (by decide), if_neg (by decide), if_pos rfl, Setting.value,
        copy_fits _ _ h.1.fits]

theorem readLine_line (h : s.Valid) (cfg : Config) : readLine cfg s.line = .loaded (cfg.set s) := by
  obtain ⟨hkne, hkzero, -, hkcolon, hkspace, hklen⟩ := s.key_facts
  have hplain := h.plain
  have htrim : trimWhiteSpace s.line = s.key ++ [32] ++ 58 :: 32 :: s.value := by
    have hzero : 0 ∉ [] ++ (s.key ++ [32] ++ 58 :: 32 :: s.value) ++ [10] := by
      simp [hkzero, hplain.zero]
    have hline : s.line = [] ++ (s.key ++ [32] ++ 58 :: 32 :: s.value) ++ [10] := by
      simp [Setting.line, ascii]
    rw [hline]
    refine trim_eq (by simp) (by decide +kernel) hzero (by simp) ?_ ?_
    · rw [List.head_append_of_ne_nil (by simp), List.head_append_of_ne_nil hkne]
      exact hkspace _ (List.head_mem hkne)
    · rw [List.getLast_append_of_ne_nil _ (by simp), List.getLast_cons (by simp), List.getLast_cons hplain.ne_nil]
      exact hplain.last
  have hname : (s.key ++ [32]).length ≤ 16 := by
    rw [List.length_append, List.length_singleton]
    omega
  have hmax : maxTokenNameLength = 8192 := rfl
  rw [readLine, htrim, strtok_colon (by simp) (by simp [hkcolon])]
  dsimp only
  rw [if_neg (by omega), if_neg (by omega), strtok_rest (by simp)]
  exact assign_line h cfg

end Lines

/-! ### A whole file -/

section Files

variable {ss : List Setting}

theorem fgets_line {s : Setting} (h : s.Valid) (rest : Bytes) : fgets (s.line ++ rest) = s.line := by
  obtain ⟨-, -, hknl, -, -, hklen⟩ := s.key_facts
  have hplain := h.plain
  have hbody : s.line = (s.key ++ ascii [' ', ':', ' '] ++ s.value) ++ [10] := rfl
  have hall : ∀ c ∈ s.key ++ ascii [' ', ':', ' '] ++ s.value, decide (c ≠ 10) = true := by
    intro c hc
    rw [decide_eq_true_eq]
    rintro rfl
    simp only [List.mem_append, hknl, hplain.newline, or_false, false_or] at hc
    revert hc
    decide
  have hlen : s.line.length ≤ maxLineLength - 1 := by
    have hfits := hplain.fits
    simp only [hbody, List.length_append, ascii, List.length_map, List.length_cons, List.length_nil, maxLineLength,
      maxString] at hfits ⊢
    omega
  have htake : ((s.line ++ rest).takeWhile (· ≠ 10)).length + 1 = s.line.length := by
    rw [hbody, List.append_assoc, List.takeWhile_append_of_pos hall]
    simp
    omega
  rw [fgets, htake, List.take_left, List.take_of_length_le hlen]

theorem line_ne_nil (s : Setting) : s.line ≠ [] := by simp [Setting.line]

theorem fileLines_render (h : ∀ s ∈ ss, s.Valid) : ∀ {n : ℕ}, (render ss).length ≤ n →
    fileLines n (render ss) = ss.map Setting.line := by
  induction ss with
  | nil =>
    intro n _
    cases n <;> simp [fileLines, render]
  | cons s ss ih =>
    intro n hn
    have hline := fgets_line (h s (List.mem_cons_self ..)) (render ss)
    have hrender : render (s :: ss) = s.line ++ render ss := rfl
    have hpos := List.length_pos_of_ne_nil (line_ne_nil s)
    rw [hrender, List.length_append] at hn
    obtain ⟨n, rfl⟩ : ∃ m, n = m + 1 := ⟨n - 1, by omega⟩
    rw [hrender, fileLines, if_neg (by simp [line_ne_nil s]), hline, List.drop_left, List.map_cons,
      ih (fun t ht => h t (List.mem_cons_of_mem _ ht)) (by omega)]

/-- RUN: a file of settings is read to its end, and the settings are made in their order. -/
theorem load_render (h : ∀ s ∈ ss, s.Valid) (cfg : Config) :
    configNewFromFile cfg (some (render ss)) = .loaded (ss.foldl Config.set cfg) := by
  rw [configNewFromFile, fileLines_render h le_rfl]
  induction ss generalizing cfg with
  | nil => rfl
  | cons s ss ih =>
    rw [List.map_cons, readLines, readLine_line (h s (List.mem_cons_self ..)), List.foldl_cons]
    exact ih (fun t ht => h t (List.mem_cons_of_mem _ ht)) (cfg.set s)

end Files

/-! ### Bytes of the structure -/

section Memory

variable {ss : List Setting} {f g : Field} {i : ℕ}

/-- What a setting leaves at a place of an array, `x` having been there. -/
def Setting.at (f : Field) (i : ℕ) (x : Option UInt8) : Setting → Option UInt8
  | .port _ => x
  | .text g v => if g = f ∧ i < v.length then v[i]? else x

theorem getElem?_overwrite (l v : Bytes) {off : ℕ} (h : off + v.length ≤ l.length) (k : ℕ) :
    (l.take off ++ v ++ l.drop (off + v.length))[k]? =
      if off ≤ k ∧ k < off + v.length then v[k - off]? else l[k]? := by
  have htake : (l.take off).length = off := by rw [List.length_take]; omega
  by_cases hlow : k < off
  · rw [List.append_assoc, List.getElem?_append_left (by omega), List.getElem?_take_of_lt hlow, if_neg (by omega)]
  · rw [List.append_assoc, List.getElem?_append_right (by omega), htake]
    by_cases hin : k < off + v.length
    · rw [List.getElem?_append_left (by omega), if_pos ⟨by omega, hin⟩]
    · rw [List.getElem?_append_right (by omega), List.getElem?_drop, if_neg (by omega)]
      congr 1
      omega

theorem set_byte {s : Setting} (h : s.Valid) (cfg : Config) (hi : i < maxString) :
    (cfg.set s).strings[f.offset + i]? = s.at f i cfg.strings[f.offset + i]? := by
  cases s with
  | port n => rfl
  | text g v =>
    have hv := h.1.fits
    have hfits : g.offset + v.length ≤ 3 * maxString := by
      cases g <;> simp only [Field.offset] <;> omega
    have hset : (cfg.set (.text g v)).strings =
        cfg.strings.take g.offset ++ v ++ cfg.strings.drop (g.offset + v.length) := by
      simp only [Config.set, Config.copy, dif_pos hfits]
    rw [hset, getElem?_overwrite _ _ (by rw [cfg.len]; exact hfits), Setting.at]
    by_cases hg : g = f
    · subst hg
      simp
    · -- another array ends before this one begins, or begins behind it
      rw [if_neg (by cases f <;> cases g <;> simp_all only [Field.offset, not_true_eq_false] <;> omega),
        if_neg fun hand => hg hand.1]

/-- RUN (memory): the byte is that of the last value that reaches it. -/
theorem foldl_byte (h : ∀ s ∈ ss, s.Valid) (cfg : Config) (hi : i < maxString) :
    (ss.foldl Config.set cfg).strings[f.offset + i]? =
      ss.foldl (fun x s => s.at f i x) cfg.strings[f.offset + i]? := by
  induction ss generalizing cfg with
  | nil => rfl
  | cons s ss ih =>
    rw [List.foldl_cons, List.foldl_cons, ih (fun t ht => h t (List.mem_cons_of_mem _ ht)),
      set_byte (h s (List.mem_cons_self ..)) cfg hi]

theorem foldl_at_of_short {x : Option UInt8} (h : ∀ v, .text f v ∈ ss → v.length ≤ i) :
    ss.foldl (fun x s => s.at f i x) x = x := by
  induction ss generalizing x with
  | nil => rfl
  | cons s ss ih =>
    have hs : s.at f i x = x := by
      cases s with
      | port n => rfl
      | text g v =>
        refine if_neg ?_
        rintro ⟨rfl, hlt⟩
        exact absurd (h v (List.mem_cons_self ..)) (by omega)
    rw [List.foldl_cons, hs, ih fun v hv => h v (List.mem_cons_of_mem _ hv)]

theorem foldl_at_of_long {x : Option UInt8} (hvalid : ∀ s ∈ ss, s.Valid) {v : Bytes} (hv : .text f v ∈ ss)
    (hlong : i < v.length) : ss.foldl (fun x s => s.at f i x) x ≠ some 0 := by
  have hkeep (t : Setting) (ht : t.Valid) {x : Option UInt8} (hx : x ≠ some 0) : t.at f i x ≠ some 0 := by
    cases t with
    | port n => exact hx
    | text g u =>
      rw [Setting.at]
      split
      · exact fun h0 => ht.1.zero (List.mem_of_getElem? h0)
      · exact hx
  obtain ⟨before, after, rfl⟩ := List.append_of_mem hv
  rw [List.foldl_append, List.foldl_cons]
  have hhere : (Setting.text f v).at f i (before.foldl (fun x s => s.at f i x) x) ≠ some 0 := by
    rw [Setting.at, if_pos ⟨rfl, hlong⟩]
    exact fun h0 => (hvalid _ hv).1.zero (List.mem_of_getElem? h0)
  have hafter : ∀ t ∈ after, t.Valid := fun t ht => hvalid t (by simp [ht])
  clear hv hvalid
  generalize (Setting.text f v).at f i (before.foldl (fun x s => s.at f i x) x) = y at hhere
  induction after generalizing y with
  | nil => exact hhere
  | cons t after ih =>
    exact ih (fun u hu => hafter u (List.mem_cons_of_mem _ hu)) _ (hkeep t (hafter t (List.mem_cons_self ..)) hhere)

theorem contents_eq_iff {mem v : Bytes} (hzero : 0 ∉ v) (hlen : v.length < mem.length)
    (hv : ∀ i < v.length, mem[i]? = v[i]?) : contents mem = v ↔ mem[v.length]? = some 0 := by
  have htake : mem.take v.length = v := by
    refine List.ext_getElem? fun i => ?_
    by_cases hi : i < v.length
    · rw [List.getElem?_take_of_lt hi, hv i hi]
    · rw [List.getElem?_eq_none (by rw [List.length_take]; omega), List.getElem?_eq_none (by omega)]
  have hsplit : mem = v ++ mem[v.length] :: mem.drop (v.length + 1) := by
    nth_rewrite 1 [← List.take_append_drop v.length mem]
    rw [htake, List.drop_eq_getElem_cons hlen]
  rw [List.getElem?_eq_getElem hlen, Option.some.injEq]
  constructor
  · intro hc
    by_contra hne
    rw [hsplit, contents, List.takeWhile_append_of_pos, List.takeWhile_cons_of_pos (by simpa using hne)] at hc
    · simpa using congrArg List.length hc
    · intro c hc
      rw [decide_eq_true_eq]
      rintro rfl
      exact hzero hc
  · intro h0
    rw [hsplit, h0]
    exact contents_terminated hzero _

end Memory

/-- READ BACK: a file of valid settings, one to a line in the layout of the default file, in any order and with
    settings repeated, is read without an error whatever the memory of the structure holds; but the client
    finds the value that was set last for a string in the structure exactly when no longer one was set
    before it, and the byte behind it was zero by chance. -/
theorem read_back_iff {before after : List Setting} {f : Field} {v : Bytes}
    (hvalid : ∀ s ∈ before ++ .text f v :: after, s.Valid) (hlast : ∀ u, .text f u ∉ after) (cfg : Config) :
    ∃ cfg', configNewFromFile cfg (some (render (before ++ .text f v :: after))) = .loaded cfg' ∧
      (cfg'.string f = v ↔
        (∀ u, .text f u ∈ before → u.length ≤ v.length) ∧ cfg.strings[f.offset + v.length]? = some 0) := by
  have hv := (hvalid (.text f v) (by simp)).1
  refine ⟨_, load_render hvalid cfg, ?_⟩
  -- every byte of the array, by what was set before the value
  have hbyte {i : ℕ} (hi : i < maxString) :
      ((before ++ .text f v :: after).foldl Config.set cfg).strings[f.offset + i]? =
        (Setting.text f v).at f i (before.foldl (fun x s => s.at f i x) cfg.strings[f.offset + i]?) := by
    rw [foldl_byte hvalid cfg hi, List.foldl_append, List.foldl_cons]
    exact foldl_at_of_short fun u hu => absurd hu (hlast u)
  have hlen : v.length < (((before ++ .text f v :: after).foldl Config.set cfg).strings.drop f.offset).length := by
    have hfits := hv.fits
    rw [List.length_drop, Config.len]
    cases f <;> simp only [Field.offset] <;> omega
  rw [Config.string, contents_eq_iff hv.zero hlen]
  · rw [List.getElem?_drop, hbyte hv.fits, Setting.at, if_neg (by simp)]
    by_cases hlong : ∀ u, .text f u ∈ before → u.length ≤ v.length
    · rw [foldl_at_of_short hlong]
      exact ⟨fun h => ⟨hlong, h⟩, fun h => h.2⟩
    · simp only [not_forall, not_le] at hlong
      obtain ⟨u, hu, hlt⟩ := hlong
      refine iff_of_false ?_ fun h => absurd (h.1 u hu) (by omega)
      exact foldl_at_of_long (fun s hs => hvalid s (List.mem_append_left _ hs)) hu hlt
  · intro i hi
    have hfits := hv.fits
    rw [List.getElem?_drop, hbyte (by omega), Setting.at, if_pos ⟨rfl, hi⟩]

/-- A structure with one byte everywhere, and the value of the default file. -/
def filled (x : UInt8) : Config := ⟨0, List.replicate (3 * maxString) x, List.length_replicate⟩
def pemName : Bytes := ascii ['k', '.', 'p', 'e', 'm']

/-- The name of a key file is found in a structure that was cleared, and not in one that was not; and a longer
    name that was set first shows behind it. -/
theorem key_file_read_back :
    (∃ cfg, configNewFromFile (filled 0) (some (render [.text .pemFile pemName])) = .loaded cfg ∧
      cfg.string .pemFile = pemName) ∧
    (∃ cfg, configNewFromFile (filled 7) (some (render [.text .pemFile pemName])) = .loaded cfg ∧
      cfg.string .pemFile ≠ pemName) ∧
    ∃ cfg, configNewFromFile (filled 0) (some (render [.text .pemFile (pemName ++ pemName), .text .pemFile pemName])) =
      .loaded cfg ∧ cfg.string .pemFile ≠ pemName := by
  have hplain : Plain pemName := ⟨by decide, by decide, by decide, by decide, by decide, by decide⟩
  have htwice : Plain (pemName ++ pemName) := ⟨by decide, by decide, by decide, by decide, by decide, by decide⟩
  have hbehind (x : UInt8) : (filled x).strings[Field.pemFile.offset + pemName.length]? = some x := by
    rw [filled, List.getElem?_replicate, if_pos (by decide)]
  have hone : ∀ s ∈ [] ++ Setting.text .pemFile pemName :: [], s.Valid := by
    intro s hs
    cases List.mem_singleton.mp hs
    exact ⟨hplain, fun h => absurd rfl h⟩
  have htwo : ∀ s ∈ [Setting.text .pemFile (pemName ++ pemName)] ++ .text .pemFile pemName :: [], s.Valid := by
    intro s hs
    rcases List.mem_cons.mp hs with rfl | hs
    · exact ⟨htwice, fun h => absurd rfl h⟩
    · cases List.mem_singleton.mp hs
      exact ⟨hplain, fun h => absurd rfl h⟩
  obtain ⟨cleared, hcleared, hread⟩ := read_back_iff hone (by simp) (filled 0)
  obtain ⟨dirty, hdirty, hmixed⟩ := read_back_iff hone (by simp) (filled 7)
  obtain ⟨twice, htwice, hshows⟩ := read_back_iff htwo (by simp) (filled 0)
  refine ⟨⟨cleared, hcleared, hread.mpr ⟨by simp, hbehind 0⟩⟩, ⟨dirty, hdirty, fun h => ?_⟩,
    ⟨twice, htwice, fun h => ?_⟩⟩
  · have h0 := (hmixed.mp h).2
    rw [hbehind 7] at h0
    revert h0
    decide
  · have hle := (hshows.mp h).1 _ (List.mem_singleton_self _)
    revert hle
    decide

end Computantis.Client
