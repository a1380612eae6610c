import Computantis.Model.SpiceText

/-! @law numerals | name:Amounts printed and typed | family:numeric | about:Model/SpiceText

    A printed amount is exact: the zeros that the trimming takes off behind the last digit count for nothing,
    and those in front are counted before anything is trimmed. A typed amount is not: its whole units are cut
    off the number, its decimals are taken from a rounded text. Where rounding carries into the whole part,
    the text has one unit more and no decimals, and the unit is lost.

        d = 0.99999999999…     int(d) = 0     "%.10f" = 1.0000000000     amount 0.0 -/

namespace Computantis.Melange

open Schemes

/-- The exact amount in units of currency. -/
def exact (m : Melange) : ℚ := m.currency.toNat + m.supplementaryCurrency.toNat / 10 ^ 18

theorem exact_inj {m m' : Melange} (hm : m.Norm) (hm' : m'.Norm) : m.exact = m'.exact ↔ m = m' := by
  refine ⟨fun h => eq_of_value hm hm' ?_, fun h => h ▸ rfl⟩
  have hval : ∀ a : Melange, (a.value : ℚ) = a.exact * 10 ^ 18 := by
    intro a
    unfold value exact
    push_cast
    ring
  have hcast : (m.value : ℚ) = m'.value := by rw [hval, hval, h]
  exact_mod_cast hcast

/-! ### Printing -/

section Printing

open Decimal

theorem trimZeros_text {ds : List ℕ} (h : ∀ d ∈ ds, d < 10) (hhead : ∀ es, ds ≠ 0 :: es) :
    trimZeros (text ds) = text (ds.rdropWhile (· = 0)) := by
  have hfront : (text ds).dropWhile (· = 48) = text ds := by
    cases ds with
    | nil => rfl
    | cons d es =>
      have hd : d ≠ 0 := fun hd => hhead es (hd ▸ rfl)
      have hchar : char d ≠ 48 := mt (char_eq_zero (h d (List.mem_cons_self ..))).mp hd
      exact List.dropWhile_cons_of_neg (by simpa using hchar)
  rw [trimZeros, hfront]
  clear hfront hhead
  induction ds using List.reverseRecOn with
  | nil => rfl
  | append_singleton ds d ih =>
    have hds : ∀ e ∈ ds, e < 10 := fun e he => h e (List.mem_append_left _ he)
    have hd : char d = 48 ↔ d = 0 := char_eq_zero (h d (by simp))
    rw [text, List.map_append, List.map_singleton, ← text, List.rdropWhile_concat, List.rdropWhile_concat, ih hds]
    by_cases hzero : d = 0
    · rw [if_pos (by simpa using hd.mpr hzero), if_pos (by simpa using hzero)]
    · rw [if_neg (by simpa using mt hd.mp hzero), if_neg (by simpa using hzero), text, text, List.map_append,
        List.map_singleton]

/-- The digits behind the point. -/
def decimals (s : ℕ) : List ℕ :=
  if s = 0 then [0]
  else List.replicate (18 - (shortest 10 s).length) 0 ++ (shortest 10 s).rdropWhile (· = 0)

theorem shortest_trimmed {s : ℕ} (hs : s ≠ 0) :
    ∃ k, shortest 10 s = (shortest 10 s).rdropWhile (· = 0) ++ List.replicate k 0 ∧
    (shortest 10 s).rdropWhile (· = 0) ≠ [] := by
  have hsplit := List.rdropWhile_append_rtakeWhile (p := fun d : ℕ => decide (d = 0)) (l := shortest 10 s)
  have hzeros : (shortest 10 s).rtakeWhile (· = 0) =
      List.replicate ((shortest 10 s).rtakeWhile (· = 0)).length 0 := by
    refine List.eq_replicate_iff.mpr ⟨rfl, fun d hd => ?_⟩
    simpa using List.mem_rtakeWhile_imp hd
  refine ⟨((shortest 10 s).rtakeWhile (· = 0)).length, by rw [← hzeros, hsplit], fun hnil => hs ?_⟩
  rw [hnil, List.nil_append, hzeros] at hsplit
  have hval := horner_shortest 10 s
  rw [← hsplit] at hval
  have hnone := horner_append_zeros 10 ((shortest 10 s).rtakeWhile (· = 0)).length []
  rw [List.nil_append, horner_nil, Nat.zero_mul] at hnone
  exact hval.symm.trans hnone

theorem decimals_lt {s d : ℕ} (h : d ∈ decimals s) : d < 10 := by
  rw [decimals] at h
  split at h
  · simp_all
  · rcases List.mem_append.mp h with h | h
    · rw [List.mem_replicate] at h
      omega
    · exact shortest_lt (by decide) ((List.rdropWhile_prefix _ _).subset h)

theorem horner_decimals {s : ℕ} (hs : s < 10 ^ 18) :
    (horner 10 (decimals s) : ℚ) / 10 ^ (decimals s).length = s / 10 ^ 18 := by
  rw [decimals]
  split
  next hzero => simp [hzero, horner]
  next hne =>
    obtain ⟨k, hrow, -⟩ := shortest_trimmed hne
    generalize hds : (shortest 10 s).rdropWhile (· = 0) = ds at hrow
    have hval : s = horner 10 ds * 10 ^ k := by
      rw [← horner_append_zeros, ← hrow, horner_shortest]
    have hcast : (s : ℚ) = horner 10 ds * 10 ^ k := by exact_mod_cast hval
    have hlen : (shortest 10 s).length = ds.length + k := by
      rw [hrow, List.length_append, List.length_replicate]
    have hfit := (shortest_length_le (b := 10) (by decide)).mpr hs
    have hpow : (10 : ℚ) ^ 18 = 10 ^ (18 - (shortest 10 s).length + ds.length) * 10 ^ k := by
      rw [← pow_add]
      congr 1
      omega
    rw [horner_zeros, List.length_append, List.length_replicate, hpow, hcast, mul_div_mul_right]
    exact pow_ne_zero k (by norm_num)

theorem decimals_trimmed (s : ℕ) : decimals s = [0] ∨ ∃ h, (decimals s).getLast h ≠ 0 := by
  rw [decimals]
  split
  · exact .inl rfl
  next hne =>
    obtain ⟨-, -, hsome⟩ := shortest_trimmed hne
    refine .inr ⟨by simp [hsome], ?_⟩
    rw [List.getLast_append_of_ne_nil _ hsome]
    simpa using List.rdropWhile_last_not _ _ hsome

theorem decimals_ne_nil (s : ℕ) : decimals s ≠ [] := by
  rcases decimals_trimmed s with heq | ⟨h, -⟩
  · simp [heq]
  · exact h

theorem string_eq {m : Melange} (hm : m.Norm) : m.string =
    text (row m.currency.toNat) ++ point :: text (decimals m.supplementaryCurrency.toNat) := by
  have hs : m.supplementaryCurrency.toNat < 10 ^ 18 := hm
  rw [string, numeral, numeral]
  generalize m.supplementaryCurrency.toNat = s at hs ⊢
  generalize row m.currency.toNat = ws
  by_cases hzero : s = 0
  · subst hzero
    rfl
  · obtain ⟨-, -, hsome⟩ := shortest_trimmed hzero
    have hfit := (shortest_length_le (b := 10) (by decide)).mpr hs
    have hlen : (text (shortest 10 s)).length = (shortest 10 s).length := List.length_map _
    have htrim := trimZeros_text (fun d hd => shortest_lt (by decide) hd) fun es => shortest_head (x := s)
    have hzeros : ((18 : ℤ) - (shortest 10 s).length).toNat = 18 - (shortest 10 s).length := by omega
    have hchars : ∀ k, text (List.replicate k 0) = List.replicate k 48 := fun k => List.map_replicate
    have htext : text (decimals s) = List.replicate (18 - (shortest 10 s).length) 48 ++
        text ((shortest 10 s).rdropWhile (· = 0)) := by
      rw [decimals, if_neg hzero, text, List.map_append, ← text, ← text, hchars]
    have hsome' : (text ((shortest 10 s).rdropWhile (· = 0))).length ≠ 0 := by simpa [text] using hsome
    simp only [row, if_neg hzero, hlen, if_neg (show ¬ (18 : ℤ) - (shortest 10 s).length < 0 by omega), htrim,
      hzeros, htext, if_pos hsome']
    rw [if_neg (by rw [List.length_append]; omega)]

end Printing

/-- PRINTING IS FAITHFUL: the text of a normalised amount is a decimal numeral of exactly its value, with no
    zero at the end but that of a single `.0`; so two such amounts have one text exactly when they are equal. -/
theorem string_faithful {m : Melange} (hm : m.Norm) :
    Decimal.value m.string = some m.exact ∧ Decimal.Trimmed m.string ∧
      ∀ m' : Melange, m'.Norm → (m.string = m'.string ↔ m = m') := by
  have hvalue : ∀ a : Melange, a.Norm → Decimal.value a.string = some a.exact := by
    intro a ha
    rw [string_eq ha, Decimal.value_text (fun _ => Decimal.row_lt) (Decimal.row_ne_nil _) (fun _ => decimals_lt)
      (decimals_ne_nil _), Decimal.horner_row, horner_decimals ha, exact]
  refine ⟨hvalue m hm, ?_, fun m' hm' => ⟨fun h => ?_, fun h => h ▸ rfl⟩⟩
  · rw [string_eq hm, Decimal.Trimmed, Decimal.fraction_text fun _ => Decimal.row_lt]
    rcases decimals_trimmed m.supplementaryCurrency.toNat with heq | ⟨hne, hlast⟩
    · exact .inl (by rw [heq]; rfl)
    · have hdigit : (decimals m.supplementaryCurrency.toNat).getLast hne < 10 := decimals_lt (List.getLast_mem hne)
      right
      rw [Decimal.text, List.getLast?_map, List.getLast?_eq_some_getLast hne, Option.map_some, ne_eq,
        Option.some.injEq, Decimal.char_eq_zero hdigit]
      exact hlast
  · have hsame := (hvalue m hm).symm.trans (h ▸ hvalue m' hm')
    exact (exact_inj hm hm').mp (Option.some.inj hsame)

/-- Zeros in front of the last digit stay, zeros behind it go. -/
theorem fifty_prints :
    Norm ⟨3, 50⟩ ∧ Decimal.value (string ⟨3, 50⟩) = some (exact ⟨3, 50⟩) ∧ Decimal.Trimmed (string ⟨3, 50⟩) ∧
      (string ⟨3, 50⟩ = string ⟨3, 5⟩ ↔ (⟨3, 50⟩ : Melange) = ⟨3, 5⟩) := by
  have hnorm : Norm ⟨3, 50⟩ := by decide
  obtain ⟨hval, htrim, hinj⟩ := string_faithful hnorm
  exact ⟨hnorm, hval, htrim, hinj ⟨3, 5⟩ (by decide)⟩

example : string ⟨3, 50⟩ = [51, 46] ++ List.replicate 16 48 ++ [53] := by decide

/-! ### Typing -/

section Typing

open Decimal

/-- The buffer spells what the digits read so far spell, and nothing has been written while they are zeros. -/
structure Written (es : List ℕ) (s : Bool × Bytes) : Prop where
  spelled : ∃ bs, s.2 = text bs ∧ (∀ d ∈ bs, d < 10) ∧ horner 10 bs = horner 10 es
  leading : s.1 = false → horner 10 es = 0

namespace Written

variable {es : List ℕ} {s : Bool × Bytes}

theorem push (h : Written es s) {d : ℕ} (hd : d < 10) (passed : Bool)
    (hpassed : passed = false → horner 10 (es ++ [d]) = 0) : Written (es ++ [d]) (passed, s.2 ++ [char d]) := by
  obtain ⟨bs, htext, hdigits, hval⟩ := h.spelled
  refine ⟨⟨bs ++ [d], ?_, ?_, ?_⟩, hpassed⟩
  · rw [htext, text, text, List.map_append, List.map_singleton]
  · intro e he
    rcases List.mem_append.mp he with he | he
    · exact hdigits e he
    · rwa [List.mem_singleton.mp he]
  · rw [horner_concat, horner_concat, hval]

theorem decimal (h : Written es s) {d : ℕ} (hd : d < 10) : Written (es ++ [d]) (writeDecimal s (some (char d))) := by
  rw [writeDecimal]
  split
  · exact h.push hd true fun hfalse => absurd hfalse (by simp)
  next hskip =>
    -- a zero in front is not written
    rw [not_or, not_not, char_eq_zero hd, Bool.not_eq_true] at hskip
    obtain ⟨rfl, hpassed⟩ := hskip
    have hzero : horner 10 (es ++ [0]) = horner 10 es := by rw [horner_concat, h.leading hpassed]
    obtain ⟨bs, htext, hdigits, hval⟩ := h.spelled
    exact ⟨⟨bs, htext, hdigits, hval.trans hzero.symm⟩, fun _ => hzero.trans (h.leading hpassed)⟩

theorem pad (h : Written es s) : Written (es ++ [0]) (writeDecimal s none) := by
  refine h.push (by decide) s.1 fun hpassed => ?_
  rw [horner_concat, h.leading hpassed]

theorem decimals (ds : List ℕ) : ∀ {es : List ℕ} {s : Bool × Bytes}, Written es s → (∀ d ∈ ds, d < 10) →
    Written (es ++ ds) ((ds.map fun d => some (char d)).foldl writeDecimal s) := by
  induction ds with
  | nil =>
    intro es s h _
    simpa using h
  | cons d ds ih =>
    intro es s h hds
    have hrest := ih (h.decimal (hds d (List.mem_cons_self ..))) fun e he => hds e (List.mem_cons_of_mem d he)
    rwa [List.append_assoc] at hrest

theorem padding (k : ℕ) : ∀ {es : List ℕ} {s : Bool × Bytes}, Written es s →
    Written (es ++ List.replicate k 0) ((List.replicate k none).foldl writeDecimal s) := by
  induction k with
  | zero =>
    intro es s h
    simpa using h
  | succ k ih =>
    intro es s h
    have hrest := ih h.pad
    rwa [List.append_assoc] at hrest

end Written

theorem map_range_getElem {p : Bytes} {n : ℕ} (h : p.length ≤ n) :
    (List.range n).map (p[·]?) = p.map some ++ List.replicate (n - p.length) none := by
  refine List.ext_getElem (by simp; omega) fun i hi hi' => ?_
  rw [List.getElem_map, List.getElem_range]
  rcases Nat.lt_or_ge i p.length with hlt | hge
  · rw [List.getElem_append_left (by simpa using hlt), List.getElem_map, List.getElem?_eq_getElem hlt]
  · rw [List.getElem_append_right (by simpa using hge), List.getElem_replicate, List.getElem?_eq_none hge]

theorem atoi_decimalsBuffer {ds : List ℕ} (hds : ∀ d ∈ ds, d < 10) (hlen : ds.length ≤ 18) :
    atoi (decimalsBuffer (text ds)) = horner 10 ds * 10 ^ (18 - ds.length) := by
  have hchars : (text ds).length = ds.length := List.length_map _
  have hstart : Written [] (false, []) := ⟨⟨[], rfl, by simp, rfl⟩, fun _ => rfl⟩
  obtain ⟨bs, htext, hdigits, hval⟩ := ((hstart.decimals ds hds).padding (18 - ds.length)).spelled
  have hbuffer : decimalsBuffer (text ds) = text bs := by
    rw [decimalsBuffer, map_range_getElem (by omega), hchars, text, List.map_map, List.foldl_append]
    exact htext
  have hread : atoi (text bs) = horner 10 bs := by
    rw [atoi]
    rcases eq_or_ne bs [] with rfl | hne
    · rfl
    · rw [read_text hdigits hne, Option.getD_some]
  rw [hbuffer, hread, hval, List.nil_append, horner_append_zeros]

/-- The number of ten-billionths in the text with ten decimals. -/
def rounded (d : ℚ) : ℕ := (roundEven (d * 10 ^ 10)).toNat

theorem convertFloatToInt_eq (d : ℚ) : convertFloatToInt d = (⌊d⌋, rounded d % 10 ^ 10 * 10 ^ 8) := by
  have hlt : rounded d % 10 ^ 10 < 10 ^ 10 := Nat.mod_lt _ (by norm_num)
  have hlen := padded_length (b := 10) (by decide) hlt
  have hpoint : point ∈ fixed 10 d := by simp [fixed]
  have hatoi := atoi_decimalsBuffer (fun e => padded_lt (b := 10) (n := 10) (x := rounded d % 10 ^ 10) (by decide))
    (by omega)
  rw [hlen, horner_padded] at hatoi
  rw [convertFloatToInt, if_neg (not_not.mpr hpoint), fraction_fixed]
  exact congrArg (Prod.mk ⌊d⌋) hatoi

variable {d : ℚ}

/-- What is typed comes out normalised, as the whole units of the number and the decimals of its text. -/
theorem fromFloat_spec (h0 : 0 < d) (h1 : d < 2 ^ 63) : (fromFloat d).Norm ∧
    (fromFloat d).exact = ⌊d⌋ + ((rounded d % 10 ^ 10 : ℕ) : ℚ) / 10 ^ 10 := by
  have hfloor : (⌊d⌋.toNat : ℤ) = ⌊d⌋ := Int.toNat_of_nonneg (Int.floor_nonneg.mpr h0.le)
  have hcur : ⌊d⌋.toNat < 2 ^ 64 := by
    have hlt : ⌊d⌋ < 2 ^ 63 := Int.floor_lt.mpr (by exact_mod_cast h1)
    omega
  have hsup : rounded d % 10 ^ 10 * 10 ^ 8 < 10 ^ 18 := by
    have := Nat.mod_lt (rounded d) (show 10 ^ 10 > 0 by norm_num)
    omega
  have hcell : fromFloat d = ⟨UInt64.ofNat ⌊d⌋.toNat, UInt64.ofNat (rounded d % 10 ^ 10 * 10 ^ 8)⟩ := by
    rw [fromFloat, if_neg (not_le.mpr h0), convertFloatToInt_eq]
    simp only [new]
    rw [if_neg]
    rw [ge_iff_le, UInt64.le_iff_toNat_le, toNat_maxAmount,
      UInt64.toNat_ofNat_of_lt' (by simp only [UInt64.size]; omega)]
    omega
  have hwords : (UInt64.ofNat ⌊d⌋.toNat).toNat = ⌊d⌋.toNat ∧
      (UInt64.ofNat (rounded d % 10 ^ 10 * 10 ^ 8)).toNat = rounded d % 10 ^ 10 * 10 ^ 8 :=
    ⟨UInt64.toNat_ofNat_of_lt' hcur, UInt64.toNat_ofNat_of_lt' (by simp only [UInt64.size]; omega)⟩
  have hcast : ((⌊d⌋.toNat : ℕ) : ℚ) = ⌊d⌋ := by exact_mod_cast congrArg (Int.cast (R := ℚ)) hfloor
  rw [hcell, Norm, exact, hwords.1, hwords.2, hcast]
  refine ⟨hsup, ?_⟩
  push_cast
  ring

theorem rounded_bounds (h0 : 0 < d) : |(rounded d : ℚ) - d * 10 ^ 10| ≤ 1 / 2 ∧ ⌊d⌋ * 10 ^ 10 ≤ rounded d ∧
    (rounded d : ℤ) ≤ (⌊d⌋ + 1) * 10 ^ 10 ∧
    ((rounded d : ℤ) < (⌊d⌋ + 1) * 10 ^ 10 ↔ Int.fract d < 1 - 1 / (2 * 10 ^ 10)) := by
  have hlow := Int.floor_le d
  have hhigh := Int.lt_floor_add_one d
  have hnonneg := Int.floor_nonneg.mpr h0.le
  have hnear := abs_roundEven_sub (d * 10 ^ 10)
  generalize hR : roundEven (d * 10 ^ 10) = R at hnear
  obtain ⟨hfrom, hto⟩ := abs_le.mp hnear
  have hge : ⌊d⌋ * 10 ^ 10 ≤ R := by
    have hcast : ((⌊d⌋ * 10 ^ 10 - 1 : ℤ) : ℚ) < R := by push_cast; linarith
    have := Int.cast_lt.mp hcast
    omega
  have hle : R ≤ (⌊d⌋ + 1) * 10 ^ 10 := by
    have hcast : (R : ℚ) < (((⌊d⌋ + 1) * 10 ^ 10 + 1 : ℤ) : ℚ) := by push_cast; linarith
    have := Int.cast_lt.mp hcast
    omega
  have hround : (rounded d : ℤ) = R := by
    rw [rounded, hR]
    exact Int.toNat_of_nonneg (by omega)
  have hcast : (rounded d : ℚ) = R := by exact_mod_cast congrArg (Int.cast (R := ℚ)) hround
  rw [hround, hcast]
  refine ⟨hnear, hge, hle, ?_⟩
  rw [Int.fract]
  constructor
  · intro hlt
    by_contra hfar
    -- the last ten-billionth below the next unit is an odd one, so that also a tie goes up
    have hbelow : ⌊d * 10 ^ 10⌋ = (⌊d⌋ + 1) * 10 ^ 10 - 1 := by
      rw [Int.floor_eq_iff]
      push_cast
      constructor <;> linarith
    have hup : roundEven (d * 10 ^ 10) = ⌊d * 10 ^ 10⌋ + 1 := by
      refine roundEven_up ?_ (by omega)
      rw [hbelow]
      push_cast
      linarith
    omega
  · intro hfar
    have hcast : (R : ℚ) < (((⌊d⌋ + 1) * 10 ^ 10 : ℤ) : ℚ) := by push_cast; linarith
    exact Int.cast_lt.mp hcast

/-- A typed amount is not distorted: it comes out normalised and within one ten-billionth. -/
structure Undistorted (d : ℚ) : Prop where
  norm : (fromFloat d).Norm
  close : |(fromFloat d).exact - d| ≤ 1 / 10 ^ 10

/-- VERDICT: a typed amount is not distorted exactly when rounding it to ten decimals does not carry into the
    whole units. -/
theorem fromFloat_undistorted_iff (h0 : 0 < d) (h1 : d < 2 ^ 63) :
    Undistorted d ↔ Int.fract d < 1 - 1 / (2 * 10 ^ 10) := by
  obtain ⟨hnorm, hexact⟩ := fromFloat_spec h0 h1
  obtain ⟨hnear, hge, hle, hcarry⟩ := rounded_bounds h0
  constructor
  · intro h
    by_contra hfar
    -- the text shows the next whole unit
    have hfull : (rounded d : ℤ) = (⌊d⌋ + 1) * 10 ^ 10 := le_antisymm hle (not_lt.mp (mt hcarry.mp hfar))
    have hnone : rounded d % 10 ^ 10 = 0 := by omega
    have hclose := h.close
    rw [hexact, hnone, Nat.cast_zero, zero_div, add_zero, abs_le] at hclose
    rw [Int.fract] at hfar
    linarith [hclose.1]
  · intro hfract
    have hlt := hcarry.mpr hfract
    have hmod : ((rounded d % 10 ^ 10 : ℕ) : ℤ) = rounded d - ⌊d⌋ * 10 ^ 10 := by omega
    have hcast : ((rounded d % 10 ^ 10 : ℕ) : ℚ) = (rounded d : ℚ) - ⌊d⌋ * 10 ^ 10 := by
      rw [← Int.cast_natCast, hmod]
      push_cast
      ring
    refine ⟨hnorm, ?_⟩
    rw [hexact, hcast]
    obtain ⟨hlow, hhigh⟩ := abs_le.mp hnear
    rw [abs_le]
    constructor <;> linarith

end Typing

/-- A float just below one loses its unit. -/
theorem almost_one_typed_as_zero :
    fromFloat (1 - 1 / 2 ^ 40) = ⟨0, 0⟩ ∧ ¬ Undistorted (1 - 1 / 2 ^ 40) := by
  have hcell : fromFloat (1 - 1 / 2 ^ 40) = ⟨0, 0⟩ := by decide +kernel
  refine ⟨hcell, fun h => ?_⟩
  have hclose := h.close
  rw [hcell, exact, abs_le] at hclose
  norm_num at hclose

/-- Leading zeros of the fraction are kept. -/
theorem small_amount_typed : Undistorted (3 / 64) ∧ fromFloat (3 / 64) = ⟨0, 46875000000000000⟩ :=
  ⟨(fromFloat_undistorted_iff (by norm_num) (by norm_num)).mpr (by norm_num), by decide +kernel⟩

end Computantis.Melange
