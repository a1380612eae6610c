import Computantis.Laws.Assumptions
import Computantis.Model.Client
import Computantis.Schemes.Base58

/-! @law addresses | name:Addresses in Go and in C | family:refinement | about:Model/Client, Model/Wallet

    Go decodes an address to as many bytes as it stands for; C fills a buffer of 37 bytes with the number that
    its digits spell. The two agree on strings that are written canonically, with one leading `1` for every
    leading zero byte. A string with a `1` too few or too many is another address to Go, and the same buffer
    to C. The checksums are compared as byte slices in Go and as strings in C, where a zero byte in both ends
    the comparison.

        s ──digits──▶ number ──37 bytes──▶ version │ key │ checksum -/

namespace Computantis.Client

open Schemes Schemes.CString

/-! ### The words of the decoder -/

theorem b58digit_eq (c : UInt8) : b58digit c = (Base58.digit c).map UInt32.ofNat := by
  have htable : ∀ n < 256, b58digit (UInt8.ofNat n) = (Base58.digit (UInt8.ofNat n)).map UInt32.ofNat := by
    decide +kernel
  have h := htable c.toNat c.toNat_lt
  rwa [UInt8.ofNat_toNat] at h

theorem nats_lt (ws : List UInt32) : ∀ d ∈ ws.map UInt32.toNat, d < 2 ^ 32 := by
  intro d hd
  obtain ⟨w, -, rfl⟩ := List.mem_map.mp hd
  exact w.toNat_lt

theorem mulAdd58_eq {c : UInt32} (hc : c.toNat < 58) (ws : List UInt32) :
    ((mulAdd58 c ws).1.map UInt32.toNat, (mulAdd58 c ws).2.toNat) =
      sweep (2 ^ 32) 58 c.toNat (ws.map UInt32.toNat) := by
  induction ws with
  | nil => rfl
  | cons w ws ih =>
    obtain ⟨hdigits, hcarry⟩ := Prod.ext_iff.mp ih
    have hw := w.toNat_lt
    have hlt : (mulAdd58 c ws).2.toNat < 58 := by
      have := sweep_carry_lt (b := 2 ^ 32) (m := 58) (by decide) hc (nats_lt ws)
      rwa [← hcarry] at this
    -- the product and the carry fit in 64 bits
    have ht : (w.toUInt64 * 58 + (mulAdd58 c ws).2.toUInt64).toNat = w.toNat * 58 + (mulAdd58 c ws).2.toNat := by
      simp only [UInt64.toNat_add, UInt64.toNat_mul, UInt32.toNat_toUInt64, UInt64.reduceToNat]
      omega
    have hlow : ∀ t : UInt64, (t &&& 0xffffffff).toUInt32.toNat = t.toNat % 2 ^ 32 := fun t => by
      have hmask : (0xffffffff : UInt64).toNat = 2 ^ 32 - 1 := rfl
      rw [UInt64.toNat_toUInt32, UInt64.toNat_and, hmask, Nat.and_two_pow_sub_one_eq_mod, Nat.mod_mod]
    have hhigh : ∀ t : UInt64, (t >>> 32).toUInt32.toNat = t.toNat / 2 ^ 32 := fun t => by
      have := t.toNat_lt
      have hshift : (32 : UInt64).toNat % 64 = 32 := rfl
      rw [UInt64.toNat_toUInt32, UInt64.toNat_shiftRight, hshift, Nat.shiftRight_eq_div_pow]
      omega
    simp only [mulAdd58, List.map_cons, sweep, hlow, hhigh, ht, ← hdigits, ← hcarry]

theorem masked_iff (w : UInt32) : w &&& 0xffffff00 = 0 ↔ w.toNat < 256 := by
  have hmask : (0xffffff00 : UInt32).toNat = (2 ^ 24 - 1) * 2 ^ 8 := rfl
  have hw := w.toNat_lt
  rw [← UInt32.toNat_inj, UInt32.toNat_and, hmask, UInt32.toNat_zero]
  -- what the mask keeps of `w` is what stands above its low byte
  have hkeep : w.toNat &&& (2 ^ 24 - 1) * 2 ^ 8 = w.toNat / 2 ^ 8 * 2 ^ 8 := by
    refine Nat.eq_of_testBit_eq fun i => ?_
    rw [Nat.testBit_and, Nat.testBit_mul_two_pow, Nat.testBit_mul_two_pow, Nat.testBit_div_two_pow,
      Nat.testBit_two_pow_sub_one]
    rcases Nat.lt_or_ge i 8 with hi | hi
    · simp [not_le.mpr hi]
    · rw [Nat.sub_add_cancel hi]
      rcases Nat.lt_or_ge i 32 with hlt | hge
      · have : i - 8 < 24 := by omega
        simp [hi, this]
      · have hbit : w.toNat.testBit i = false :=
          Nat.testBit_lt_two_pow (hw.trans_le (Nat.pow_le_pow_right (by decide) hge))
        simp [hbit]
  rw [hkeep]
  omega

/-- Ten words that spell the number. -/
structure Row (outi : List UInt32) (x : ℕ) : Prop where
  length : outi.length = 10
  value : horner (2 ^ 32) (outi.map UInt32.toNat) = x

variable {x : ℕ} {outi : List UInt32}

theorem Row.uncons (h : Row outi x) : ∃ w ws, outi = w :: ws ∧ ws.length = 9 ∧
    x = w.toNat * 256 ^ 36 + horner (2 ^ 32) (ws.map UInt32.toNat) ∧ (w.toNat < 256 ↔ x < 256 ^ 37) := by
  obtain ⟨hlen, hval⟩ := h
  cases outi with
  | nil => cases hlen
  | cons w ws =>
    have hws : ws.length = 9 := by simpa using hlen
    have hlt := horner_lt (b := 2 ^ 32) (by decide) (nats_lt ws)
    rw [List.map_cons, horner_cons, List.length_map, hws] at hval
    rw [List.length_map, hws] at hlt
    refine ⟨w, ws, rfl, hws, ?_, ?_⟩
    · rw [← hval]
      norm_num
    · rw [← hval]
      norm_num at hlt ⊢
      omega

theorem pushDigit_cases (h : Row outi x) {d : UInt32} (hd : d.toNat < 58) :
    (x * 58 + d.toNat < 256 ^ 37 ∧
      ∃ outi', pushDigit 0xffffff00 outi d = some outi' ∧ Row outi' (x * 58 + d.toNat)) ∨
    (256 ^ 37 ≤ x * 58 + d.toNat ∧ pushDigit 0xffffff00 outi d = none) := by
  obtain ⟨hdigits, hcarry⟩ := Prod.ext_iff.mp (mulAdd58_eq hd outi)
  have hexact := sweep_exact (b := 2 ^ 32) (m := 58) (c := d.toNat) (outi.map UInt32.toNat)
  rw [h.value, ← hdigits, ← hcarry, List.length_map, h.length] at hexact
  have hlen : (mulAdd58 d outi).1.length = 10 := by
    have := congrArg List.length hdigits
    rwa [List.length_map, sweep_length, List.length_map, h.length] at this
  simp only [pushDigit]
  split
  next hover =>
    rw [ne_eq, ← UInt32.toNat_inj, UInt32.toNat_zero] at hover
    refine .inr ⟨?_, rfl⟩
    have hpos : 1 * (2 ^ 32) ^ 10 ≤ (mulAdd58 d outi).2.toNat * (2 ^ 32) ^ 10 :=
      Nat.mul_le_mul_right _ (Nat.pos_of_ne_zero hover)
    calc 256 ^ 37 ≤ 1 * (2 ^ 32) ^ 10 := by norm_num
      _ ≤ _ := hpos.trans (Nat.le_add_right _ _)
      _ = x * 58 + d.toNat := hexact
  next hover =>
    rw [ne_eq, not_not] at hover
    rw [hover, UInt32.toNat_zero, Nat.zero_mul, Nat.zero_add] at hexact
    have hrow : Row (mulAdd58 d outi).1 (x * 58 + d.toNat) := ⟨hlen, hexact⟩
    obtain ⟨w, ws, hcons, -, -, hfit⟩ := hrow.uncons
    rw [← masked_iff] at hfit
    rw [hcons] at hrow ⊢
    rw [List.headD_cons]
    split
    next hbig => exact .inr ⟨not_lt.mp fun hlt => hbig (hfit.mpr hlt), rfl⟩
    next hsmall => exact .inl ⟨hfit.mp (not_not.mp hsmall), _, rfl, hrow⟩

/-- RUN: the digits are read to the end, unless one is none or the number no longer fits. -/
theorem readDigits_cases (s : Bytes) : ∀ {outi : List UInt32} {x : ℕ}, Row outi x → x < 256 ^ 37 →
    (∃ ds, s.mapM Base58.digit = some ds ∧ x * 58 ^ ds.length + horner 58 ds < 256 ^ 37 ∧
      ∃ outi', readDigits 0xffffff00 s outi = some outi' ∧ Row outi' (x * 58 ^ ds.length + horner 58 ds)) ∨
    (readDigits 0xffffff00 s outi = none ∧
      ∀ ds, s.mapM Base58.digit = some ds → 256 ^ 37 ≤ x * 58 ^ ds.length + horner 58 ds) := by
  induction s with
  | nil =>
    intro outi x h hx
    exact .inl ⟨[], rfl, by simpa using hx, outi, rfl, by simpa using h⟩
  | cons c s ih =>
    intro outi x h hx
    rw [List.mapM_cons, readDigits, b58digit_eq]
    cases hc : Base58.digit c with
    | none => exact .inr ⟨rfl, fun ds hds => by simp at hds⟩
    | some d =>
      have hd58 := Base58.digit_lt hc
      have hd : (UInt32.ofNat d).toNat = d := UInt32.toNat_ofNat_of_lt' (by simp only [UInt32.size]; omega)
      -- Horner's rule, one digit at a time
      have hstep : ∀ es : List ℕ,
          x * 58 ^ (d :: es).length + horner 58 (d :: es) = (x * 58 + d) * 58 ^ es.length + horner 58 es := by
        intro es
        rw [horner_cons, List.length_cons, pow_succ]
        ring
      rcases pushDigit_cases h (d := UInt32.ofNat d) (by omega) with ⟨hfit, outi', hpush, hrow⟩ | ⟨hbig, hpush⟩
      · rw [hd] at hfit hrow
        rcases ih hrow hfit with ⟨ds, hds, hlt, outi'', hread, hrow''⟩ | ⟨hread, hover⟩
        · refine .inl ⟨d :: ds, by simp [hds], ?_, outi'', by simp [hpush, hread], ?_⟩
          · rwa [hstep]
          · rwa [hstep]
        · refine .inr ⟨by simp [hpush, hread], fun ds hds => ?_⟩
          cases hes : s.mapM Base58.digit with
          | none => simp [hes] at hds
          | some es =>
            simp only [hes, Option.pure_def, Option.bind_eq_bind, Option.bind_some, Option.some.injEq] at hds
            rw [← hds, hstep]
            exact hover es hes
      · rw [hd] at hbig
        refine .inr ⟨by simp [hpush], fun ds hds => ?_⟩
        cases hes : s.mapM Base58.digit with
        | none => simp [hes] at hds
        | some es =>
          simp only [hes, Option.pure_def, Option.bind_eq_bind, Option.bind_some, Option.some.injEq] at hds
          rw [← hds, hstep]
          exact hbig.trans ((Nat.le_mul_of_pos_right _ (Nat.pow_pos (by decide))).trans (Nat.le_add_right _ _))

/-! ### The bytes of the decoder -/

theorem lowByte (w : UInt32) : (w &&& 0xff).toUInt8.toNat = w.toNat % 256 := by
  have hmask : (0xff : UInt32).toNat = 2 ^ 8 - 1 := rfl
  rw [UInt32.toNat_toUInt8, UInt32.toNat_and, hmask, Nat.and_two_pow_sub_one_eq_mod, Nat.mod_mod]

theorem wordBytes_one (w : UInt32) : (wordBytes 1 w).map UInt8.toNat = [w.toNat % 256] := by
  have hshift : w >>> UInt32.ofNat (8 * (1 - 1 - 0)) = w := by
    rw [← UInt32.toNat_inj, UInt32.toNat_shiftRight]
    rfl
  simp only [wordBytes, List.range_one, List.map_cons, List.map_nil, hshift, lowByte]

theorem wordBytes_four (w : UInt32) : horner 256 ((wordBytes 4 w).map UInt8.toNat) = w.toNat := by
  have hw := w.toNat_lt
  have hrange : List.range 4 = [0, 1, 2, 3] := rfl
  have h0 : (UInt32.ofNat (8 * (4 - 1 - 0))).toNat % 32 = 24 := rfl
  have h1 : (UInt32.ofNat (8 * (4 - 1 - 1))).toNat % 32 = 16 := rfl
  have h2 : (UInt32.ofNat (8 * (4 - 1 - 2))).toNat % 32 = 8 := rfl
  have h3 : (UInt32.ofNat (8 * (4 - 1 - 3))).toNat % 32 = 0 := rfl
  simp only [wordBytes, hrange, List.map_cons, List.map_nil, lowByte, UInt32.toNat_shiftRight, h0, h1, h2, h3,
    Nat.shiftRight_eq_div_pow, horner, List.foldl_cons, List.foldl_nil]
  omega

/-- The 37 bytes that spell a number. -/
def spelled (x : ℕ) : Bytes := (padded 256 decodedLen x).map UInt8.ofNat

theorem bytes_lt (b : Bytes) : ∀ d ∈ b.map UInt8.toNat, d < 256 := by
  intro d hd
  obtain ⟨c, -, rfl⟩ := List.mem_map.mp hd
  exact c.toNat_lt

theorem eq_spelled {b : Bytes} (hlen : b.length = decodedLen) :
    b = spelled (horner 256 (b.map UInt8.toNat)) := by
  have h := eq_padded (b := 256) (by decide) (bytes_lt b)
  rw [List.length_map, hlen] at h
  have hid : UInt8.ofNat ∘ UInt8.toNat = id := funext fun c => UInt8.ofNat_toNat
  rw [spelled, ← h, List.map_map, hid, List.map_id]

theorem Row.written (h : Row outi x) (hx : x < 256 ^ 37) :
    wordBytes 1 (outi.headD 0) ++ outi.tail.flatMap (wordBytes 4) = spelled x := by
  obtain ⟨w, ws, rfl, hws, hval, hfit⟩ := h.uncons
  have hw := hfit.mpr hx
  have hfour : ∀ w, ((wordBytes 4 w).map UInt8.toNat).length = 4 := fun w => by simp [wordBytes]
  have hflat : horner 256 ((ws.flatMap (wordBytes 4)).map UInt8.toNat) =
      horner (2 ^ 32) (ws.map UInt32.toNat) := by
    rw [List.map_flatMap]
    exact horner_flatMap _ UInt32.toNat hfour wordBytes_four ws
  have hlen : (ws.flatMap (wordBytes 4)).length = 36 := by
    simp [List.length_flatMap, wordBytes, hws]
  rw [List.headD_cons, List.tail_cons, eq_spelled (b := wordBytes 1 w ++ ws.flatMap (wordBytes 4))
    (by simp [hlen, wordBytes, decodedLen, publicKeyLen, checksumLen]), List.map_append, wordBytes_one,
    List.singleton_append, horner_cons, List.length_map, hlen, hflat, Nat.mod_eq_of_lt hw, ← hval]

theorem toNat_spelled (x : ℕ) : (spelled x).map UInt8.toNat = padded 256 decodedLen x := by
  have hback : ∀ d ∈ padded 256 decodedLen x, (UInt8.toNat ∘ UInt8.ofNat) d = id d := fun d hd =>
    UInt8.toNat_ofNat_of_lt' (padded_lt (by decide) hd)
  rw [spelled, List.map_map, List.map_congr_left hback, List.map_id]

theorem spelled_length (hx : x < 256 ^ 37) : (spelled x).length = decodedLen := by
  rw [spelled, List.length_map]
  exact padded_length (by decide) hx

theorem spelled_zeros (hx : x < 256 ^ 37) :
    decodedLen - ((spelled x).takeWhile (· = 0)).length = (shortest 256 x).length := by
  have hrest := congrArg List.length (Base58.map_drop_zeros (spelled x))
  rwa [toNat_spelled, padded_eq, dropWhile_zeros, List.length_map, List.length_drop, spelled_length hx] at hrest

theorem b58tobin_cases (s : Bytes) :
    (∃ x, Base58.number s = some x ∧ x < 256 ^ 37 ∧ b58tobin decodedLen s =
      some (spelled x, (shortest 256 x).length + (UInt32.ofNat (Base58.ones s)).toNat)) ∨
    (b58tobin decodedLen s = none ∧ ∀ x, Base58.number s = some x → 256 ^ 37 ≤ x) := by
  have hzero : Row (List.replicate 10 0) 0 := ⟨rfl, rfl⟩
  have hmask : (0xffffffff : UInt32) <<< UInt32.ofNat (8 * (decodedLen % 4)) = 0xffffff00 := by decide
  have hsize : (decodedLen + 3) / 4 = 10 := rfl
  have hleft : decodedLen % 4 = 1 := rfl
  rw [Base58.number_ones]
  simp only [b58tobin, hmask, hsize, if_neg (show ¬ decodedLen % 4 = 0 by decide)]
  rcases readDigits_cases (s.dropWhile (· = 49)) hzero (by decide) with
    ⟨ds, hds, hlt, outi, hread, hrow⟩ | ⟨hread, hover⟩
  · rw [Nat.zero_mul, Nat.zero_add] at hlt hrow
    refine .inl ⟨horner 58 ds, by simp [Base58.number, hds], hlt, ?_⟩
    simp only [hread, hleft, hrow.written hlt, spelled_zeros hlt, Base58.ones]
  · refine .inr ⟨by simp only [hread], fun x hx => ?_⟩
    cases hds : (s.dropWhile (· = 49)).mapM Base58.digit with
    | none => simp [Base58.number, hds] at hx
    | some ds =>
      simp only [Base58.number, hds, Option.map_some, Option.some.injEq] at hx
      have := hover ds hds
      rwa [Nat.zero_mul, Nat.zero_add, hx] at this

/-! ### The two readings of an address -/

/-- Key and checksum of the 37 bytes, and the checksum that is due for the bytes in front of it. -/
def keySpelled (x : ℕ) : Bytes := ((spelled x).drop 1).take publicKeyLen
def checksumSpelled (x : ℕ) : Bytes := (spelled x).drop (1 + publicKeyLen)
def checksumDue (crypto : Crypto) (x : ℕ) : Bytes := Wallet.checksum crypto (0 :: keySpelled x)

/-- The string is written as the encoder writes it: one leading `1` for every leading zero byte. -/
def Canonical (s : Bytes) (x : ℕ) : Prop := 0 ∉ s ∧ Base58.ones s + (shortest 256 x).length = decodedLen

instance (s : Bytes) (x : ℕ) : Decidable (Canonical s x) := inferInstanceAs (Decidable (_ ∧ _))

section Spelled

variable {x : ℕ}

theorem spelled_head (hx : x < 256 ^ 37) : (spelled x).headD 0 = 0 ↔ x < 256 ^ 36 := by
  have hzeros := spelled_zeros hx
  have hlen := spelled_length hx
  have hle : (shortest 256 x).length ≤ 36 ↔ x < 256 ^ 36 := shortest_length_le (by decide)
  simp only [decodedLen, publicKeyLen, checksumLen] at hzeros hlen
  cases hs : spelled x with
  | nil => simp [hs] at hlen
  | cons c rest =>
    rw [hs] at hzeros
    rw [List.headD_cons, ← hle]
    rcases eq_or_ne c 0 with rfl | hc
    · rw [List.takeWhile_cons_of_pos (by simp), List.length_cons] at hzeros
      exact iff_of_true rfl (by omega)
    · rw [List.takeWhile_cons_of_neg (by simpa using hc), List.length_nil] at hzeros
      exact iff_of_false hc (by omega)

theorem spelled_split (hx : x < 256 ^ 36) : spelled x = 0 :: keySpelled x ++ checksumSpelled x := by
  have hx' : x < 256 ^ 37 := hx.trans (Nat.pow_lt_pow_right (by decide) (by decide))
  have hhead := (spelled_head hx').mpr hx
  have hlen := spelled_length hx'
  simp only [decodedLen, publicKeyLen, checksumLen, keySpelled, checksumSpelled] at *
  cases hs : spelled x with
  | nil => simp [hs] at hlen
  | cons c rest =>
    rw [hs, List.headD_cons] at hhead
    rw [hhead, List.drop_succ_cons, List.drop_zero, List.cons_append, Nat.add_comm 1 32, List.drop_succ_cons,
      List.take_append_drop]

theorem keySpelled_length (hx : x < 256 ^ 36) : (keySpelled x).length = publicKeyLen := by
  have hlen := spelled_length (hx.trans (Nat.pow_lt_pow_right (by decide) (by decide)))
  simp only [decodedLen, publicKeyLen, checksumLen, keySpelled, List.length_take, List.length_drop] at *
  omega

theorem checksumSpelled_length (hx : x < 256 ^ 36) : (checksumSpelled x).length = checksumLen := by
  have hlen := spelled_length (hx.trans (Nat.pow_lt_pow_right (by decide) (by decide)))
  simp only [decodedLen, publicKeyLen, checksumLen, checksumSpelled, List.length_drop] at *
  omega

end Spelled

section Readings

variable {crypto : Crypto} {s key : Bytes}

/-- EXACT (C): the client decodes what spells a number with version zero, whose checksum agrees up to a
    common zero byte, unless the size that it returns wraps to zero. -/
theorem decodes_iff : Decodes crypto 0 s key ↔ ∃ x, Base58.number (contents s) = some x ∧ x < 256 ^ 36 ∧
    strncmpEq checksumLen (checksumSpelled x) (checksumDue crypto x) = true ∧
    (Base58.ones (contents s) + (shortest 256 x).length) % 2 ^ 32 ≠ 0 ∧ key = keySpelled x := by
  simp only [Decodes, decodeAddressToRaw]
  rcases b58tobin_cases (contents s) with ⟨x, hx, hlt, htobin⟩ | ⟨htobin, hover⟩
  · have hpart : x < 256 ^ 36 → ((spelled x).drop (1 + publicKeyLen)).take checksumLen = checksumSpelled x :=
      fun h => List.take_of_length_le (checksumSpelled_length h).le
    have hsize : UInt32.ofNat ((shortest 256 x).length + (UInt32.ofNat (Base58.ones (contents s))).toNat) = 0 ↔
        (Base58.ones (contents s) + (shortest 256 x).length) % 2 ^ 32 = 0 := by
      rw [← UInt32.toNat_inj, UInt32.toNat_ofNat', UInt32.toNat_ofNat', UInt32.toNat_zero]
      omega
    simp only [htobin, hx, Option.some.injEq, exists_eq_left']
    split
    next hversion =>
      rw [ne_eq, spelled_head hlt] at hversion
      refine iff_of_false ?_ (fun h => hversion h.1)
      rintro ⟨len, -, h⟩
      cases h
    next hversion =>
      rw [ne_eq, not_not, spelled_head hlt] at hversion
      rw [hpart hversion]
      simp only [hversion, true_and, checksumDue, keySpelled]
      split
      next hsum =>
        refine iff_of_false ?_ (fun h => absurd (hsum.symm.trans h.1) (by decide))
        rintro ⟨len, -, h⟩
        cases h
      next hsum =>
        simp only [Bool.not_eq_false] at hsum
        simp only [Decoding.returned.injEq, Option.some.injEq, hsum, true_and]
        constructor
        · rintro ⟨len, hlen, rfl, rfl⟩
          exact ⟨mt hsize.mpr hlen, rfl⟩
        · rintro ⟨hlen, rfl⟩
          exact ⟨_, mt hsize.mp hlen, rfl, rfl⟩
  · simp only [htobin, reduceCtorEq, and_false, exists_false, false_iff, not_exists]
    rintro x ⟨hx, hlt, -⟩
    have hbig := hover x hx
    exact absurd (hlt.trans (Nat.pow_lt_pow_right (by decide) (by decide))) (not_lt.mpr hbig)

/-- `AddressToPubKey` succeeds with the key of 32 bytes, and the version byte is the one given. -/
def GoDecodes (crypto : Crypto) (version : UInt8) (s key : Bytes) : Prop :=
  key.length = publicKeyLen ∧ Helper.addressToPubKey crypto s = .ok key ∧
    ∃ decoded, crypto.base58Decode s = some decoded ∧ decoded.head? = some version

theorem decode_spelled (hlen : Base58.ones s + (shortest 256 x).length = decodedLen) :
    (List.replicate (Base58.ones s) 0 ++ shortest 256 x).map UInt8.ofNat = spelled x := by
  have hones : Base58.ones s = decodedLen - (shortest 256 x).length := by omega
  rw [spelled, padded_eq, hones]

theorem goDecodes_bytes {version : UInt8} : GoDecodes crypto version s key ↔ key.length = publicKeyLen ∧
    crypto.base58Decode s = some (version :: key ++ Wallet.checksum crypto (version :: key)) := by
  rw [GoDecodes, Helper.addressToPubKey_ok_iff]
  refine and_congr_right fun _ => ?_
  constructor
  · rintro ⟨⟨version', hdecode⟩, decoded, hdecode', hhead⟩
    rw [hdecode, Option.some.injEq] at hdecode'
    rw [← hdecode', List.cons_append, List.head?_cons, Option.some.injEq] at hhead
    rw [hdecode, hhead]
  · intro hdecode
    exact ⟨⟨version, hdecode⟩, _, hdecode, rfl⟩

/-- EXACT (Go): the helper decodes what spells such a number canonically with the whole checksum right. -/
theorem goDecodes_iff (hstd : ∀ s, crypto.base58Decode s = Base58.decode s) :
    GoDecodes crypto 0 s key ↔ ∃ x, Base58.number s = some x ∧ x < 256 ^ 36 ∧
      Base58.ones s + (shortest 256 x).length = decodedLen ∧ checksumSpelled x = checksumDue crypto x ∧
      key = keySpelled x := by
  rw [goDecodes_bytes, hstd, Base58.decode, Option.map_eq_some_iff]
  constructor
  · rintro ⟨hkey, x, hx, hbytes⟩
    have hlen : Base58.ones s + (shortest 256 x).length = decodedLen := by
      have := congrArg List.length hbytes
      simpa [Wallet.checksum_length, hkey, decodedLen, Wallet.checksumLength, checksumLen] using this
    rw [decode_spelled hlen] at hbytes
    have hlt : x < 256 ^ 37 := (shortest_length_le (by decide)).mp (by
      rw [decodedLen, publicKeyLen, checksumLen] at hlen
      omega)
    have hpart : x < 256 ^ 36 := (spelled_head hlt).mp (by rw [hbytes]; rfl)
    rw [spelled_split hpart, List.cons_append, List.cons_append, List.cons.injEq] at hbytes
    obtain ⟨hk, hc⟩ := List.append_inj hbytes.2 ((keySpelled_length hpart).trans hkey.symm)
    exact ⟨x, hx, hpart, hlen, by rw [hc, checksumDue, hk], hk.symm⟩
  · rintro ⟨x, hx, hpart, hlen, hsum, rfl⟩
    refine ⟨keySpelled_length hpart, x, hx, ?_⟩
    rw [decode_spelled hlen, spelled_split hpart, hsum, checksumDue]

theorem zero_free_of_number (h : Base58.number s = some x) : 0 ∉ s := by
  rw [Base58.number, Option.map_eq_some_iff] at h
  obtain ⟨ds, hds, -⟩ := h
  intro hmem
  induction s generalizing ds with
  | nil => cases hmem
  | cons c s ih =>
    rw [List.mapM_cons] at hds
    cases hc : Base58.digit c with
    | none => simp [hc] at hds
    | some d =>
      cases hes : s.mapM Base58.digit with
      | none => simp [hc, hes] at hds
      | some es =>
        rcases List.mem_cons.mp hmem with rfl | hmem
        · have hzero : Base58.digit 0 = none := by decide
          rw [hzero] at hc
          cases hc
        · exact ih es hes hmem

end Readings

/-- VERDICT: Go and C agree on a string exactly when it spells no number with version zero, or its checksum
    differs before a common zero byte, or the size that C returns wraps to zero, or it is written canonically
    with the whole checksum right. -/
theorem clients_agree_iff {crypto : Crypto} (hstd : ∀ s, crypto.base58Decode s = Base58.decode s) (s : Bytes) :
    (∀ key, Decodes crypto 0 s key ↔ GoDecodes crypto 0 s key) ↔
      ∀ x, Base58.number (contents s) = some x → x < 256 ^ 36 →
        strncmpEq checksumLen (checksumSpelled x) (checksumDue crypto x) = false ∨
        (Base58.ones (contents s) + (shortest 256 x).length) % 2 ^ 32 = 0 ∨
        (Canonical s x ∧ checksumSpelled x = checksumDue crypto x) := by
  simp only [decodes_iff, goDecodes_iff hstd]
  constructor
  · intro hagree x hx hpart
    rcases Bool.eq_false_or_eq_true (strncmpEq checksumLen (checksumSpelled x) (checksumDue crypto x)) with
      hsum | hsum
    swap
    · exact .inl hsum
    rcases eq_or_ne ((Base58.ones (contents s) + (shortest 256 x).length) % 2 ^ 32) 0 with hwrap | hwrap
    · exact .inr (.inl hwrap)
    obtain ⟨y, hy, -, hlen, hdue, -⟩ := (hagree (keySpelled x)).mp ⟨x, hx, hpart, hsum, hwrap, rfl⟩
    have hfree := zero_free_of_number hy
    rw [contents_of_zero_free hfree, hy, Option.some.injEq] at hx
    subst hx
    exact .inr (.inr ⟨⟨hfree, hlen⟩, hdue⟩)
  · intro hcond key
    constructor
    · rintro ⟨x, hx, hpart, hsum, hwrap, rfl⟩
      rcases hcond x hx hpart with hdiff | hzero | ⟨⟨hfree, hlen⟩, hdue⟩
      · exact absurd (hdiff.symm.trans hsum) (by decide)
      · exact absurd hzero hwrap
      · rw [contents_of_zero_free hfree] at hx
        exact ⟨x, hx, hpart, hlen, hdue, rfl⟩
    · rintro ⟨x, hx, hpart, hlen, hdue, rfl⟩
      rw [contents_of_zero_free (zero_free_of_number hx)]
      refine ⟨x, hx, hpart, ?_, ?_, rfl⟩
      · rw [hdue]
        exact strncmpEq_self _ _
      · rw [hlen]
        decide

/-! ### Addresses that only C decodes -/

/-- The length and the first bytes of the message, with standard base 58. -/
def plainCrypto : Crypto where
  sum256 message := ⟨UInt8.ofNat message.length :: (message ++ List.replicate 31 0).take 31, by simp⟩
  sign privateKey digest := privateKey ++ digest
  verify publicKey digest signature := decide (signature = publicKey ++ digest)
  base58Encode b := b
  base58Decode := Base58.decode

/-- The address of the key of 32 sevens. Its checksum is 32, 33, 0, 7. -/
def sevens : Bytes :=
  [49, 52, 54, 87, 80, 116, 83, 74, 72, 57, 77, 99, 49, 114, 78, 98, 82, 97, 87, 111, 54, 107, 50, 118, 54,
    66, 109, 56, 100, 99, 49, 70, 117, 67, 70, 120, 83, 50, 110, 54, 103, 70, 111, 55, 70, 112, 110, 97,
    100, 52]

/-- The same with the last byte of the checksum corrupted: 32, 33, 0, 9. -/
def corruptedSevens : Bytes :=
  [49, 52, 54, 87, 80, 116, 83, 74, 72, 57, 77, 99, 49, 114, 78, 98, 82, 97, 87, 111, 54, 107, 50, 118, 54,
    66, 109, 56, 100, 99, 49, 70, 117, 67, 70, 120, 83, 50, 110, 54, 103, 70, 111, 55, 70, 112, 110, 97,
    100, 54]

/-- C gets the key of 32 bytes 7 from the string, Go reports a wrong checksum, and so the clients disagree. -/
def OnlyCDecodes (s : Bytes) : Prop :=
  Decodes plainCrypto 0 s (List.replicate 32 7) ∧ Helper.addressToPubKey plainCrypto s = .error .checksumNotEqual ∧
    ¬ (∀ key, Decodes plainCrypto 0 s key ↔ GoDecodes plainCrypto 0 s key)

theorem onlyCDecodes_of_run {s : Bytes} {l : UInt32} (hl : l ≠ 0)
    (h : decodeAddressToRaw plainCrypto 0 s = .returned l (some (List.replicate 32 7)) ∧
      Helper.addressToPubKey plainCrypto s = .error .checksumNotEqual) : OnlyCDecodes s := by
  obtain ⟨hdecode, hgo⟩ := h
  have hdecodes : Decodes plainCrypto 0 s (List.replicate 32 7) := ⟨l, hl, hdecode⟩
  refine ⟨hdecodes, hgo, fun hagree => ?_⟩
  obtain ⟨-, hok, -⟩ := (hagree _).mp hdecodes
  rw [hgo] at hok
  cases hok

/-- With its first character missing, with one too many, or with a byte changed behind the zero of the
    checksum, C still decodes the address and Go refuses it. -/
theorem altered_addresses_decode :
    OnlyCDecodes sevens.tail ∧ OnlyCDecodes (49 :: sevens) ∧ OnlyCDecodes corruptedSevens := by
  refine ⟨onlyCDecodes_of_run (l := 36) (by decide) ?_, onlyCDecodes_of_run (l := 38) (by decide) ?_,
    onlyCDecodes_of_run (l := 37) (by decide) ?_⟩
  · decide +kernel
  · decide +kernel
  · decide +kernel

/-- On the address itself the clients agree. -/
theorem canonical_address_agrees :
    (∀ key, Decodes plainCrypto 0 sevens key ↔ GoDecodes plainCrypto 0 sevens key) ∧
      Decodes plainCrypto 0 sevens (List.replicate 32 7) := by
  have hstd : ∀ s, plainCrypto.base58Decode s = Base58.decode s := fun _ => rfl
  refine ⟨(clients_agree_iff hstd sevens).mpr ?_, 37, by decide, by decide +kernel⟩
  intro x hx hpart
  have hnumber : Base58.number (contents sevens) =
      some (horner 256 (0 :: List.replicate 32 7 ++ [32, 33, 0, 7])) := by decide +kernel
  rw [hnumber, Option.some.injEq] at hx
  subst hx
  exact .inr (.inr ⟨by decide +kernel, by decide +kernel⟩)

end Computantis.Client
