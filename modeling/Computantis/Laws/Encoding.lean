import Mathlib.Data.List.GetD
import Computantis.Laws.Addresses

/-! @law encoding | name:Addresses written in C | family:roundtrip | about:Model/Client

    `b58enc` keeps the number of the bytes read so far as base-58 digits in a buffer that is long enough for
    all of them. One byte more is one sweep over the digits; the sweep leaves off at the mark, in front of
    which there are only zeros. The mark is wrong only if a digit in the very first place is to be carried
    over, and the buffer has a place more than the bytes before the last one need.

        bin ──leading zeros──▶ 1 … 1
         └──x ↦ 256 x + b──▶ 0 … 0 digits ──▶ characters -/

namespace Computantis.Client

open Schemes Schemes.CString

/-! ### One byte -/

/-- The places up to the mark hold zeros. -/
def ZeroTo (high : ℕ) (buf : Bytes) : Prop := ∀ i ≤ high, buf.getD i 0 = 0

variable {carry high size : ℕ} {buf front : Bytes}

theorem ZeroTo.eq_replicate (h : ZeroTo high buf) (hlen : buf.length ≤ high + 1) :
    buf = List.replicate buf.length 0 := by
  refine List.eq_replicate_iff.mpr ⟨rfl, fun d hd => ?_⟩
  obtain ⟨i, hi, rfl⟩ := List.getElem_of_mem hd
  rw [← h i (by omega), List.getD_eq_getElem _ _ hi]

theorem ZeroTo.of_append {back : Bytes} (h : ZeroTo high (front ++ back)) : ZeroTo high front := by
  intro i hi
  rcases Nat.lt_or_ge i front.length with hlt | hge
  · have hzero := h i hi
    rwa [List.getD_append _ _ _ _ hlt] at hzero
  · exact List.getD_eq_default _ _ hge

theorem toNat_place (carry : ℕ) (d : UInt8) :
    (UInt8.ofNat ((carry + 256 * d.toNat) % 58)).toNat = (d.toNat * 256 + carry) % 58 := by
  rw [UInt8.toNat_ofNat_of_lt' ((Nat.mod_lt _ (by decide)).trans (by decide)), Nat.add_comm, Nat.mul_comm]

theorem mulAdd256_next {j : ℕ} (h : j + 1 > high ∨ carry ≠ 0) {init back : Bytes} (d : UInt8)
    (hlen : init.length = j + 1) : mulAdd256 high (j + 1) carry (init ++ [d] ++ back) =
      mulAdd256 high j ((carry + 256 * d.toNat) / 58)
        (init ++ UInt8.ofNat ((carry + 256 * d.toNat) % 58) :: back) := by
  have hread : (init ++ [d] ++ back).getD (j + 1) 0 = d := by
    rw [List.append_assoc, List.getD_append_right _ _ _ _ hlen.le, hlen, Nat.sub_self]
    rfl
  have hwrite : ∀ v, (init ++ [d] ++ back).set (j + 1) v = init ++ v :: back := by
    intro v
    rw [List.append_assoc, List.set_append_right _ _ hlen.le, hlen, Nat.sub_self]
    rfl
  rw [mulAdd256, if_pos h]
  simp only [hread, hwrite]

/-- What the inner loop makes of the places before it, and where it leaves off: in front of zeros, or behind
    the first place. -/
structure Swept (carry : ℕ) (front front' : Bytes) (p : ℕ) : Prop where
  digits : front'.map UInt8.toNat = (sweep 58 256 carry (front.map UInt8.toNat)).1
  inside : p < front.length
  mark : p = 0 ∨ ZeroTo p front'

theorem Swept.length {p : ℕ} {front' : Bytes} (h : Swept carry front front' p) : front'.length = front.length := by
  have hlen := congrArg List.length h.digits
  rwa [List.length_map, sweep_length, List.length_map] at hlen

/-- STEP (inner loop): where nothing is carried any more the places left are zeros, and it leaves them alone. -/
theorem mulAdd256_stop {j : ℕ} (h : ¬ (j > high ∨ carry ≠ 0)) (back : Bytes) (hlen : front.length = j + 1)
    (hzero : ZeroTo high front) :
    mulAdd256 high j carry (front ++ back) = (front ++ back, j) ∧ Swept carry front front j := by
  obtain ⟨hmark, rfl⟩ : j ≤ high ∧ carry = 0 := by omega
  have hzeros := hzero.eq_replicate (by omega)
  refine ⟨?_, ?_, by omega, Or.inr fun i hi => hzero i (hi.trans hmark)⟩
  · rw [mulAdd256, if_neg h]
  · rw [hzeros, List.map_replicate, UInt8.toNat_zero, sweep_zeros]

/-- RUN (inner loop): it is a sweep over the places. -/
theorem mulAdd256_sweep (j : ℕ) : ∀ (carry : ℕ) (front back : Bytes), front.length = j + 1 →
    ZeroTo high front →
    ∃ front' p, mulAdd256 high j carry (front ++ back) = (front' ++ back, p) ∧ Swept carry front front' p := by
  induction j with
  | zero =>
    intro carry front back hlen hzero
    by_cases hon : 0 > high ∨ carry ≠ 0
    · obtain ⟨d, rfl⟩ := List.length_eq_one_iff.mp hlen
      refine ⟨[UInt8.ofNat ((carry + 256 * d.toNat) % 58)], 0, ?_, ?_, Nat.one_pos, Or.inl rfl⟩
      · rw [mulAdd256, if_pos hon]
        rfl
      · rw [List.map_singleton, List.map_singleton, toNat_place]
        rfl
    · exact ⟨front, 0, mulAdd256_stop hon back hlen hzero⟩
  | succ j ih =>
    intro carry front back hlen hzero
    by_cases hon : j + 1 > high ∨ carry ≠ 0
    · rcases front.eq_nil_or_concat' with rfl | ⟨init, d, rfl⟩
      · cases hlen
      · have hinit : init.length = j + 1 := by simpa using hlen
        obtain ⟨init', p, hrest, hswept⟩ := ih ((carry + 256 * d.toNat) / 58) init
          (UInt8.ofNat ((carry + 256 * d.toNat) % 58) :: back) hinit hzero.of_append
        have hinside := hswept.inside
        refine ⟨init' ++ [UInt8.ofNat ((carry + 256 * d.toNat) % 58)], p, ?_, ?_, by omega, ?_⟩
        · rw [mulAdd256_next hon d hinit, hrest, List.append_assoc, List.singleton_append]
        · rw [List.map_append, List.map_singleton, List.map_append, List.map_singleton, sweep_concat,
            hswept.digits, toNat_place, Nat.add_comm carry, Nat.mul_comm 256]
        · refine hswept.mark.imp_right fun hzeros i hi => ?_
          rw [List.getD_append _ _ _ _ (by rw [hswept.length]; omega)]
          exact hzeros i hi
    · exact ⟨front, j + 1, mulAdd256_stop hon back hlen hzero⟩

/-! ### All bytes -/

/-- The buffer spells the number. -/
structure Buffered (size : ℕ) (buf : Bytes) (x : ℕ) : Prop where
  length : buf.length = size
  digits : ∀ d ∈ buf.map UInt8.toNat, d < 58
  value : horner 58 (buf.map UInt8.toNat) = x

theorem Buffered.zeroTo {x : ℕ} (h : Buffered (size + 1) buf x) (hx : x < 58 ^ size) : ZeroTo 0 buf := by
  obtain ⟨hlen, -, hvalue⟩ := h
  cases buf with
  | nil => cases hlen
  | cons d rest =>
    have hrest : rest.length = size := by simpa using hlen
    rw [List.map_cons, horner_cons, List.length_map, hrest] at hvalue
    have hzero : d.toNat = 0 := by
      by_contra hne
      have hle : 1 * 58 ^ size ≤ d.toNat * 58 ^ size := Nat.mul_le_mul_right _ (Nat.pos_of_ne_zero hne)
      omega
    intro i hi
    obtain rfl := Nat.le_zero.mp hi
    exact UInt8.toNat_inj.mp hzero

/-- STEP (outer loop): one byte is appended to the number, and the mark is right unless the first place is
    needed. -/
theorem mulAdd256_byte {x : ℕ} (h : Buffered (size + 1) buf x) (hzero : ZeroTo high buf) (b : UInt8)
    (hfit : x * 256 + b.toNat < 58 ^ (size + 1)) :
    ∃ buf' p, mulAdd256 high size b.toNat buf = (buf', p) ∧ Buffered (size + 1) buf' (x * 256 + b.toNat) ∧
      (x * 256 + b.toNat < 58 ^ size → ZeroTo p buf') := by
  obtain ⟨buf', p, hrun, hswept⟩ := mulAdd256_sweep size b.toNat buf [] h.length hzero
  rw [List.append_nil, List.append_nil] at hrun
  have hlen := hswept.length.trans h.length
  have hexact := sweep_exact (b := 58) (m := 256) (c := b.toNat) (buf.map UInt8.toNat)
  rw [h.value, ← hswept.digits, List.length_map, h.length] at hexact
  -- What would go out at the front does not fit.
  have hout : (sweep 58 256 b.toNat (buf.map UInt8.toNat)).2 = 0 := by
    by_contra hne
    have hle := Nat.mul_le_mul_right (58 ^ (size + 1)) (Nat.pos_of_ne_zero hne)
    omega
  rw [hout, Nat.zero_mul, Nat.zero_add] at hexact
  have hbuf : Buffered (size + 1) buf' (x * 256 + b.toNat) :=
    ⟨hlen, hswept.digits ▸ sweep_lt (by decide) _, hexact⟩
  refine ⟨buf', p, hrun, hbuf, fun hroom => ?_⟩
  rcases hswept.mark with rfl | hmark
  · exact hbuf.zeroTo hroom
  · exact hmark

/-- RUN (outer loop): the buffer spells the bytes when there is room for them, and for all but the last of
    them without the first place. -/
theorem writeDigits_spells (bin : Bytes) : ∀ {high x : ℕ} {buf : Bytes}, Buffered (size + 1) buf x →
    ZeroTo high buf → x * 256 ^ bin.length + horner 256 (bin.map UInt8.toNat) < 58 ^ (size + 1) →
    (x * 256 ^ bin.length + horner 256 (bin.map UInt8.toNat)) / 256 < 58 ^ size →
    Buffered (size + 1) (writeDigits (size + 1) bin high buf)
      (x * 256 ^ bin.length + horner 256 (bin.map UInt8.toNat)) := by
  induction bin with
  | nil =>
    intro high x buf h _ _ _
    simpa [writeDigits] using h
  | cons b bin ih =>
    intro high x buf h hzero hfit hroom
    -- Horner's rule, one byte at a time
    have hstep : x * 256 ^ (b :: bin).length + horner 256 ((b :: bin).map UInt8.toNat) =
        (x * 256 + b.toNat) * 256 ^ bin.length + horner 256 (bin.map UInt8.toNat) := by
      rw [List.map_cons, horner_cons, List.length_cons, List.length_map, pow_succ]
      ring
    rw [hstep] at hfit hroom ⊢
    have hle : x * 256 + b.toNat ≤ (x * 256 + b.toNat) * 256 ^ bin.length :=
      Nat.le_mul_of_pos_right _ (Nat.pow_pos (by decide))
    obtain ⟨buf', p, hrun, hbuf, hmark⟩ := mulAdd256_byte h hzero b (by omega)
    rw [writeDigits, Nat.add_sub_cancel, hrun]
    cases bin with
    | nil => simpa [writeDigits] using hbuf
    | cons c bin =>
      -- The number so far is there 256 times at least.
      have hmore : (x * 256 + b.toNat) * 256 ≤ (x * 256 + b.toNat) * 256 ^ (c :: bin).length :=
        Nat.mul_le_mul_left _ (Nat.le_self_pow (Nat.succ_ne_zero _) 256)
      refine ih hbuf (hmark (lt_of_le_of_lt ?_ hroom)) hfit hroom
      exact (Nat.le_div_iff_mul_le (by decide)).mpr (hmore.trans (Nat.le_add_right _ _))

theorem pow_fits {n m : ℕ} (h : 69 * n ≤ 50 * m) : 256 ^ n ≤ 58 ^ m := by
  refine (Nat.pow_le_pow_iff_left (show 50 ≠ 0 by decide)).mp ?_
  have hfifty : 256 ^ 50 ≤ 58 ^ 69 := by norm_num
  calc (256 ^ n) ^ 50 = (256 ^ 50) ^ n := by rw [← pow_mul, ← pow_mul, Nat.mul_comm]
    _ ≤ (58 ^ 69) ^ n := Nat.pow_le_pow_left hfifty n
    _ = 58 ^ (69 * n) := (pow_mul 58 69 n).symm
    _ ≤ 58 ^ (50 * m) := Nat.pow_le_pow_right (by decide) h
    _ = (58 ^ m) ^ 50 := by rw [← pow_mul, Nat.mul_comm]

theorem size_fits {n y : ℕ} (hy : y < 256 ^ n) :
    y < 58 ^ (n * 138 / 100 + 1) ∧ y / 256 < 58 ^ (n * 138 / 100) := by
  refine ⟨hy.trans_le (pow_fits (by omega)), ?_⟩
  cases n with
  | zero =>
    obtain rfl : y = 0 := by simpa using hy
    exact Nat.pow_pos (by decide)
  | succ n =>
    have hdiv : y / 256 < 256 ^ n := Nat.div_lt_of_lt_mul (by rwa [pow_succ'] at hy)
    exact hdiv.trans_le (pow_fits (by omega))

/-! ### The string -/

theorem b58digitsOrdered_getD (d : ℕ) : b58digitsOrdered.getD d 0 = Base58.char d := by
  have halphabet : b58digitsOrdered = Base58.alphabet.map UInt8.ofNat := by decide
  have hzero : (0 : UInt8) = UInt8.ofNat 0 := rfl
  rw [halphabet, hzero, List.getD_map, Base58.char]

theorem writeDigits_shortest (bin : Bytes) (hsize : size = (bin.length - Base58.zeros bin) * 138 / 100) :
    ∃ buf, writeDigits (size + 1) (bin.drop (Base58.zeros bin)) size (List.replicate (size + 1) 0) = buf ∧
      buf.length = size + 1 ∧
      (buf.drop (Base58.zeros buf)).map UInt8.toNat = shortest 58 (horner 256 (bin.map UInt8.toNat)) := by
  have hempty : Buffered (size + 1) (List.replicate (size + 1) 0) 0 := by
    refine ⟨List.length_replicate, ?_, ?_⟩
    · simp
    · rw [List.map_replicate, UInt8.toNat_zero]
      simpa using horner_zeros (b := 58) (size + 1) []
  have hzero : ZeroTo size (List.replicate (size + 1) 0) := fun i hi => by simp
  have hlt := horner_lt (b := 256) (by decide) (bytes_lt (bin.drop (Base58.zeros bin)))
  rw [List.length_map, List.length_drop] at hlt
  obtain ⟨hfit, hroom⟩ := size_fits hlt
  rw [← hsize] at hfit hroom
  have hspells := writeDigits_spells (bin.drop (Base58.zeros bin)) hempty hzero
  rw [Nat.zero_mul, Nat.zero_add] at hspells
  have hbuf := hspells hfit hroom
  refine ⟨_, rfl, hbuf.length, ?_⟩
  rw [Base58.map_drop_zeros, eq_padded (by decide) hbuf.digits, hbuf.value, Base58.horner_drop_zeros, padded_eq,
    dropWhile_zeros]

theorem b58enc_eq (b58sz : ℕ) (bin : Bytes) : b58enc b58sz bin =
    if b58sz ≤ (Base58.encode bin).length then .error ((Base58.encode bin).length + 1)
    else .ok (Base58.encode bin ++ [0]) := by
  obtain ⟨buf, hrun, hlen, hdigits⟩ := writeDigits_shortest bin rfl
  have hle := Base58.zeros_le buf
  have hcount : Base58.zeros bin + ((bin.length - Base58.zeros bin) * 138 / 100 + 1) - Base58.zeros buf =
      (Base58.encode bin).length := by
    have hrest := congrArg List.length hdigits
    rw [List.length_map, List.length_drop] at hrest
    rw [Base58.encode, List.length_append, List.length_replicate, List.length_map, ← hrest]
    omega
  have hchars : (buf.drop (Base58.zeros buf)).map (fun d => b58digitsOrdered.getD d.toNat 0) =
      (shortest 58 (horner 256 (bin.map UInt8.toNat))).map Base58.char := by
    rw [← hdigits, List.map_map]
    exact List.map_congr_left fun d _ => b58digitsOrdered_getD d.toNat
  have hzeros : ∀ b : Bytes, (b.takeWhile (· = 0)).length = Base58.zeros b := fun _ => rfl
  simp only [b58enc, hzeros, Nat.add_sub_cancel, hrun, hcount, hchars]
  rfl

-- `15R` and its zero byte need four characters.
example : b58enc 4 [0, 1, 0] = .ok [49, 53, 82, 0] := by decide
example : b58enc 3 [0, 1, 0] = .error 4 := by decide

/-! ### Addresses -/

theorem encode_length_le (bin : Bytes) : (Base58.encode bin).length ≤
    Base58.zeros bin + ((bin.length - Base58.zeros bin) * 138 / 100 + 1) := by
  have hlt := horner_lt (b := 256) (by decide) (bytes_lt (bin.drop (Base58.zeros bin)))
  rw [Base58.horner_drop_zeros, List.length_map, List.length_drop] at hlt
  have hfit := (shortest_length_le (b := 58) (by decide)).mpr (size_fits hlt).1
  rw [Base58.encode, List.length_append, List.length_replicate, List.length_map]
  exact Nat.add_le_add_left hfit _

theorem b58tobin_encode {bin : Bytes} (hlen : bin.length = decodedLen) :
    b58tobin decodedLen (Base58.encode bin) = some (bin, decodedLen) := by
  have hlt := horner_lt (b := 256) (by decide) (bytes_lt bin)
  rw [List.length_map, hlen] at hlt
  have hle : Base58.zeros bin ≤ decodedLen := hlen ▸ Base58.zeros_le bin
  have hspelled := eq_spelled hlen
  have hcount := spelled_zeros hlt
  rw [← hspelled] at hcount
  have hones : (UInt32.ofNat (Base58.zeros bin)).toNat = Base58.zeros bin :=
    UInt32.toNat_ofNat_of_lt' (hle.trans_lt (by decide))
  rcases b58tobin_cases (Base58.encode bin) with ⟨x, hx, -, htobin⟩ | ⟨-, hover⟩
  · rw [Base58.number_encode, Option.some.injEq] at hx
    rw [htobin, ← hx, ← hspelled, Base58.ones_encode, hones, ← hcount]
    exact congrArg (fun n => some (bin, n)) (Nat.sub_add_cancel hle)
  · exact absurd (hover _ (Base58.number_encode bin)) (not_le.mpr hlt)

/-- CORRECT: an address is written for every version and every key, in the space that there is, and read back
    as this key. -/
theorem address_read_back (crypto : Crypto) (walletVersion : UInt8) {key : Bytes}
    (hkey : key.length = publicKeyLen) :
    ∃ str, encodeAddressFromRaw crypto walletVersion key publicKeyLen = some str ∧ str.length ≤ addressLen ∧
      decodeAddressToRaw crypto walletVersion str = .returned 37 (some key) := by
  have hsum : (Wallet.checksum crypto (walletVersion :: key)).length = checksumLen :=
    Wallet.checksum_length crypto _
  generalize hbin : walletVersion :: key ++ Wallet.checksum crypto (walletVersion :: key) = bin
  have hlen : bin.length = decodedLen := by
    rw [← hbin, List.length_append, List.length_cons, hkey, hsum]
    rfl
  have hroom : (Base58.encode bin).length < addressLen := by
    have hle := encode_length_le bin
    have hzeros := Base58.zeros_le bin
    rw [hlen] at hle hzeros
    simp only [decodedLen, publicKeyLen, checksumLen, addressLen] at hle hzeros ⊢
    omega
  refine ⟨Base58.encode bin ++ [0], ?_, ?_, ?_⟩
  · rw [encodeAddressFromRaw, if_neg (not_not.mpr rfl)]
    simp only [List.take_of_length_le hkey.le, hbin, b58enc_eq, if_neg (not_le.mpr hroom)]
  · rw [List.length_append]
    exact hroom
  · have hraw : (bin.drop 1).take publicKeyLen = key := by
      rw [← hbin, List.cons_append, List.drop_succ_cons, List.drop_zero, List.take_left' hkey]
    have hrest : (bin.drop (1 + publicKeyLen)).take checksumLen = Wallet.checksum crypto (walletVersion :: key) := by
      rw [← hbin, List.drop_left' (by rw [List.length_cons, hkey, Nat.add_comm]), List.take_of_length_le hsum.le]
    have hversion : bin.headD 0 = walletVersion := by
      rw [← hbin]
      rfl
    rw [decodeAddressToRaw, contents_terminated (Base58.zero_notMem_encode bin), b58tobin_encode hlen]
    simp only [hraw, hrest, hversion, ne_eq, not_true_eq_false, if_false, strncmpEq_self]
    rfl

/-- Version and key begin with zeros. -/
theorem zero_key_read_back : ∃ str,
    encodeAddressFromRaw plainCrypto 0 (List.replicate 31 0 ++ [5]) publicKeyLen = some str ∧
      str.length ≤ addressLen ∧
      decodeAddressToRaw plainCrypto 0 str = .returned 37 (some (List.replicate 31 0 ++ [5])) :=
  address_read_back plainCrypto 0 rfl

end Computantis.Client
