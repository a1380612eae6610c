import Computantis.Schemes.Radix
import Mathlib.Data.List.TakeWhile

/-! @scheme base58 | name:Base 58 | family:encoding

    Fifty-eight characters are the digits of a number, and the bytes of that number are what a string stands
    for. The number knows nothing of zeros in front, so each leading `1`, the digit zero, stands for exactly
    one leading zero byte. -/

namespace Schemes.Base58

/-- The codes of the digits and letters without `0`, `O`, `I` and `l`. -/
def alphabet : List ℕ :=
  [49, 50, 51, 52, 53, 54, 55, 56, 57, 65, 66, 67, 68, 69, 70, 71, 72, 74, 75, 76, 77, 78, 80, 81, 82, 83, 84, 85,
    86, 87, 88, 89, 90, 97, 98, 99, 100, 101, 102, 103, 104, 105, 106, 107, 109, 110, 111, 112, 113, 114, 115,
    116, 117, 118, 119, 120, 121, 122]

def digit (c : UInt8) : Option ℕ := alphabet.idxOf? c.toNat

/-- The number of `1` characters in front. -/
def ones (s : List UInt8) : ℕ := (s.takeWhile (· = 49)).length

/-- The number that the characters spell. -/
def number (s : List UInt8) : Option ℕ := (s.mapM digit).map (horner 58)

def decode (s : List UInt8) : Option (List UInt8) :=
  (number s).map fun x => (List.replicate (ones s) 0 ++ shortest 256 x).map UInt8.ofNat

/-- The character of a digit. -/
def char (d : ℕ) : UInt8 := UInt8.ofNat (alphabet.getD d 0)

/-- The number of zero bytes in front. -/
def zeros (b : List UInt8) : ℕ := (b.takeWhile (· = 0)).length

/-- One `1` for each leading zero byte, and the digits of the number that the bytes spell. -/
def encode (b : List UInt8) : List UInt8 :=
  List.replicate (zeros b) 49 ++ (shortest 58 (horner 256 (b.map UInt8.toNat))).map char

theorem digit_lt {c : UInt8} {d : ℕ} (h : digit c = some d) : d < 58 := by
  rw [digit, List.idxOf?, List.findIdx?_eq_some_iff_getElem] at h
  exact h.1

theorem number_ones (s : List UInt8) : number s = number (s.dropWhile (· = 49)) := by
  induction s with
  | nil => rfl
  | cons c s ih =>
    rcases eq_or_ne c 49 with rfl | hc
    · have hdigit : digit 49 = some 0 := by decide
      rw [List.dropWhile_cons_of_pos (by simp), ← ih, number, List.mapM_cons, hdigit, number]
      cases s.mapM digit with
      | none => rfl
      | some ds =>
        refine congrArg some ?_
        exact horner_zeros 1 ds
    · rw [List.dropWhile_cons_of_neg (by simpa using hc)]

/-! ### Zero bytes in front -/

theorem zeros_le (b : List UInt8) : zeros b ≤ b.length := (List.takeWhile_prefix _).length_le

theorem drop_zeros (b : List UInt8) : b.drop (zeros b) = b.dropWhile (· = 0) := by
  have hdrop : (b.takeWhile (· = 0) ++ b.dropWhile (· = 0)).drop (zeros b) = b.dropWhile (· = 0) :=
    List.drop_left' rfl
  rwa [List.takeWhile_append_dropWhile] at hdrop

theorem replicate_zeros (b : List UInt8) : List.replicate (zeros b) 0 ++ b.drop (zeros b) = b := by
  have htake : b.takeWhile (· = 0) = List.replicate (zeros b) 0 := by
    refine List.eq_replicate_iff.mpr ⟨rfl, fun c hc => ?_⟩
    have hzero := List.mem_takeWhile_imp hc
    exact of_decide_eq_true hzero
  rw [drop_zeros, ← htake, List.takeWhile_append_dropWhile]

theorem horner_drop_zeros (b : List UInt8) :
    horner 256 ((b.drop (zeros b)).map UInt8.toNat) = horner 256 (b.map UInt8.toNat) := by
  have hsplit := congrArg (List.map UInt8.toNat) (replicate_zeros b)
  rw [List.map_append, List.map_replicate, UInt8.toNat_zero] at hsplit
  rw [← hsplit, horner_zeros]

theorem map_drop_zeros (b : List UInt8) :
    (b.drop (zeros b)).map UInt8.toNat = (b.map UInt8.toNat).dropWhile (· = 0) := by
  have hzero : (fun d : ℕ => decide (d = 0)) ∘ UInt8.toNat = fun c : UInt8 => decide (c = 0) := by
    funext c
    exact decide_eq_decide.mpr (UInt8.toNat_inj (b := 0))
  rw [drop_zeros, List.dropWhile_map, hzero]

/-! ### What the encoder writes -/

theorem digit_char {d : ℕ} (hd : d < 58) : digit (char d) = some d := by
  have htable : ∀ d < 58, digit (char d) = some d := by decide
  exact htable d hd

theorem mapM_digit_char {ds : List ℕ} (h : ∀ d ∈ ds, d < 58) : (ds.map char).mapM digit = some ds := by
  induction ds with
  | nil => rfl
  | cons d ds ih =>
    obtain ⟨hd, hds⟩ := List.forall_mem_cons.mp h
    simp [digit_char hd, ih hds]

theorem takeWhile_shortest (x : ℕ) : ((shortest 58 x).map char).takeWhile (· = 49) = [] := by
  cases hds : shortest 58 x with
  | nil => rfl
  | cons d ds =>
    refine List.takeWhile_cons_of_neg ?_
    rw [decide_eq_true_eq]
    intro hone
    have hd : d < 58 := shortest_lt (by decide) (hds ▸ List.mem_cons_self ..)
    have hzero : digit (char d) = some 0 := by
      rw [hone]
      decide
    rw [digit_char hd, Option.some.injEq] at hzero
    exact shortest_head (hzero ▸ hds)

theorem ones_encode (b : List UInt8) : ones (encode b) = zeros b := by
  rw [ones, encode, List.takeWhile_append_of_pos (by simp), takeWhile_shortest, List.append_nil,
    List.length_replicate]

theorem number_encode (b : List UInt8) : number (encode b) = some (horner 256 (b.map UInt8.toNat)) := by
  have hrest := List.takeWhile_append_dropWhile (p := fun c : UInt8 => decide (c = 49))
    (l := (shortest 58 (horner 256 (b.map UInt8.toNat))).map char)
  rw [takeWhile_shortest, List.nil_append] at hrest
  rw [number_ones, encode, List.dropWhile_append_of_pos (by simp), hrest, number,
    mapM_digit_char fun d hd => shortest_lt (by decide) hd, Option.map_some, horner_shortest]

theorem zero_notMem_encode (b : List UInt8) : 0 ∉ encode b := by
  rw [encode, List.mem_append, List.mem_map]
  rintro (hone | ⟨d, hd, hchar⟩)
  · exact absurd (List.eq_of_mem_replicate hone) (by decide)
  · have hdigit := digit_char (shortest_lt (by decide) hd)
    rw [hchar] at hdigit
    exact absurd hdigit (by simp [show digit 0 = none from by decide])

end Schemes.Base58
