import Computantis.Model.Vertex
import Computantis.Schemes.Decimal

/-! @model spicetext | name:Amounts as text and from floats | family:algorithm | source:src/spice/spice.go

    `String` prints whole units, a point and the supplementary units as eighteen decimals without the zeros at
    the end. `FromFloat` goes the other way for what a user types: the whole units come from the number
    itself, the rest from its text with ten decimals. A float is taken as the rational number that it is. -/

namespace Computantis

open Schemes

/-- `strings.Trim(s, "0")`. -/
def trimZeros (s : Bytes) : Bytes := (s.dropWhile (· = 48)).rdropWhile (· = 48)

namespace Melange

/-- `String`. -/
def string (m : Melange) : Bytes :=
  let supplementary := Decimal.numeral m.supplementaryCurrency.toNat
  let zeros : ℤ := 18 - supplementary.length
  let supplementary := if zeros < 0 then [48] else supplementary
  let supplementary := trimZeros supplementary
  let supp := (if supplementary.length ≠ 0 then List.replicate zeros.toNat 48 else []) ++ supplementary
  let supp := if supp.length = 0 then [48] else supp
  Decimal.numeral m.currency.toNat ++ Decimal.point :: supp

/-- One round of the loop of `convertFloatToInt`, for the character at `i` or, behind the end, none. -/
def writeDecimal (s : Bool × Bytes) (c : Option UInt8) : Bool × Bytes :=
  match c with
  | none => (s.1, s.2 ++ [48])
  | some c => if c ≠ 48 ∨ s.1 = true then (true, s.2 ++ [c]) else s

/-- The loop: eighteen rounds over the decimals `p`. -/
def decimalsBuffer (p : Bytes) : Bytes := (((List.range 18).map (p[·]?)).foldl writeDecimal (false, [])).2

/-- `strconv.Atoi` with its error dropped; at most eighteen digits fit an `int`. -/
def atoi (s : Bytes) : ℕ := (Decimal.read s).getD 0

/-- `convertFloatToInt`; the text is split at its first point. -/
def convertFloatToInt (d : ℚ) : ℤ × ℕ :=
  let intPart := ⌊d⌋
  let s := Decimal.fixed 10 d
  if Decimal.point ∉ s then (intPart, 0) else (intPart, atoi (decimalsBuffer (Decimal.fraction s)))

def fromFloat (n : ℚ) : Melange :=
  if n ≤ 0 then ⟨0, 0⟩
  else
    let (cur, supl) := convertFloatToInt n
    new (UInt64.ofNat cur.toNat) (UInt64.ofNat supl)

end Melange

end Computantis
