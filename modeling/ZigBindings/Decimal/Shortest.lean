import ZigBindings.Decimal.Double

/-!
The shortest decimal text of a double: the fewest digits that read back, the nearest of those, and
an even last digit on a tie.
-/

namespace ZigBindings.Decimal

/-- A positive double between the two neighbours' midpoints, all over one denominator. `closed` says
that the midpoints themselves read back as this double. -/
structure Span where
  low : Nat
  value : Nat
  high : Nat
  denominator : Nat
  closed : Bool

/-- The span of `significand * 2 ^ exponent`; below a power of two the doubles lie twice as dense. -/
def Span.ofBinary (significand : Nat) (exponent : Int) (denseBelow : Bool) : Span where
  low := (4 * significand - if denseBelow then 1 else 2) * Nat.pow 2 exponent.toNat
  value := 4 * significand * Nat.pow 2 exponent.toNat
  high := (4 * significand + 2) * Nat.pow 2 exponent.toNat
  denominator := 4 * Nat.pow 2 (-exponent).toNat
  closed := significand % 2 == 0

def Span.holds (s : Span) (n d : Nat) : Bool :=
  if s.closed then s.low * d ≤ n * s.denominator && n * s.denominator ≤ s.high * d
  else s.low * d < n * s.denominator && n * s.denominator < s.high * d

def leadingZeros (n d : Nat) : Nat → Nat
  | 0 => 0
  | fuel + 1 => if n * 10 < d then leadingZeros (n * 10) d fuel + 1 else 0

/-- The least `p` with `n / d < 10 ^ p`. -/
def decimalPoint (n d : Nat) : Int :=
  if d ≤ n then (Nat.toDigits 10 (n / d)).length else - (leadingZeros n d 400 : Int)

/-- The point nearest to the value on the grid of multiples of `10 ^ e` that reads back. -/
def Span.nearestOn (s : Span) (e : Int) : Option Nat :=
  let up := Nat.pow 10 e.toNat
  let down := Nat.pow 10 (-e).toNat
  let scaled := s.value * down
  let unit := s.denominator * up
  let below := scaled / unit
  let above := below + 1
  let toBelow := scaled - below * unit
  let toAbove := above * unit - scaled
  let belowFirst := toBelow < toAbove || (toBelow == toAbove && below % 2 == 0)
  let holds := fun k => s.holds (k * up) down
  match holds below, holds above with
  | true, true => some (if belowFirst then below else above)
  | true, false => some below
  | false, true => some above
  | false, false => none

def Span.shortest (s : Span) : Nat × Int :=
  let point := decimalPoint s.value s.denominator
  let tries := (List.range 17).filterMap fun (k : Nat) =>
    let e := point - (k + 1 : Int)
    (s.nearestOn e).map fun digits => (digits, e)
  let (digits, e) := tries.headD (0, 0)
  let text := Nat.toDigits 10 digits
  let kept := (text.reverse.dropWhile (· == '0')).reverse
  (kept.foldl (fun n c => 10 * n + (c.toNat - 48)) 0, e + text.length)

/-- Digits are written positionally from `0.0001` up to sixteen places before the point; beyond
that an exponent of at least two digits follows. -/
def layout (digits : List Char) (point : Int) : String :=
  if -4 < point && point ≤ 16 then
    if point ≤ 0 then
      "0." ++ String.ofList (List.replicate (-point).toNat '0' ++ digits)
    else
      let whole := digits.take point.toNat
      let padding := List.replicate (point.toNat - whole.length) '0'
      let rest := digits.drop point.toNat
      String.ofList (whole ++ padding ++ '.' :: if rest.isEmpty then ['0'] else rest)
  else
    let exponent := point - 1
    let mark := if exponent < 0 then "e-" else "e+"
    let size := Nat.toDigits 10 exponent.natAbs
    let fraction := match digits.drop 1 with
      | [] => []
      | rest => '.' :: rest
    String.ofList (digits.take 1 ++ fraction) ++ mark ++
      String.ofList (List.replicate (2 - size.length) '0' ++ size)

def ofBits (bits : UInt64) : String :=
  let sign := if signField bits then "-" else ""
  if isNaN bits then "nan"
  else if !isFinite bits then sign ++ "inf"
  else if isZero bits then sign ++ "0.0"
  else
    let denseBelow := fractionField bits == 0 && 1 < exponentField bits
    let span := Span.ofBinary (significand bits) (binaryExponent bits) denseBelow
    let (digits, point) := span.shortest
    sign ++ layout (Nat.toDigits 10 digits) point

end ZigBindings.Decimal
