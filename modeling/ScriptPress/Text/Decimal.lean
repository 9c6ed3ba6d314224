import ScriptPress.Text.CharClass

/-! # Decimal numbers and doubles

A decimal is read into the nearest double, a half going to the even neighbour. A double is written
by the fewest digits that read back as the same double, in positional notation. Both directions
work on exact natural numbers.
-/
namespace ScriptPress.Text

def twoTo (e : Nat) : Nat := Nat.pow 2 e

def tenTo (e : Nat) : Nat := Nat.pow 10 e

/-- `num / den` rounded to the nearest natural number, a half to the even one. -/
def roundHalfEven (num den : Nat) : Nat :=
  let low := num / den
  let twice := 2 * (num % den)
  if twice < den then low
  else if twice = den then low + low % 2
  else low + 1

/-- The largest `e` with `2 ^ e ≤ num / den`. -/
def ratioLog (num den : Nat) : Int :=
  let guess : Int := (num.log2 : Int) - den.log2
  let reached :=
    if guess < 0 then den ≤ num * twoTo (-guess).toNat else den * twoTo guess.toNat ≤ num
  if reached then guess else guess - 1

/-- `num / den` divided by `2 ^ e` and rounded. -/
def scaledRound (num den : Nat) (e : Int) : Nat :=
  if e < 0 then roundHalfEven (num * twoTo (-e).toNat) den
  else roundHalfEven num (den * twoTo e.toNat)

/-- The bits of the double nearest to `num / den`. -/
def nearestBits (num den : Nat) : UInt64 :=
  if num = 0 then 0 else
    let e := max (ratioLog num den - 52) (-1074)
    let m := scaledRound num den e
    let (m, e) := if m = twoTo 53 then (twoTo 52, e + 1) else (m, e)
    if e > 971 then 0x7ff0000000000000
    else if m < twoTo 52 then UInt64.ofNat m
    else UInt64.ofNat ((e + 1075).toNat * twoTo 52 + (m - twoTo 52))

/-- The double nearest to `digits · 10 ^ exponent`. Values past the ends of the range are decided
by their order of magnitude alone. -/
def nearestDouble (digits : Nat) (exponent : Int) : Float :=
  let magnitude := (Nat.toDigits 10 digits).length + exponent
  if digits = 0 then 0.0
  else if magnitude > 400 then Float.ofBits 0x7ff0000000000000
  else if magnitude < -400 then 0.0
  else if exponent < 0 then Float.ofBits (nearestBits digits (tenTo (-exponent).toNat))
  else Float.ofBits (nearestBits (digits * tenTo exponent.toNat) 1)

/-- The natural number written by a run of decimal digits. -/
def digitsValue (digits : List Char) : Nat :=
  digits.foldl (fun n c => 10 * n + (c.toNat - '0'.toNat)) 0

/-- An optional sign: whether it is a minus, and what follows it. -/
def splitSign : List Char → Bool × List Char
  | '-' :: rest => (true, rest)
  | '+' :: rest => (false, rest)
  | text => (false, text)

/-- Digits, an optional point with more digits and an optional exponent; one digit at least before
the exponent and one in it. -/
def readMagnitude? (text : List Char) : Option Float :=
  let (whole, rest) := text.span isDigit
  let (fraction, rest) := match rest with
    | '.' :: more => more.span isDigit
    | _ => ([], rest)
  if whole ++ fraction = [] then none else
    let value (exponent : Int) : Float :=
      nearestDouble (digitsValue (whole ++ fraction)) (exponent - fraction.length)
    match rest with
    | [] => some (value 0)
    | mark :: more =>
      if mark = 'e' ∨ mark = 'E' then
        let (negative, digits) := splitSign more
        if digits ≠ [] ∧ digits.all isDigit then
          some (value (if negative then -(digitsValue digits : Int) else digitsValue digits))
        else none
      else none

/-- Reads a decimal with an optional sign; `inf`, `infinity` and `nan` are numbers too. -/
def readDouble? (text : List Char) : Option Float :=
  let (negative, rest) := splitSign text
  let word := String.ofList (lower rest)
  let magnitude? :=
    if word = "inf" ∨ word = "infinity" then some (Float.ofBits 0x7ff0000000000000)
    else if word = "nan" then some (Float.ofBits 0x7ff8000000000000)
    else readMagnitude? rest
  magnitude?.map fun x => if negative then -x else x

/-- A positive number below the next one of its scale, as the fractions `value`, `low` and `high`
over `den`: the reals from `low` to `high` round to it, the ends too when `closed`. -/
structure RoundingRange where
  value : Nat
  low : Nat
  high : Nat
  den : Nat
  closed : Bool

/-- The range of the finite positive double with the given bits. -/
def roundingRange (bits : Nat) : RoundingRange :=
  let field : Nat := bits / twoTo 52 % twoTo 11
  let fraction := bits % twoTo 52
  let m := if field = 0 then fraction else fraction + twoTo 52
  let e : Int := (if field = 0 then 1 else (field : Int)) - 1075
  let below := if fraction = 0 ∧ field > 1 then 1 else 2
  let unit := if e < 0 then 1 else twoTo e.toNat
  { value := 4 * m * unit
    low := (4 * m - below) * unit
    high := (4 * m + 2) * unit
    den := if e < 0 then 4 * twoTo (-e).toNat else 4
    closed := m % 2 = 0 }

/-- Whether `digits · 10 ^ scale` rounds to the range's number. -/
def RoundingRange.holds (r : RoundingRange) (digits : Nat) (scale : Int) : Bool :=
  let lhs := if scale < 0 then digits * r.den else digits * tenTo scale.toNat * r.den
  let grow := if scale < 0 then tenTo (-scale).toNat else 1
  if r.closed then r.low * grow ≤ lhs && lhs ≤ r.high * grow
  else r.low * grow < lhs && lhs < r.high * grow

/-- The grid point of spacing `10 ^ scale` that reads back; the nearer of two, the upper one at a
tie. -/
def RoundingRange.onGrid? (r : RoundingRange) (scale : Int) : Option Nat :=
  let (num, den) :=
    if scale < 0 then (r.value * tenTo (-scale).toNat, r.den)
    else (r.value, r.den * tenTo scale.toNat)
  let low := num / den
  match r.holds low scale, r.holds (low + 1) scale with
  | true, true => some (if 2 * (num % den) < den then low else low + 1)
  | true, false => some low
  | false, true => some (low + 1)
  | false, false => none

/-- The first grid with a point that reads back, from one digit upwards. -/
def RoundingRange.shortest (r : RoundingRange) : Nat → Int → Nat × Int
  | 0, scale => (r.value / r.den, scale)
  | count + 1, scale =>
    match r.onGrid? scale with
    | some digits => (digits, scale)
    | none => r.shortest count (scale - 1)

/-- The exponent of the leading decimal digit of `num / den`, searched downwards. -/
def leadingExponent (num den : Nat) : Nat → Int → Int
  | 0, e => e
  | fuel + 1, e =>
    let reached := if e < 0 then den ≤ num * tenTo (-e).toNat else den * tenTo e.toNat ≤ num
    if reached then e else leadingExponent num den fuel (e - 1)

/-- `digits · 10 ^ scale` in positional notation, without a point where none is needed. -/
def positional (digits : Nat) (scale : Int) : List Char :=
  let shown := Nat.toDigits 10 digits
  if scale ≥ 0 then shown ++ List.replicate scale.toNat '0'
  else
    let places := (-scale).toNat
    let shown := List.replicate (places + 1 - shown.length) '0' ++ shown
    let whole := shown.take (shown.length - places)
    let fraction := ((shown.drop (shown.length - places)).reverse.dropWhile (· == '0')).reverse
    if fraction = [] then whole else whole ++ '.' :: fraction

/-- The text of a double: the fewest digits that read back, without an exponent. -/
def doubleText (x : Float) : String :=
  let bits := x.toBits.toNat
  let magnitude := bits % twoTo 63
  let sign := if bits < twoTo 63 then "" else "-"
  if magnitude > 0x7ff0000000000000 then "NaN"
  else if magnitude = 0x7ff0000000000000 then sign ++ "inf"
  else if magnitude = 0 then sign ++ "0"
  else
    let range := roundingRange magnitude
    let top := leadingExponent range.value range.den 640 310
    let (digits, scale) := range.shortest 18 top
    sign ++ String.ofList (positional digits scale)

end ScriptPress.Text
