/-!
# Decimals as 64-bit binary numbers

A decimal is read as the nearest number with a 53-bit significand, of two the even one,
and written with the fewest digits that read back as that number.  Both work on natural
numbers alone.
-/

namespace PlatformOverlay

/-- The number `digits * 10 ^ exponent`. -/
structure Decimal where
  digits : Nat
  exponent : Int
deriving DecidableEq, Repr

namespace Decimal

/-- The number `significand * 2 ^ exponent`. -/
structure Binary where
  significand : Nat
  exponent : Int
deriving DecidableEq, Repr

/-- `base ^ e` for an exponent that is positive, and one otherwise. -/
def powerAbove (base : Nat) (e : Int) : Nat := Nat.pow base e.toNat

/-- A quotient rounded to the nearest number, of two to the even one. -/
def divideToEven (num den : Nat) : Nat :=
  let q := num / den
  let r := num % den
  if 2 * r < den then q
  else if den < 2 * r then q + 1
  else if q % 2 = 0 then q else q + 1

/-- The smallest exponent of a 64-bit number. -/
def minExponent : Int := -1074

/-- The largest one. -/
def maxExponent : Int := 971

/-- A quotient in units of a power of two. -/
def inUnits (num den : Nat) (q : Int) : Nat :=
  divideToEven (num * powerAbove 2 (-q)) (den * powerAbove 2 q)

/-- Give a significand that has come to `2 ^ 53` its usual form. -/
def Binary.normalize (b : Binary) : Binary :=
  if b.significand = Nat.pow 2 53 then ⟨Nat.pow 2 52, b.exponent + 1⟩ else b

def roundQuotient (num den : Nat) : Binary :=
  let estimate : Int := (Nat.log2 num : Int) - Nat.log2 den - 53
  let q := max minExponent estimate
  let m := inUnits num den q
  if m < Nat.pow 2 53 then ⟨m, q⟩ else Binary.normalize ⟨inUnits num den (q + 1), q + 1⟩

def digitCount (n : Nat) : Nat := (Nat.toDigits 10 n).length

/-- The nearest 64-bit number, if the decimal is not too large for one. -/
def toBinary? (d : Decimal) : Option Binary :=
  let magnitude := (digitCount d.digits : Int) + d.exponent
  if d.digits = 0 ∨ magnitude < -330 then some ⟨0, minExponent⟩
  else if 310 < magnitude then none
  else
    let b := roundQuotient (d.digits * powerAbove 10 d.exponent) (powerAbove 10 (-d.exponent))
    if maxExponent < b.exponent then none else some b

namespace Binary

/-- Four times the number as a quotient, in units of `10 ^ t`. -/
def scaled (quarters : Nat) (q t : Int) : Nat × Nat :=
  (quarters * powerAbove 2 (q - 2) * powerAbove 10 (-t), powerAbove 2 (2 - q) * powerAbove 10 t)

/-- Does a decimal read as this number?  It has to lie between the midpoints to the
neighbours, which belong to the numbers with even significands. -/
def isReadFrom (b : Binary) (digits : Nat) (t : Int) : Bool :=
  let below := if b.significand = Nat.pow 2 52 ∧ minExponent < b.exponent then 1 else 2
  let (low, den) := scaled (4 * b.significand - below) b.exponent t
  let (high, _) := scaled (4 * b.significand + 2) b.exponent t
  if b.significand % 2 = 0 then low ≤ digits * den && digits * den ≤ high
  else low < digits * den && digits * den < high

/-- The neighbour of the number among the multiples of `10 ^ t` that reads as the number;
of two the nearer one, and of two equally near the larger. -/
def onGrid? (b : Binary) (t : Int) : Option Decimal :=
  let (num, den) := scaled (4 * b.significand) b.exponent t
  let low := num / den
  let nearLow := 2 * (num % den) < den
  let candidates := if nearLow then [low, low + 1] else [low + 1, low]
  (candidates.find? fun d ↦ b.isReadFrom d t).map (⟨·, t⟩)

/-- The exponent of the leading decimal digit. -/
def leadingExponent (b : Binary) : Int :=
  let (num, den) := scaled (4 * b.significand) b.exponent 0
  let e : Int := (digitCount num : Int) - digitCount den
  if den * powerAbove 10 e ≤ num * powerAbove 10 (-e) then e else e - 1

/-- The decimal of the fewest digits that reads as the number.  On the coarsest grid it
may be the next power of ten, which is written with one digit as well. -/
def shortest (b : Binary) : Decimal :=
  if b.significand = 0 then ⟨0, 0⟩
  else
    let top := b.leadingExponent
    match (List.range 17).findSome? fun (k : Nat) ↦ b.onGrid? (top - k) with
    | some d => if d.digits = 10 then ⟨1, d.exponent + 1⟩ else d
    | none => ⟨0, 0⟩

end Binary

/-- Positional digits, with at least one digit behind the point. -/
def positional (d : Decimal) : String :=
  let digits := Nat.toDigits 10 d.digits
  if 0 ≤ d.exponent then
    String.ofList (digits ++ List.replicate (if d.digits = 0 then 0 else d.exponent.toNat) '0')
      ++ ".0"
  else
    let places := (-d.exponent).toNat
    let padded := List.replicate (places + 1 - digits.length) '0' ++ digits
    String.ofList (padded.take (padded.length - places)) ++ "." ++
      String.ofList (padded.drop (padded.length - places))

end Decimal

end PlatformOverlay
