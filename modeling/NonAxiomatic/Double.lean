import NonAxiomatic.Text.Basic

/-!
# Doubles

A double is a word of 64 bits: a sign, eleven bits of exponent and 52 of fraction, read as
IEEE 754 says. Numbers are computed with as `Float` does. What `Float` does not tell apart are the
words that stand for no number: such a word has a sign and a payload, which are kept when it is
stored, count in the total order of doubles, and are handed on by arithmetic, from the first
operand that is no number.

`x = y` says that two doubles are the same word, and `x == y` that they are equal numbers: `0.0`
equals `-0.0`, and what is no number does not equal itself.

* `binary_of_isNaN`: what is no number is handed on.
* `Binary.denominator_pos`: the quotient is well defined.
* `roundHalfEven_mul`: an exact multiple is not changed.
* `roundHalfEven_le`, `le_roundHalfEven`: the result is within half a unit.
-/

namespace NonAxiomatic

@[ext]
structure Double where
  bits : UInt64
deriving DecidableEq, Repr, Inhabited

namespace Double

def signMask : UInt64 := 0x8000000000000000

def magnitude (x : Double) : UInt64 := x.bits &&& 0x7FFFFFFFFFFFFFFF

/-- Infinity: every bit of the exponent is set. -/
def infinity : Double := ⟨0x7FF0000000000000⟩

def nan : Double := ⟨0x7FF8000000000000⟩

def invalid : Double := ⟨0xFFF8000000000000⟩

def isNaN (x : Double) : Bool := infinity.bits < x.magnitude

def isFinite (x : Double) : Bool := x.magnitude < infinity.bits

instance : Neg Double := ⟨fun x => ⟨x.bits ^^^ signMask⟩⟩

def abs (x : Double) : Double := ⟨x.magnitude⟩

/-- A double that is no number in the form in which arithmetic hands it on: with the highest bit
of the fraction set. -/
def quiet (x : Double) : Double := ⟨x.bits ||| 0x8000000000000⟩

/-! ## Arithmetic -/

@[inline]
def toFloat (x : Double) : Float := .ofBits x.bits

@[inline]
def ofFloat (x : Float) : Double := if x.isNaN then invalid else ⟨x.toBits⟩

@[inline]
def binary (op : Float → Float → Float) (x y : Double) : Double :=
  if x.isNaN then x.quiet else if y.isNaN then y.quiet else ofFloat (op x.toFloat y.toFloat)

instance : Add Double := ⟨binary (· + ·)⟩

instance : Sub Double := ⟨binary (· - ·)⟩

instance : Mul Double := ⟨binary (· * ·)⟩

instance : Div Double := ⟨binary (· / ·)⟩

instance : OfScientific Double :=
  ⟨fun digits negative exponent => ofFloat (.ofScientific digits negative exponent)⟩

def ofNat (n : Nat) : Double := ofFloat (.ofNat n)

/-- The second root. It has no sign, and that of either infinity is infinity. -/
def sqrt (x : Double) : Double :=
  if x.abs = infinity then infinity
  else if x.isNaN then x.quiet.abs
  else (ofFloat x.toFloat.sqrt).abs

def pow (x y : Double) : Double := binary Float.pow x y

/-- The whole part of a double as a word, moved into its range; zero for what is no number. -/
def toUInt64 (x : Double) : UInt64 := x.toFloat.toUInt64

/-- The whole part of a double as a half word, moved into its range; zero for what is no
number. -/
def toUInt32 (x : Double) : UInt32 := x.toFloat.toUInt32

/-! ## Order -/

instance : BEq Double := ⟨fun x y => x.toFloat == y.toFloat⟩

instance : LT Double := ⟨fun x y => x.toFloat < y.toFloat⟩

instance : LE Double := ⟨fun x y => x.toFloat ≤ y.toFloat⟩

instance (x y : Double) : Decidable (x < y) := inferInstanceAs (Decidable (x.toFloat < y.toFloat))

instance (x y : Double) : Decidable (x ≤ y) := inferInstanceAs (Decidable (x.toFloat ≤ y.toFloat))

/-- The place of a double in the total order of doubles: negative ones before positive ones,
`-0.0` right before `0.0`, and what is no number at the two ends. -/
def totalKey (x : Double) : Int :=
  let place : Int := x.magnitude.toNat
  if signMask ≤ x.bits then -place - 1 else place

theorem binary_of_isNaN (op : Float → Float → Float) {x : Double} (h : x.isNaN) (y : Double) :
    binary op x y = x.quiet :=
  if_pos h

/-! ## Doubles as exact binary numbers

A finite double is `± m · 2 ^ q` with whole `m` and `q`. `Binary.of` takes a double apart into its
sign and the exact quotient of two natural numbers, which is what the decimal printers work on.
-/

/-- The class of a double, with the parts that a finite one is made of. -/
inductive Binary where
  | nan
  | infinite (negative : Bool)
  /-- The number `± mantissa · 2 ^ exponent`. -/
  | finite (negative : Bool) (mantissa : Nat) (exponent : Int)
deriving DecidableEq, Repr

def leadingBit : Nat := 0x10000000000000

def signBit : Nat := 0x8000000000000000

namespace Binary

/-- Take a double apart. A subnormal has the exponent of the least normal numbers and no
implicit leading bit. -/
def ofBits (bits : UInt64) : Binary :=
  let word := bits.toNat
  let negative : Bool := signBit ≤ word
  let field : Nat := word / leadingBit % 0x800
  let fraction := word % leadingBit
  if field = 0x7FF then
    if fraction = 0 then .infinite negative else .nan
  else if field = 0 then .finite negative fraction (-1074)
  else .finite negative (leadingBit + fraction) ((field : Int) - 1075)

def of (x : Double) : Binary := ofBits x.bits

end Binary

/-- The exact quotient `numerator / denominator` of `m · 2 ^ q`. -/
structure Ratio where
  numerator : Nat
  denominator : Nat
deriving DecidableEq, Repr

/-- `m · 2 ^ q` as a quotient. -/
def Ratio.ofBinary (m : Nat) (q : Int) : Ratio :=
  if 0 ≤ q then ⟨m <<< q.toNat, 1⟩ else ⟨m, 1 <<< (-q).toNat⟩

theorem Ratio.denominator_pos (m : Nat) (q : Int) : 0 < (Ratio.ofBinary m q).denominator := by
  unfold Ratio.ofBinary
  split
  · exact Nat.one_pos
  · simp only [Nat.one_shiftLeft]
    exact Nat.two_pow_pos _

/-! ## The shortest decimal text of a double

Of the decimal numbers that read back as a given double, the shortest is written: `shortest`
takes the coarsest grid of multiples of a power of ten that has a point among the reals that
round to the double, and on it the point nearest to the double. Of two points that are equally
near, `Tie` says which.

The reals that round to `m · 2 ^ q` reach half way to the two neighbouring doubles, where the
neighbour below a power of two is only half as far away; the two ends belong to them exactly
when `m` is even.

Three spellings are made of the digits: `plain` is positional always, `pointed` adds a point and
a zero to a whole number, and `exponential` turns to an exponent for very large and very small
numbers. The first two write the greater of two equally near numbers, the third the even one.
-/

/-- Which of two equally near decimal numbers is written. -/
inductive Tie where
  | up
  | toEven
deriving DecidableEq, Repr

/-- Whether `d` is preferred to `d + 1` when both are equally near. -/
def Tie.takesLower : Tie → Nat → Bool
  | .up, _ => false
  | .toEven, d => d % 2 = 0

/-- A decimal number `digits · 10 ^ exponent`. -/
structure Decimal where
  digits : Nat
  /-- The power of ten they count. -/
  exponent : Int
deriving DecidableEq, Repr

/-- The reals that round to one double: the quotients from `low / scale` to `high / scale` around
`value / scale`, with the two ends when `closed`. -/
structure Rounding where
  low : Nat
  value : Nat
  high : Nat
  scale : Nat
  /-- Whether the ends belong to it. -/
  closed : Bool
deriving DecidableEq, Repr

/-- The reals that round to `m · 2 ^ q`, counted in quarters of the double's last place. -/
def Rounding.ofBinary (m : Nat) (q : Int) : Rounding :=
  let unit := Ratio.ofBinary 1 (q - 2)
  let below := if m = leadingBit ∧ -1074 < q then 1 else 2
  { low := (4 * m - below) * unit.numerator
    value := 4 * m * unit.numerator
    high := (4 * m + 2) * unit.numerator
    scale := unit.denominator
    closed := m % 2 = 0 }

/-- Whether `point / (scale · parts)` rounds to the double. -/
def Rounding.contains (r : Rounding) (parts point : Nat) : Bool :=
  if r.closed then r.low * parts ≤ point && point ≤ r.high * parts
  else r.low * parts < point && point < r.high * parts

/-- The point of the grid of multiples of `10 ^ exponent` that rounds to the double and is
nearest to it, if one of the two points around the double rounds to it. -/
def Rounding.onGrid (r : Rounding) (tie : Tie) (exponent : Int) : Option Decimal :=
  let unit := if 0 ≤ exponent then Nat.pow 10 exponent.toNat else 1
  let parts := if 0 ≤ exponent then 1 else Nat.pow 10 (-exponent).toNat
  let step := unit * r.scale
  let target := r.value * parts
  let d := target / step
  let below := r.contains parts (d * step)
  let above := r.contains parts ((d + 1) * step)
  let excess := 2 * (target - d * step)
  if below && (!above || excess < step || (excess = step && tie.takesLower d)) then
    some ⟨d, exponent⟩
  else if above then some ⟨d + 1, exponent⟩
  else none

/-- The first hit on the grids `10 ^ exponent`, `10 ^ (exponent - 1)`, …: the coarsest grid that
has one. -/
def Rounding.coarsest (r : Rounding) (tie : Tie) : Nat → Int → Decimal
  | 0, _ => ⟨0, 0⟩
  | n + 1, exponent =>
    match r.onGrid tie exponent with
    | some d => d
    | none => r.coarsest tie n (exponent - 1)

/-- The shortest decimal number that reads back as `m · 2 ^ q`. Every double lies between
`10 ^ -324` and `10 ^ 309`, so that grids outside of this range are not needed. -/
def shortest (tie : Tie) (m : Nat) (q : Int) : Decimal :=
  if m = 0 then ⟨0, 0⟩ else (Rounding.ofBinary m q).coarsest tie 640 309

def digitsOf (n : Nat) : List Char := Nat.toDigits 10 n

/-- A decimal number without an exponent; `point` says whether a whole number gets `.0`. -/
def Decimal.positional (d : Decimal) (point : Bool) : List Char :=
  let digits := digitsOf d.digits
  if 0 ≤ d.exponent then
    digits ++ List.replicate d.exponent.toNat '0' ++ (if point then ['.', '0'] else [])
  else
    let places := (-d.exponent).toNat
    let padded := List.replicate (places + 1 - digits.length) '0' ++ digits
    padded.take (padded.length - places) ++ '.' :: padded.drop (padded.length - places)

def Decimal.scientific (d : Decimal) : List Char :=
  let digits := digitsOf d.digits
  let exponent := d.exponent + (digits.length - 1 : Nat)
  let mantissa := match digits with
    | [] => []
    | [c] => [c]
    | c :: rest => c :: '.' :: rest
  mantissa ++ 'e' :: (if exponent < 0 then '-' else '+') :: digitsOf exponent.natAbs

/-- Write a double, its finite magnitude by `write`. -/
def writeWith (tie : Tie) (write : Decimal → List Char) (x : Double) : String :=
  match Binary.of x with
  | .nan => "NaN"
  | .infinite negative => if negative then "-inf" else "inf"
  | .finite negative m q =>
    String.ofList ((if negative then ['-'] else []) ++ write (shortest tie m q))

/-- The shortest text without an exponent: `1`, `0.25`, `NaN`, `inf`. -/
def plain (x : Double) : String := writeWith .up (·.positional false) x

/-- The shortest text without an exponent, in which a whole number shows that it is a double:
`1.0`. -/
def pointed (x : Double) : String := writeWith .up (·.positional true) x

/-- The shortest text, with an exponent unless the point lies at most four zeros before the
digits and at most sixteen places after their start: `1.0`, `0.00001`, `1e-6`, `1e+16`. -/
def exponential (x : Double) : String :=
  writeWith .toEven (fun d =>
    let point := d.exponent + (digitsOf d.digits).length
    if d.digits = 0 || (-5 < point && point ≤ 16) then d.positional true else d.scientific) x

/-! ## Doubles with a fixed number of decimal places

`fixed places x` rounds the exact binary value of `x` to a whole number of units of the last
place, a half going to the even neighbour. The sign of a negative number, `-0.0` among them, is
kept when it rounds to zero.
-/

/-- The whole number nearest to `n / d`; a half goes to the even neighbour. -/
def roundHalfEven (n d : Nat) : Nat :=
  let q := n / d
  let r := n % d
  if 2 * r < d || (2 * r = d && q % 2 = 0) then q else q + 1

/-- A double with `places` digits after the point. -/
def fixed (places : Nat) (x : Double) : String :=
  match Binary.of x with
  | .nan => "NaN"
  | .infinite negative => if negative then "-inf" else "inf"
  | .finite negative m q =>
    let ratio := Ratio.ofBinary m q
    let units := roundHalfEven (ratio.numerator * Nat.pow 10 places) ratio.denominator
    String.ofList ((if negative then ['-'] else []) ++
      (Decimal.mk units (-(places : Int))).positional false)

theorem roundHalfEven_mul (n : Nat) {d : Nat} (h : 0 < d) : roundHalfEven (n * d) d = n := by
  simp [roundHalfEven, Nat.mul_div_cancel n h, h]

theorem roundHalfEven_le (n : Nat) {d : Nat} (h : 0 < d) :
    2 * (roundHalfEven n d * d) ≤ 2 * n + d := by
  have hn := Nat.div_add_mod n d
  have hr := Nat.mod_lt n h
  have hc := Nat.mul_comm d (n / d)
  simp only [roundHalfEven]
  split
  · omega
  · rename_i hh
    simp only [Bool.or_eq_true, Bool.and_eq_true, decide_eq_true_eq, not_or] at hh
    rw [Nat.add_mul]
    omega

theorem le_roundHalfEven (n : Nat) {d : Nat} (h : 0 < d) :
    2 * n ≤ 2 * (roundHalfEven n d * d) + d := by
  have hn := Nat.div_add_mod n d
  have hr := Nat.mod_lt n h
  have hc := Nat.mul_comm d (n / d)
  simp only [roundHalfEven]
  split
  · rename_i hh
    simp only [Bool.or_eq_true, Bool.and_eq_true, decide_eq_true_eq] at hh
    omega
  · rw [Nat.add_mul]
    omega

/-! ## Reading doubles

The text of a double: an optional sign, then `inf`, `infinity` or `nan` in any case, or digits
with at most one point among them and at least one digit, then optionally `e` and a signed whole
exponent. The value is the double nearest to the number written.
-/

open Text

/-- Cut the sign off a number; `true` for a minus. -/
def splitSign : List Char → Bool × List Char
  | '-' :: rest => (true, rest)
  | '+' :: rest => (false, rest)
  | text => (false, text)

/-- The nearest double to `digits · 10 ^ exponent`. Numbers that lie far outside of the range of
doubles are infinite or zero without being worked out. -/
def nearest (digits : List Char) (exponent : Int) : Double :=
  let significant := digits.dropWhile (· == '0')
  let size := exponent + significant.length
  if significant.isEmpty || size < -400 then 0.0
  else if 400 < size then infinity
  else OfScientific.ofScientific (natOfDigits significant) (exponent < 0) exponent.natAbs

/-- The exponent that follows the digits: none at all, or `e` with a signed run of digits. -/
def exponent? : List Char → Option Int
  | [] => some 0
  | c :: rest =>
    if c == 'e' || c == 'E' then
      let (negative, digits) := splitSign rest
      if isDigits digits then
        some (if negative then -(natOfDigits digits : Int) else natOfDigits digits)
      else none
    else none

def decimal? (text : List Char) : Option Double :=
  let whole := text.takeWhile Char.isDigit
  let rest := text.dropWhile Char.isDigit
  let (fraction, rest) := match rest with
    | '.' :: more => (more.takeWhile Char.isDigit, more.dropWhile Char.isDigit)
    | other => ([], other)
  if whole.isEmpty && fraction.isEmpty then none
  else (exponent? rest).map fun e => nearest (whole ++ fraction) (e - fraction.length)

def read? (text : List Char) : Option Double :=
  let (negative, magnitude) := splitSign text
  let word := String.ofList (magnitude.map Char.toLower)
  let value :=
    if word = "inf" || word = "infinity" then some infinity
    else if word = "nan" then some nan
    else decimal? magnitude
  value.map fun x => if negative then -x else x

end Double

end NonAxiomatic
