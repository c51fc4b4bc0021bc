import NonAxiomatic.Symbol

/-!
# Truth values

The value of a judgment or a goal: how often its statement has held, or how much it is wanted
(`frequency`), and how much evidence says so (`confidence`). `TruthValue.of` keeps the frequency
in the unit interval and the confidence away from its ends, so that the amount of evidence stays
finite.

A frequency and a confidence stand for amounts of evidence: in all `w = k c / (1 - c)`, of which
`f w` is positive. `k` is the evidential horizon, the amount of evidence still to come that a
confidence is measured against.

The values of conclusions are computed from those of their premises by `TruthFunction.apply`.
-/

namespace NonAxiomatic

/-! ## Scales

The truth functions are formulas over numbers. `Scale` names what they need of a number system,
so that one set of formulas can be run on doubles and reasoned about over exact numbers.

The instance for doubles computes every operation as IEEE 754 says, so that a second root is
correctly rounded. The root of any other degree is a power, of which the last digit need not be
right; over doubles the mean of two numbers (`mean`) and that of a list of two (`andAverage`) can
therefore differ.
-/

/-- A number system in which evidence can be weighed. -/
class Scale (α : Type) extends Add α, Sub α, Mul α, Div α where
  zero : α
  one : α
  half : α
  minConfidence : α
  maxConfidence : α
  le : α → α → Bool
  lt : α → α → Bool
  eq : α → α → Bool
  sqrt : α → α
  /-- The number whose `n`-th power is a given one. -/
  root : (n : Nat) → α → α

instance : Scale Double where
  zero := 0.0
  one := 1.0
  half := 0.5
  minConfidence := 0.0001
  maxConfidence := 0.9999
  le x y := x ≤ y
  lt x y := x < y
  eq x y := x == y
  sqrt := Double.sqrt
  root n x := x.pow (1.0 / .ofNat n)

namespace Scale

variable {α : Type} [Scale α]

/-- The product of several numbers: all of them hold. -/
def and (xs : List α) : α := xs.foldl (· * ·) one

/-- All but what each of several numbers leaves out: at least one of them holds. -/
def or (xs : List α) : α := one - (xs.map fun x => one - x).foldl (· * ·) one

def not (x : α) : α := one - x

/-- The geometric mean of two numbers. -/
def mean (x y : α) : α := sqrt (and [x, y])

def andAverage (xs : List α) : α := if xs.isEmpty then one else root xs.length (and xs)

/-- Repeated squaring: `r · a ^ n`, where `rounds` is at least the number of binary digits of
`n`. -/
def powerFrom (r a : α) (n : Nat) : (rounds : Nat) → α
  | 0 => r
  | rounds + 1 =>
    let r := if n % 2 = 1 then r * a else r
    if n / 2 = 0 then r else powerFrom r (a * a) (n / 2) rounds

def power (a : α) (n : Nat) : α := powerFrom one a n (n + 1)

def clampUnit (x : α) : α :=
  let x := if lt x zero then zero else x
  if lt one x then one else x

def clampConfidence (c : α) : α :=
  if le one c then maxConfidence else if le c zero then minConfidence else c

end Scale

/-! ## Truth values -/

open Scale

/-- A frequency with the confidence in it. -/
structure TruthValue (α : Type) where
  frequency : α
  /-- The share of the evidence seen in that to be seen in the near future. -/
  confidence : α
deriving BEq, Repr, Inhabited

structure Evidence (α : Type) where
  positive : α
  /-- All evidence. -/
  total : α
deriving BEq, Repr, Inhabited

namespace TruthValue

variable {α : Type} [Scale α]

/-- The value with a frequency and a confidence, both moved into their ranges. -/
def of (frequency confidence : α) : TruthValue α :=
  ⟨clampUnit frequency, clampConfidence confidence⟩

def withConfidence (v : TruthValue α) (confidence : α) : TruthValue α :=
  of v.frequency confidence

/-- How much a statement is expected to hold. -/
def expect (frequency confidence : α) : α := confidence * (frequency - half) + half

def expectation (v : TruthValue α) : α := expect v.frequency v.confidence

/-! ### Evidence -/

/-- The evidence that a frequency and a confidence stand for. -/
def evidenceOf (k frequency confidence : α) : Evidence α :=
  let w := k * confidence / (one - confidence)
  ⟨frequency * w, w⟩

def evidence (k : α) (v : TruthValue α) : Evidence α := evidenceOf k v.frequency v.confidence

def confidenceOf (k w : α) : α := w / (w + k)

/-- The value that amounts of evidence stand for. Without any evidence, the frequency is one. -/
def ofEvidence (k : α) (e : Evidence α) : TruthValue α :=
  let frequency :=
    if eq e.positive zero && eq e.total zero then one else e.positive / e.total
  of frequency (confidenceOf k e.total)

/-! ### Values of sentences -/

def default : TruthValue Double := of 1.0 0.9

/-- The value that an input says: a frequency outside of the unit interval is refused. -/
def checked (frequency confidence : Double) : Except SyntaxError (TruthValue Double) :=
  if !(0.0 ≤ frequency && frequency ≤ 1.0) then .error (.frequencyOutOfRange frequency)
  else if confidence.isNaN then .error .confidenceNotANumber
  else .ok (of frequency confidence)

/-- The text of a value, with two decimal places each. -/
def text (v : TruthValue Double) : String :=
  "%" ++ Double.fixed 2 v.frequency ++ ";" ++ Double.fixed 2 v.confidence ++ "%"

end TruthValue

/-! ## Truth functions

The values of conclusions. A rule with two premises computes the value of its conclusion by one
of the eleven functions of `TruthFunction`; the functions after them re-value one sentence.
-/

inductive TruthFunction where
  | revision
  | deduction
  | analogy
  | resemblance
  | abduction
  | induction
  | exemplification
  | comparison
  | intersection
  | union
  | difference
deriving DecidableEq, Repr, Inhabited

namespace TruthFunction

def all : List TruthFunction :=
  [revision, deduction, analogy, resemblance, abduction, induction, exemplification, comparison,
    intersection, union, difference]

def name : TruthFunction → String
  | revision => "Revision"
  | deduction => "Deduction"
  | analogy => "Analogy"
  | resemblance => "Resemblance"
  | abduction => "Abduction"
  | induction => "Induction"
  | exemplification => "Exemplification"
  | comparison => "Comparison"
  | intersection => "Intersection"
  | union => "Union"
  | difference => "Difference"

variable {α : Type} [Scale α]

/-- The value of a conclusion from the values of its premises. The strong functions multiply
frequencies and confidences; the weak ones count evidence; revision adds the evidence of both. -/
def apply (function : TruthFunction) (k : α) (a b : TruthValue α) : TruthValue α :=
  let f₁ := a.frequency
  let c₁ := a.confidence
  let f₂ := b.frequency
  let c₂ := b.confidence
  match function with
  | revision =>
    let e₁ := a.evidence k
    let e₂ := b.evidence k
    .ofEvidence k ⟨e₁.positive + e₂.positive, e₁.total + e₂.total⟩
  | deduction => .of (and [f₁, f₂]) (and [f₁, f₂, c₁, c₂])
  | analogy => .of (and [f₁, f₂]) (and [f₂, c₁, c₂])
  | resemblance => .of (and [f₁, f₂]) (and [or [f₁, f₂], c₁, c₂])
  | abduction => .ofEvidence k ⟨and [f₁, f₂, c₁, c₂], and [f₁, c₁, c₂]⟩
  | induction => .ofEvidence k ⟨and [f₁, f₂, c₁, c₂], and [f₂, c₁, c₂]⟩
  | exemplification => .ofEvidence k ⟨and [f₁, f₂, c₁, c₂], and [f₁, f₂, c₁, c₂]⟩
  | comparison => .ofEvidence k ⟨and [f₁, f₂, c₁, c₂], and [or [f₁, f₂], c₁, c₂]⟩
  | intersection => .of (mean f₁ f₂) (mean c₁ c₂)
  | union => .of (or [f₁, f₂]) (mean c₁ c₂)
  | difference => .of (and [f₁, not f₂]) (and [c₁, c₂])

end TruthFunction

namespace TruthValue

variable {α : Type} [Scale α]

def negation (v : TruthValue α) : TruthValue α := of (not v.frequency) v.confidence

/-- The value of a statement with its sides exchanged: only positive evidence counts. -/
def conversion (k : α) (v : TruthValue α) : TruthValue α :=
  let w := v.frequency * v.confidence
  of one (w / (w + k))

def contraposition (v : TruthValue α) : TruthValue α :=
  of v.frequency (and [v.frequency, v.confidence])

/-- The value of a timeless statement from that of one event. -/
def eternalization (k : α) (v : TruthValue α) : TruthValue α :=
  v.withConfidence (v.confidence / (k + v.confidence))

def distance (s t : UInt64) : Nat := max s.toNat t.toNat - min s.toNat t.toNat

/-- The greatest number of cycles over which a confidence is decayed. -/
def maxDistance : Nat := 0x7FFFFFFF

/-- The value of an event seen from another time: its confidence decays with every cycle
between. -/
def projection (v : TruthValue α) (source target : UInt64) (decay : α) : TruthValue α :=
  if source = target then v
  else v.withConfidence (v.confidence * power decay (min (distance source target) maxDistance))

end TruthValue

end NonAxiomatic
